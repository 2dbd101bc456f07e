import Transportation.Tree.Search

/-!
# Potentials

The potential of the root is zero, and along a tree arc the potential grows by the cost of the arc. Vertices that
the tree does not connect to the root keep the potential zero.
-/

namespace Transportation

variable {F : Type} [Amount F]

/-- The potential of the far end of `arc`, walked from a vertex `u` of potential `p`. -/
def Arc.potentialFrom (arc : Arc F) (u : VertexId) (p : F) : Checked F :=
  if arc.src = u then Amount.add p arc.cost else Amount.sub p arc.cost

namespace Incidence

/-- Gives `v`, found from `u` by `arc`, its potential. -/
def extendPotential (arc : Arc F) (u v : VertexId) (ps : Array F) : Checked (Array F) := do
  let p ← arc.potentialFrom u (← Checked.get ps u.index)
  Checked.modify ps v.index fun _ => p

/-- The potentials of all vertices, by position, and whether the tree connects all of them to `root`. -/
def potentials (t : Incidence) (g : Network F) (root : VertexId) : Checked (Array F × Bool) :=
  let n := g.numVertices
  let zeros : Array F := Array.replicate n Amount.zero
  if n = 0 then
    pure (zeros, true)
  else do
    let s ← Search.run extendPotential g t root zeros
    return (s.result, s.reached = n)

/-- The network with new potentials, and whether the tree connects all vertices to `root`. -/
def computePotentials (t : Incidence) (g : Network F) (root : VertexId) : Checked (Network F × Bool) := do
  let (ps, all) ← t.potentials g root
  return (g.withPotentials ps, all)

end Incidence

end Transportation
