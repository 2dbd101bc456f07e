import Transportation.Network

/-!
# Weights and flows of a network

Sums run over the vertices and arcs in order, one checked step after the other, so that a sum may fault on the
way although its final value would fit.
-/

namespace Transportation.Network

variable {F : Type} [Amount F]

open Amount

def totalWeight (g : Network F) : Checked F :=
  g.vertices.toList.foldlM (fun total v => add total v.weight) zero

/-- Whether supply and demand cancel out. -/
def isBalanced (g : Network F) : Checked Bool := do
  return isZero (← g.totalWeight)

/-- Whether the total weight is at most `tolerance` away from zero. -/
def isBalancedWithin (g : Network F) (tolerance : F) : Checked Bool := do
  let total ← g.totalWeight
  if le total tolerance then
    return le (← sub zero tolerance) total
  else
    return false

/-- The cost of the flow on the tree arcs. Arcs outside the tree of a solver carry no flow. -/
def value (g : Network F) : Checked F :=
  g.treeArcs.foldlM (fun v a => do add v (← mul a.cost a.flow)) zero

/-- Adds to `x` what the arc `a` brings to `u`, and takes away what it carries from there. -/
def addFlow (u : VertexId) (x : F) (a : Arc F) : Checked F := do
  let x ← if a.snk = u then add x a.flow else pure x
  if a.src = u then sub x a.flow else pure x

/-- Inflow minus outflow at `u`. -/
def excess (g : Network F) (u : VertexId) : Checked F :=
  g.arcs.toList.foldlM (addFlow u) zero

end Transportation.Network
