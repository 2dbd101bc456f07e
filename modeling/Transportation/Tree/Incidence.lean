import Transportation.Network

/-!
# Tree arcs by vertex

Which arcs form the tree is stored in the arcs. An `Incidence` lists the tree arcs at every vertex, in the order
in which they entered. `insert` and `remove` change the arcs of the network and the lists together.
-/

namespace Transportation

structure Incidence where
  /-- The tree arcs at every vertex, by position. -/
  incident : Array (List ArcId)
  /-- The number of tree arcs. -/
  count : Nat
  deriving DecidableEq, Repr

namespace Incidence

variable {F : Type}

def empty : Incidence :=
  ⟨#[], 0⟩

/-- The tree arcs at `u`. -/
def arcsAt (t : Incidence) (u : VertexId) : Checked (List ArcId) :=
  Checked.get t.incident u.index

/-- Lists `a` last at both its end vertices. -/
def attach (t : Incidence) (u v : VertexId) (a : ArcId) : Checked Incidence := do
  let incident ← Checked.modify t.incident u.index (· ++ [a])
  let incident ← Checked.modify incident v.index (· ++ [a])
  return ⟨incident, t.count + 1⟩

/-- Strikes `a` from the lists of both its end vertices. -/
def detach (t : Incidence) (u v : VertexId) (a : ArcId) : Checked Incidence := do
  let incident ← Checked.modify t.incident u.index (·.filter (· ≠ a))
  let incident ← Checked.modify incident v.index (·.filter (· ≠ a))
  return ⟨incident, t.count - 1⟩

/-- The tree arcs of `g`. -/
def ofNetwork (g : Network F) : Checked Incidence :=
  g.treeArcs.foldlM (fun t a => t.attach a.src a.snk a.id) ⟨Array.replicate g.numVertices [], 0⟩

/-- Makes `a` a tree arc. -/
def insert (t : Incidence) (g : Network F) (a : ArcId) : Checked (Incidence × Network F) := do
  let arc ← g.arc a
  Checked.require (arc.inTree = false) (.alreadyTreeArc a.index)
  let t ← t.attach arc.src arc.snk a
  return (t, ← g.modifyArc a ({ · with inTree := true }))

/-- Takes `a` out of the tree. The arc stays in the network. -/
def remove (t : Incidence) (g : Network F) (a : ArcId) : Checked (Incidence × Network F) := do
  let arc ← g.arc a
  Checked.require (arc.inTree = true) (.notTreeArc a.index)
  let t ← t.detach arc.src arc.snk a
  return (t, ← g.modifyArc a ({ · with inTree := false }))

end Incidence

end Transportation
