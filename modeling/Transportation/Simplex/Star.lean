import Transportation.Simplex.Basic
import Transportation.Tree.Potential

/-!
# The initial tree

The first tree is a star: every vertex is joined to the hub, the vertex in the middle of the list, by an arc that
carries its whole supply to the hub or its whole demand from there. This is a real arc if there is one in the
right direction and an artificial arc otherwise. Real arcs cost nothing and artificial arcs cost one, so that the
cost of the flow measures what artificial arcs carry.
-/

namespace Transportation

variable {F : Type} [Amount F]

open Amount

namespace Network

/-- The network without artificial arcs, flow, costs and tree. -/
def cleared (g : Network F) : Network F :=
  g.dropArtificialArcs.mapArcs ({ · with cost := zero, flow := zero, inTree := false })

def hub (g : Network F) : VertexId :=
  ⟨g.numVertices / 2⟩

/-- Joins `v` to the hub by a tree arc that balances `v`. -/
def joinHub (g : Network F) (v : VertexId) : Checked (Network F) := do
  let weight := (← g.vertex v).weight
  let (src, snk, flow) ←
    if lt weight zero then pure (v, g.hub, ← neg weight) else pure (g.hub, v, weight)
  match g.findArc? src snk with
  | some a => g.modifyArc a ({ · with flow, inTree := true })
  | none => g.addArtificialArc src snk one flow

/-- The star around the hub. -/
def star (g : Network F) : Checked (Network F) :=
  let g := g.cleared
  (g.vertexIds.filter (· ≠ g.hub)).foldlM joinHub g

/-- The first supplier, or the first vertex if there is none. -/
def firstSupplier (g : Network F) : VertexId :=
  ((g.vertices.find? Vertex.isSupply).map Vertex.id).getD ⟨0⟩

end Network

namespace Simplex

/-- The number of arcs in a block: half the square root of the number of arcs, rounded, which is the number of
odd squares up to it, but at least ten. -/
def blockSizeFor (numArcs : Nat) : Nat :=
  max 10 ((List.range numArcs).countP fun k => (2 * k + 1) * (2 * k + 1) ≤ numArcs)

/-- Computes the potentials of the current tree. -/
def updatePotentials : SolverM F Unit := do
  let s ← get
  let (solution, all) ← s.tree.computePotentials s.solution s.root
  set { s with solution }
  unless all do throw .noSpanningTree

/-- Begins the first phase with the star as the tree, whatever the state was before. -/
def start : SolverM F Unit := do
  let s ← get
  unless ← s.input.isBalancedWithin s.options.zero do throw .unbalanced
  let solution ← s.input.star
  let tree ← Incidence.ofNetwork solution
  set { s with
    solution, tree
    root := solution.firstSupplier
    phase := .initial
    cursor := 0
    blockSize := blockSizeFor solution.numArcs }
  updatePotentials

end Simplex

end Transportation
