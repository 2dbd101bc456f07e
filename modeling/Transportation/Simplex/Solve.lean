import Transportation.Simplex.Pivot

/-!
# Solving

`solve` runs both phases. The result is optimal if the instance has a solution and the artificial arcs have left
the tree, and degenerate if some of them stay there without flow.
-/

namespace Transportation

variable {F : Type} [Amount F]

open Amount

/-! ## Pivoting until the tree is optimal -/

namespace Simplex

/-- Pivots until no arc may enter, at most `n` times after `count` pivots, and gives the number of pivots. The
tree may also be optimal after the last pivot. -/
def optimizeWithin (limit : Nat) : Nat → Nat → SolverM F Nat
  | 0, count => do
    match ← findEntering with
    | none => return count
    | some _ => throw (.iterationLimit limit)
  | n + 1, count => do
    match ← pivot with
    | none => return count
    | some _ => optimizeWithin limit n (count + 1)

/-- The largest number of pivots in a phase. -/
def pivotLimit (s : Simplex F) : Nat :=
  s.options.maxPivots.getD (max 1000 (10 * (s.solution.numVertices * s.solution.numArcs)))

/-- Pivots until the tree is optimal and gives the number of pivots. -/
def optimize : SolverM F Nat := do
  requireTree
  let limit := (← get).pivotLimit
  optimizeWithin limit limit 0

/-! ## Between the phases -/

/-- Whether the first phase has found a flow that needs no artificial arcs. -/
def checkStart : SolverM F SolutionState := do
  requireTree
  let s ← get
  let arcs ← s.solution.artificialArcs.mapM fun a => do
    return (a.inTree, lt s.options.zero (← mul a.cost a.flow))
  let carrying := arcs.countP fun (_, carries) => carries
  let remaining := arcs.countP fun (inTree, carries) => inTree && !carries
  if carrying > 0 then throw (.infeasible carrying)
  return if remaining > 0 then .degenerate else .optimal

end Simplex

namespace Network

/-- The largest absolute cost. -/
def largestCost (g : Network F) : Checked F :=
  g.arcs.toList.foldlM (fun value a => do
    let c ← Amount.abs a.cost
    return if lt value c then c else value) zero

/-- A cost that no saving on real arcs makes up for: the number of vertices times one more than the largest cost.
It is at most the largest amount divided by one more than the number of vertices, so that the sum of such costs
along a path is an amount. -/
def defaultArtificialCost (g : Network F) : Checked F := do
  let value ← g.largestCost
  let n := (ofCount? (max g.numVertices 1)).getD one
  let cap ← div largest (← add n one)
  if le (← div cap n) value then
    return cap
  else
    mul n (← add one value)

/-- The cost in the second phase of an arc of the working copy of `g`. -/
def restoredCost (g : Network F) (artificialCost : F) (a : Arc F) : Checked F :=
  match a.kind with
  | .real => return (← g.arc a.id).cost
  | .artificial => return if a.inTree then artificialCost else a.cost

/-- The working copy `h` of `g` with the costs of the second phase. -/
def restore (g : Network F) (artificialCost : F) (h : Network F) : Checked (Network F) := do
  let arcs ← h.arcs.toList.mapM fun a => do
    return { a with cost := ← g.restoredCost artificialCost a }
  return { h with arcs := arcs.toArray }

end Network

namespace Simplex

/-- Begins the second phase: real arcs get the costs of the instance, artificial arcs in the tree the artificial
cost. -/
def restoreCosts : SolverM F Unit := do
  requireTree
  let s ← get
  let artificialCost ←
    match s.options.artificialCost with
    | some c => pure c
    | none => s.input.defaultArtificialCost
  let solution ← s.input.restore artificialCost s.solution
  set { s with solution, phase := .optimal }
  updatePotentials

/-! ## Both phases -/

/-- The number of artificial arcs that carry flow. -/
def numCarryingArtificialArcs (s : Simplex F) : Nat :=
  s.solution.artificialArcs.countP fun a => lt s.options.zero a.flow

/-- Solves the instance, whatever the state was before. -/
def solve : SolverM F SolutionState := do
  modify fun s => { s with pivots := 0, state := .unknown }
  start
  let _ ← optimize
  let state ← checkStart
  restoreCosts
  let _ ← optimize
  let carrying := (← get).numCarryingArtificialArcs
  if carrying > 0 then throw (.infeasible carrying)
  modify fun s => { s with state }
  return state

end Simplex

/-- The solution of the instance `g` with the default options. -/
def Network.solve (g : Network F) : Checked (Except SolveError (SolutionState × Network F)) := do
  let (r, s) ← (Simplex.new g).run Simplex.solve
  return r.map fun state => (state, s.solution)

end Transportation
