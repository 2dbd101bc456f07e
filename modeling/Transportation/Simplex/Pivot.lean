import Transportation.Simplex.Pricing
import Transportation.Simplex.Star
import Transportation.Tree.Cycle

/-!
# Pivots

The entering arc closes a cycle. Flow is pushed around it, in the direction of the entering arc, until an arc
walked backward is empty, and that arc leaves the tree. If no arc is walked backward, any amount can be pushed and
the problem is unbounded. A pivot that fails leaves the tree as it was.
-/

namespace Transportation

variable {F : Type} [Amount F]

open Amount

/-- An arc that limits the flow around a cycle. -/
structure Blocking (F : Type) where
  arc : ArcId
  flow : F
  cost : F
  deriving DecidableEq, Repr

/-- Whether `b` limits the flow more than `best` does, or as much at a larger cost. -/
def Blocking.beats (tolerance : F) (b best : Blocking F) : Checked Bool := do
  if lt b.flow (← sub best.flow tolerance) then
    return true
  else if le (← Amount.abs (← sub b.flow best.flow)) tolerance then
    return lt best.cost b.cost
  else
    return false

namespace Network

/-- The tighter of `best` and the arc `a`. Of equals the earlier is kept. -/
def tighten (g : Network F) (tolerance : F) (best : Option (Blocking F)) (a : ArcId) :
    Checked (Option (Blocking F)) := do
  let arc ← g.arc a
  let b : Blocking F := ⟨a, arc.flow, arc.cost⟩
  match best with
  | none => return some b
  | some best => return some (if ← b.beats tolerance best then b else best)

/-- The arc of the cycle that limits the flow, if an arc is walked backward. -/
def blocking? (g : Network F) (tolerance : F) (cycle : List Step) : Checked (Option (Blocking F)) :=
  ((cycle.filter (!·.forward)).map Step.arc).foldlM (g.tighten tolerance) none

/-- Pushes `delta` along one arc. -/
def pushStep (delta : F) (g : Network F) (step : Step) : Checked (Network F) := do
  let arc ← g.arc step.arc
  let flow ← if step.forward then add arc.flow delta else sub arc.flow delta
  g.modifyArc step.arc ({ · with flow })

/-- Pushes `delta` around a cycle. -/
def push (g : Network F) (delta : F) (cycle : List Step) : Checked (Network F) :=
  cycle.foldlM (pushStep delta) g

end Network

/-- What a pivot did. -/
structure Pivot (F : Type) where
  entering : ArcId
  leaving : ArcId
  /-- The reduced cost of the entering arc. -/
  reducedCost : F
  /-- The amount pushed around the cycle. -/
  delta : F
  deriving DecidableEq, Repr

namespace Simplex

def enter (a : ArcId) : SolverM F Unit := do
  let s ← get
  let (tree, solution) ← s.tree.insert s.solution a
  set { s with tree, solution }

def leave (a : ArcId) : SolverM F Unit := do
  let s ← get
  let (tree, solution) ← s.tree.remove s.solution a
  set { s with tree, solution }

/-- Pushes `delta` around the cycle and counts the pivot. -/
def exchange (cycle : List Step) (delta : F) (leaving : ArcId) : SolverM F Unit := do
  let s ← get
  set { s with solution := ← s.solution.push delta cycle }
  leave leaving
  modify fun s => { s with pivots := s.pivots + 1 }

/-- One pivot, or none if no arc may enter. -/
def pivot : SolverM F (Option (Pivot F)) := do
  requireTree
  match ← findEntering with
  | none => return none
  | some c =>
    enter c.arc
    let s ← get
    match ← s.tree.findCycle? s.solution c.arc with
    | none =>
      leave c.arc
      throw .noSpanningTree
    | some cycle =>
      match ← s.solution.blocking? s.options.zero cycle with
      | none =>
        leave c.arc
        throw .unbounded
      | some b =>
        exchange cycle b.flow b.arc
        updatePotentials
        return some ⟨c.arc, b.arc, c.reducedCost, b.flow⟩

end Simplex

end Transportation
