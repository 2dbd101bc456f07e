import Transportation.Simplex.Basic

/-!
# Pricing

An arc outside the tree may enter it if its reduced cost is below minus the tolerance. An artificial arc may
enter in the first phase only. The rules differ in the order in which arcs are priced and in how many are priced
before one is taken.
-/

namespace Transportation

variable {F : Type} [Amount F]

open Amount

/-- An arc that may enter the tree. -/
structure Candidate (F : Type) where
  arc : ArcId
  reducedCost : F
  deriving DecidableEq, Repr

namespace Network

/-- The reduced cost of `a`, unless `a` is a tree arc or an artificial arc after the first phase. -/
def reducedCost? (g : Network F) (phase : Phase) (a : ArcId) : Checked (Option F) := do
  let arc ← g.arc a
  if arc.inTree || (arc.isArtificial && phase != .initial) then
    return none
  else
    let c ← add arc.cost (← g.vertex arc.src).potential
    return some (← sub c (← g.vertex arc.snk).potential)

end Network

namespace Pricing

variable (g : Network F) (phase : Phase)

/-- The better of `best` and the arc `a`, which must go below `bound`. Of equals the earlier is kept. -/
def improve (bound : F) (best : Option (Candidate F)) (a : ArcId) : Checked (Option (Candidate F)) := do
  match ← g.reducedCost? phase a with
  | none => return best
  | some c => return if lt c ((best.map Candidate.reducedCost).getD bound) then some ⟨a, c⟩ else best

/-- The first arc of `arcs` that goes below minus `tolerance`. -/
def firstBelow (tolerance : F) : List ArcId → Checked (Option (Candidate F))
  | [] => pure none
  | a :: arcs => do
    match ← g.reducedCost? phase a with
    | none => firstBelow tolerance arcs
    | some c => if lt c (← neg tolerance) then return some ⟨a, c⟩ else firstBelow tolerance arcs

/-- The best arc of the first block with a candidate, and how many arcs have been priced, `count` of them before
`arcs`. -/
def bestOfBlock (blockSize : Nat) (bound : F) :
    List ArcId → Nat → Option (Candidate F) → Checked (Option (Candidate F) × Nat)
  | [], count, best => pure (best, count)
  | a :: arcs, count, best => do
    let best ← improve g phase bound best a
    if (count + 1) % blockSize = 0 && best.isSome then
      return (best, count + 1)
    else
      bestOfBlock blockSize bound arcs (count + 1) best

end Pricing

namespace Network

/-- All arcs, from position `start` on and around. -/
def arcIdsFrom (g : Network F) (start : Nat) : List ArcId :=
  (List.range g.numArcs).map fun i => ⟨(start + i) % g.numArcs⟩

end Network

namespace Simplex

/-- The entering arc, if there is one, and the next cursor. -/
def price (s : Simplex F) : Checked (Option (Candidate F) × Nat) := do
  let g := s.solution
  let m := g.numArcs
  match s.options.pricing with
  | .complete =>
    let bound ← neg s.options.zero
    return (← g.arcIds.foldlM (Pricing.improve g s.phase bound) none, s.cursor)
  | .roundRobin =>
    match ← Pricing.firstBelow g s.phase s.options.zero (g.arcIdsFrom s.cursor) with
    | none => return (none, s.cursor)
    | some c => return (some c, (c.arc.index + 1) % m)
  | .block =>
    let bound ← neg s.options.zero
    let start := s.cursor % max m 1
    let (best, count) ← Pricing.bestOfBlock g s.phase s.blockSize bound (g.arcIdsFrom start) 0 none
    return (best, if m = 0 then 0 else (start + count) % m)

/-- Looks for an entering arc and moves the cursor. -/
def findEntering : SolverM F (Option (Candidate F)) := do
  let s ← get
  let (c, cursor) ← s.price
  set { s with cursor }
  return c

end Simplex

end Transportation
