import Transportation.Tree.Incidence

/-!
# The cycle closed by an arc

When an arc enters the tree, the tree arcs contain one cycle. Leaves are pruned until only vertices of the cycle
are left. The cycle is then walked from the source of the entering arc, over its sink, back to its source.
-/

namespace Transportation

/-- An arc of a walk, and whether it is walked from its source to its sink. -/
structure Step where
  arc : ArcId
  forward : Bool
  deriving DecidableEq, Repr

/-! ## Pruning leaves -/

/-- How far the pruning has come. -/
structure Pruning where
  /-- The number of tree arcs to vertices not pruned. -/
  degree : Array Nat
  alive : Array Bool
  /-- The leaves not yet pruned, the latest first. -/
  leaves : List VertexId

namespace Pruning

variable {F : Type} (g : Network F) (t : Incidence)

def start : Pruning :=
  let degree := t.incident.map List.length
  let leaves := g.vertexIds.filter fun u => degree.getD u.index 0 ≤ 1
  ⟨degree, Array.replicate g.numVertices true, leaves.reverse⟩

/-- Takes the arc `a` from the pruned vertex `u` away from its other end. -/
def release (u : VertexId) (s : Pruning) (a : ArcId) : Checked Pruning := do
  let arc ← g.arc a
  let v ← arc.other u
  if ← Checked.get s.alive v.index then
    let d ← Checked.get s.degree v.index
    Checked.require (d ≠ 0) (.overflow .sub)
    let degree ← Checked.modify s.degree v.index fun d => d - 1
    return { s with degree, leaves := if d = 2 then v :: s.leaves else s.leaves }
  else
    return s

/-- Prunes the leaf `u`, unless that has been done. -/
def prune (u : VertexId) (s : Pruning) : Checked Pruning := do
  if ← Checked.get s.alive u.index then
    let alive ← Checked.modify s.alive u.index fun _ => false
    (← t.arcsAt u).foldlM (release g u) { s with alive }
  else
    return s

/-- Prunes at most `n` leaves. A vertex becomes a leaf once, so the number of vertices is enough. -/
def steps : Nat → Pruning → Checked Pruning
  | 0, s => pure s
  | n + 1, s =>
    match s.leaves with
    | [] => pure s
    | u :: leaves => do steps n (← prune g t u { s with leaves })

end Pruning

/-! ## Walking the cycle -/

namespace Incidence

variable {F : Type} (t : Incidence) (g : Network F)

/-- The vertices left after pruning, by position. -/
def core : Checked (Array Bool) := do
  return (← Pruning.steps g t g.numVertices (Pruning.start g t)).alive

/-- The first of the tree arcs `arcs` at `u`, other than `last`, that leads to a vertex of the core. -/
def next? (core : Array Bool) (u : VertexId) (last : ArcId) : List ArcId → Checked (Option ArcId)
  | [] => pure none
  | a :: arcs =>
    if a = last then
      next? core u last arcs
    else do
      if ← Checked.get core (← (← g.arc a).other u).index then
        return some a
      else
        next? core u last arcs

/-- The walk in the core from `u`, reached by `last`, to `target`, of at most `n` arcs. -/
def walk? (core : Array Bool) (target : VertexId) : Nat → VertexId → ArcId → Checked (Option (List Step))
  | n, u, last =>
    if u = target then
      pure (some [])
    else do
      match ← next? g core u last (← t.arcsAt u) with
      | none => return none
      | some a =>
        let arc ← g.arc a
        let v ← arc.other u
        match n with
        | 0 => return none
        | n + 1 => return (← walk? core target n v a).map (⟨a, arc.src = u⟩ :: ·)

/-- The cycle closed by the tree arc `entering`, which comes first and is walked forward, if there is one. -/
def findCycle? (entering : ArcId) : Checked (Option (List Step)) := do
  let core ← t.core g
  let arc ← g.arc entering
  if ← Checked.get core arc.src.index then
    if ← Checked.get core arc.snk.index then
      let back ← t.walk? g core arc.src (g.numVertices - 1) arc.snk entering
      return back.map (⟨entering, true⟩ :: ·)
  return none

end Incidence

end Transportation
