import Transportation.Tree.Incidence

/-!
# Searching the tree

A search walks the tree arcs from a start vertex, the most recently found vertex first. What it computes on the
way is up to `discover`, which is run once for each vertex found, with the arc that led to it.
-/

namespace Transportation

/-- How far a search has come. -/
structure Search (σ : Type) where
  seen : Array Bool
  /-- The vertices found and not yet left, the latest first. -/
  stack : List VertexId
  /-- The number of vertices found. -/
  reached : Nat
  result : σ

namespace Search

variable {F σ : Type}

/-- The search that has found `root` alone, of `n` vertices. -/
def start (n : Nat) (root : VertexId) (result : σ) : Checked (Search σ) := do
  let seen ← Checked.modify (Array.replicate n false) root.index fun _ => true
  return ⟨seen, [root], 1, result⟩

section
variable (discover : Arc F → VertexId → VertexId → σ → Checked σ) (g : Network F) (t : Incidence)

/-- Follows `a` from `u`. -/
def follow (u : VertexId) (s : Search σ) (a : ArcId) : Checked (Search σ) := do
  let arc ← g.arc a
  let v ← arc.other u
  if ← Checked.get s.seen v.index then
    return s
  else
    let result ← discover arc u v s.result
    let seen ← Checked.modify s.seen v.index fun _ => true
    return ⟨seen, v :: s.stack, s.reached + 1, result⟩

/-- Leaves at most `n` vertices of the stack. A vertex enters the stack once, so the number of vertices is
enough to empty it. -/
def explore : Nat → Search σ → Checked (Search σ)
  | 0, s => pure s
  | n + 1, s =>
    match s.stack with
    | [] => pure s
    | u :: stack => do
      let arcs ← t.arcsAt u
      explore n (← arcs.foldlM (follow discover g u) { s with stack })

/-- The search from `root`. -/
def run (root : VertexId) (result : σ) : Checked (Search σ) := do
  explore discover g t g.numVertices (← start g.numVertices root result)

end

end Search

end Transportation
