import Transportation.Tree.Search

/-!
# Spanning trees

The tree arcs form a spanning tree if there is one less of them than vertices and they connect the first vertex
to all others.
-/

namespace Transportation.Incidence

variable {F : Type}

/-- Whether the tree arcs form a spanning tree of `g`. -/
def isSpanning (t : Incidence) (g : Network F) : Checked Bool :=
  let n := g.numVertices
  if n = 0 then
    pure (t.count = 0)
  else if t.count + 1 = n then do
    let s ← Search.run (fun _ _ _ => pure) g t ⟨0⟩ ()
    return s.reached = n
  else
    pure false

end Transportation.Incidence
