import Transportation.Network

/-!
# Building a network

A builder collects the weights of vertices and the links between them. Vertices and arcs are numbered in the order
in which they are added, and these numbers are their positions in the finished network. An arc joins two different
vertices that were added before it. When an arc is added, there is still room for one artificial arc for each
vertex.
-/

namespace Transportation

/-- An arc to be, from `src` to `snk`. -/
structure Link (F : Type) where
  src : VertexId
  snk : VertexId
  cost : F
  deriving DecidableEq, Repr

/-- The link joins two different vertices of the first `n`. -/
def Link.Joins {F : Type} (n : Nat) (l : Link F) : Prop :=
  l.src.index < n ∧ l.snk.index < n ∧ l.src ≠ l.snk

theorem Link.Joins.mono {F : Type} {m n : Nat} {l : Link F} (h : l.Joins m) (hmn : m ≤ n) : l.Joins n :=
  ⟨Nat.lt_of_lt_of_le h.1 hmn, Nat.lt_of_lt_of_le h.2.1 hmn, h.2.2⟩

structure Builder (F : Type) where
  name : String
  weights : Array F
  links : Array (Link F)
  joins : ∀ l ∈ links, l.Joins weights.size

namespace Builder

variable {F : Type}

def empty : Builder F :=
  ⟨"", #[], #[], by simp⟩

def numVertices (b : Builder F) : Nat :=
  b.weights.size

def numArcs (b : Builder F) : Nat :=
  b.links.size

def setName (b : Builder F) (name : String) : Builder F :=
  { b with name }

def addVertex (b : Builder F) (weight : F) : Checked (VertexId × Builder F) := do
  Checked.require (b.numVertices + 1 < idLimit) .vertexCapacity
  return (⟨b.numVertices⟩,
    { b with
      weights := b.weights.push weight
      joins := fun l h => (b.joins l h).mono (by simp) })

def addVertices (b : Builder F) : List F → Checked (List VertexId × Builder F)
  | [] => pure ([], b)
  | w :: ws => do
    let (id, b) ← b.addVertex w
    let (ids, b) ← b.addVertices ws
    return (id :: ids, b)

def addArc (b : Builder F) (l : Link F) : Checked (ArcId × Builder F) :=
  if ends : l.src.index < b.numVertices ∧ l.snk.index < b.numVertices then
    if distinct : l.src ≠ l.snk then do
      Checked.require (b.numArcs + b.numVertices + 1 < idLimit) .arcCapacity
      return (⟨b.numArcs⟩,
        { b with
          links := b.links.push l
          joins := fun l' h => (Array.mem_push.1 h).elim (b.joins l') fun h => h ▸ ⟨ends.1, ends.2, distinct⟩ })
    else
      throw .loop
  else
    throw (.unknownEndVertex l.src.index l.snk.index)

theorem addVertex_eq_ok_iff {b c : Builder F} {w : F} {id : VertexId} :
    b.addVertex w = .ok (id, c) ↔
      b.numVertices + 1 < idLimit ∧ id = ⟨b.numVertices⟩ ∧ c.name = b.name ∧ c.weights = b.weights.push w ∧
        c.links = b.links := by
  rw [addVertex, Checked.require_bind_eq_ok_iff, Checked.pure_eq_ok_iff]
  cases c
  simp [eq_comm]

theorem addArc_eq_ok_iff {b c : Builder F} {l : Link F} {id : ArcId} :
    b.addArc l = .ok (id, c) ↔
      l.Joins b.numVertices ∧ b.numArcs + b.numVertices + 1 < idLimit ∧ id = ⟨b.numArcs⟩ ∧ c.name = b.name ∧
        c.weights = b.weights ∧ c.links = b.links.push l := by
  unfold addArc Link.Joins
  split
  · next ends =>
    split
    · next distinct =>
      rw [Checked.require_bind_eq_ok_iff, Checked.pure_eq_ok_iff]
      cases c
      simp [ends, distinct, eq_comm]
    · next h => simp_all [Checked.throw_ne_ok]
  · next h => simp only [Checked.throw_ne_ok, false_iff]; exact fun ⟨⟨h₁, h₂, _⟩, _⟩ => h ⟨h₁, h₂⟩

def addArcs (b : Builder F) (links : List (Link F)) : Checked (Builder F) :=
  links.foldlM (fun b l => return (← b.addArc l).2) b

section
variable [Amount F]

/-- The vertex at position `i`. -/
def vertex (i : Nat) (weight : F) : Vertex F :=
  ⟨⟨i⟩, weight, Amount.zero⟩

/-- The arc at position `i`. -/
def arc (i : Nat) (l : Link F) : Arc F :=
  ⟨⟨i⟩, l.src, l.snk, l.cost, Amount.zero, .real, false⟩

def network (b : Builder F) : Network F :=
  ⟨0, b.name, b.weights.mapIdx vertex, b.links.mapIdx arc⟩

/-- The network with the given weights and links. -/
def build (weights : List F) (links : List (Link F)) : Checked (Network F) := do
  let (_, b) ← empty.addVertices weights
  return (← b.addArcs links).network

end

end Builder

end Transportation
