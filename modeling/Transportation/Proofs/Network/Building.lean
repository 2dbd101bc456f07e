import Transportation.Network.Builder
import Transportation.Proofs.Checked
/-!
# Vertices and arcs added one after the other

A builder takes vertices as long as their numbers fit, and arcs as long as there is room left for one artificial arc for
each vertex. Otherwise it faults for want of capacity.
-/

namespace Transportation.Builder

variable {F : Type} {b c : Builder F}

theorem eq_of_fields (hname : b.name = c.name) (hweights : b.weights = c.weights) (hlinks : b.links = c.links) :
    b = c := by
  cases b
  cases c
  simp_all

/-- The builder with more vertices. -/
def withWeights (b : Builder F) (ws : List F) : Builder F :=
  { b with
    weights := b.weights ++ ws.toArray
    joins := fun l h => (b.joins l h).mono (by simp) }

/-- The builder with more arcs. -/
def withLinks (b : Builder F) (links : List (Link F)) (h : ∀ l ∈ links, l.Joins b.numVertices) : Builder F :=
  { b with
    links := b.links ++ links.toArray
    joins := fun l hl => (Array.mem_append.1 hl).elim (b.joins l) fun hl => h l (by simpa using hl) }

@[simp] theorem numVertices_empty : (empty : Builder F).numVertices = 0 := rfl

@[simp] theorem numArcs_empty : (empty : Builder F).numArcs = 0 := rfl

@[simp] theorem numVertices_withWeights (b : Builder F) (ws : List F) :
    (b.withWeights ws).numVertices = b.numVertices + ws.length := by
  simp [withWeights, numVertices]

@[simp] theorem numArcs_withWeights (b : Builder F) (ws : List F) : (b.withWeights ws).numArcs = b.numArcs := rfl

@[simp] theorem numVertices_withLinks {links : List (Link F)} (h : ∀ l ∈ links, l.Joins b.numVertices) :
    (b.withLinks links h).numVertices = b.numVertices := rfl

@[simp] theorem numArcs_withLinks {links : List (Link F)} (h : ∀ l ∈ links, l.Joins b.numVertices) :
    (b.withLinks links h).numArcs = b.numArcs + links.length := by
  simp [withLinks, numArcs]

@[simp] theorem withWeights_nil (b : Builder F) : b.withWeights [] = b :=
  eq_of_fields rfl (by simp [withWeights]) rfl

@[simp] theorem withLinks_nil {h : ∀ l ∈ ([] : List (Link F)), l.Joins b.numVertices} : b.withLinks [] h = b :=
  eq_of_fields rfl rfl (by simp [withLinks])

theorem withWeights_cons (w : F) (ws : List F) : (b.withWeights [w]).withWeights ws = b.withWeights (w :: ws) :=
  eq_of_fields rfl (by simp [withWeights]) rfl

theorem withLinks_cons {l : Link F} {links : List (Link F)} (hl : ∀ l' ∈ [l], l'.Joins b.numVertices)
    (h : ∀ l' ∈ l :: links, l'.Joins b.numVertices) :
    (b.withLinks [l] hl).withLinks links (fun l' hl' => h l' (List.mem_cons_of_mem _ hl')) = b.withLinks (l :: links) h :=
  eq_of_fields rfl rfl (by simp [withLinks])

/-- A vertex is taken if its number fits. -/
theorem addVertex_eq (b : Builder F) (w : F) : b.addVertex w =
    if b.numVertices + 1 < idLimit then .ok (⟨b.numVertices⟩, b.withWeights [w]) else .error .vertexCapacity := by
  by_cases hfit : b.numVertices + 1 < idLimit
  · rw [if_pos hfit, addVertex_eq_ok_iff]
    exact ⟨hfit, rfl, rfl, by simp [withWeights], rfl⟩
  · simp [addVertex, Checked.require, hfit, throw, throwThe, MonadExceptOf.throw, bind, Except.bind]

theorem addVertices_eq (b : Builder F) (ws : List F) : b.addVertices ws =
    if ws = [] ∨ b.numVertices + ws.length < idLimit then
      .ok ((List.range' b.numVertices ws.length).map VertexId.mk, b.withWeights ws)
    else .error .vertexCapacity := by
  induction ws generalizing b with
  | nil =>
    rw [addVertices, withWeights_nil]
    rfl
  | cons w ws ih =>
    rw [addVertices, addVertex_eq]
    by_cases hw : b.numVertices + 1 < idLimit
    · rw [if_pos hw, Checked.ok_bind]
      simp only [ih, numVertices_withWeights, withWeights_cons]
      by_cases hws : ws = [] ∨ b.numVertices + [w].length + ws.length < idLimit
      · have hall : b.numVertices + (w :: ws).length < idLimit := by
          rcases hws with rfl | hws <;> simp only [List.length_cons, List.length_nil] at * <;> omega
        rw [if_pos hws, if_pos (.inr hall), Checked.ok_bind]
        rfl
      · have hall : ¬ b.numVertices + (w :: ws).length < idLimit := by
          rw [not_or] at hws
          simp only [List.length_cons, List.length_nil] at *
          omega
        rw [if_neg hws, if_neg (by simpa using hall)]
        rfl
    · rw [if_neg hw, if_neg (by simp only [List.length_cons, reduceCtorEq, false_or]; omega)]
      rfl

/-- An arc is taken if there is room left for one artificial arc for each vertex. -/
theorem addArc_eq (b : Builder F) {l : Link F} (h : l.Joins b.numVertices) : b.addArc l =
    if b.numArcs + b.numVertices + 1 < idLimit then
      .ok (⟨b.numArcs⟩, b.withLinks [l] (List.forall_mem_singleton.2 h))
    else .error .arcCapacity := by
  by_cases hfit : b.numArcs + b.numVertices + 1 < idLimit
  · rw [if_pos hfit, addArc_eq_ok_iff]
    exact ⟨h, hfit, rfl, rfl, rfl, by simp [withLinks]⟩
  · rw [if_neg hfit, addArc, dif_pos ⟨h.1, h.2.1⟩, dif_pos h.2.2]
    simp [Checked.require, hfit, throw, throwThe, MonadExceptOf.throw, bind, Except.bind]

end Transportation.Builder
