import Mathlib.Algebra.BigOperators.Group.List.Basic
import Transportation.Proofs.Network.Gap
import Transportation.Proofs.Network.Tree
import Transportation.Proofs.Tree.Forest
/-!
# Directed cycles

Arcs walked one after the other, each from its source to its sink. Along such a walk the growth of potentials adds up
to the difference between its ends (`Directed.sum_sub`), which is nothing around a cycle. In a forest the walk does
not meet a vertex twice (`Directed.nodup_src`).
-/

namespace Transportation

variable {F : Type} {g : Network F} {T : ArcSet} {u v w : VertexId} {l p q : List (Arc F)} {c : List Step}

/-- The arcs lead from `u` to `v`, each from its source to its sink. -/
def Directed : VertexId → List (Arc F) → VertexId → Prop
  | u, [], v => u = v
  | u, x :: l, v => x.src = u ∧ Directed x.snk l v

theorem directed_append : Directed u (p ++ q) v ↔ ∃ w, Directed u p w ∧ Directed w q v := by
  induction p generalizing u with
  | nil => simp [Directed]
  | cons x p ih => simp only [List.cons_append, Directed, ih, and_assoc, exists_and_left]

theorem Directed.sum_sub (h : Directed u l v) (f : VertexId → Int) :
    (l.map fun x => f x.snk - f x.src).sum = f v - f u := by
  induction l generalizing u with
  | nil => rw [show u = v from h, List.map_nil, List.sum_nil, sub_self]
  | cons x l ih =>
    obtain ⟨rfl, h⟩ := h
    rw [List.map_cons, List.sum_cons, ih h]
    omega

theorem Directed.map {f : Arc F → Arc F} (h : Directed u l v)
    (hf : ∀ x ∈ l, (f x).src = x.src ∧ (f x).snk = x.snk) : Directed u (l.map f) v := by
  induction l generalizing u with
  | nil => exact h
  | cons x l ih =>
    obtain ⟨hx, hl⟩ := List.forall_mem_cons.1 hf
    exact ⟨hx.1.trans h.1, hx.2 ▸ ih h.2 hl⟩

/-! ## Walks that only go forward -/

/-- The step along the arc from its source to its sink. -/
def Arc.step (x : Arc F) : Step :=
  ⟨x.id, true⟩

theorem Directed.walk (h : Directed u l v) (hl : ∀ x ∈ l, T.Leads x.step x.src x.snk) :
    T.Walk u (l.map Arc.step) v := by
  induction l generalizing u with
  | nil => exact h
  | cons x l ih =>
    obtain ⟨rfl, h⟩ := h
    obtain ⟨hx, hl⟩ := List.forall_mem_cons.1 hl
    exact ⟨x.snk, hx, ih h hl⟩

theorem exists_directed (hg : g.Numbered) (h : g.tree.Walk u c v) (hc : ∀ s ∈ c, s.forward = true) :
    ∃ l, Directed u l v ∧ c = l.map Arc.step ∧ ∀ x ∈ l, x ∈ g.treeArcs := by
  induction c generalizing u with
  | nil => exact ⟨[], h, rfl, by simp⟩
  | cons s c ih =>
    obtain ⟨w, hs, h⟩ := h
    obtain ⟨hforward, hc⟩ := List.forall_mem_cons.1 hc
    obtain ⟨x, hx, hid, hends⟩ := hg.leads_tree.1 hs
    rw [hforward, if_pos rfl, Prod.mk.injEq] at hends
    obtain ⟨l, hl, rfl, hmem⟩ := ih h hc
    refine ⟨x :: l, ⟨hends.1, hends.2 ▸ hl⟩, ?_, List.forall_mem_cons.2 ⟨hx, hmem⟩⟩
    rw [List.map_cons, Arc.step, hid, ← hforward]

/-- In a forest arcs walked forward, of which none follows itself, do not meet a vertex twice. -/
theorem Directed.nodup_src (hT : T.Forest) (h : Directed u l v) (hl : ∀ x ∈ l, T.Leads x.step x.src x.snk)
    (hn : ArcSet.NonBacktracking (l.map Arc.step)) : (l.map Arc.src ++ [v]).Nodup := by
  induction l generalizing u with
  | nil => simp
  | cons x l ih =>
    have hrest := List.forall_mem_cons.1 hl
    rw [List.map_cons, List.cons_append, List.nodup_cons]
    refine ⟨fun hx => ?_, ih h.2 hrest.2 (ArcSet.NonBacktracking.right (p := [x.step]) hn)⟩
    rcases List.mem_append.1 hx with hx | hx
    · -- The arcs up to the one that leaves the vertex again would be a walk that returns.
      obtain ⟨y, hy, hyx⟩ := List.mem_map.1 hx
      obtain ⟨p, q, rfl⟩ := List.append_of_mem hy
      obtain ⟨w, hp, hq⟩ := directed_append.1 h.2
      have hcycle : Directed x.src (x :: p) x.src := ⟨rfl, by rw [← hyx, hq.1]; exact hp⟩
      refine hT.ne_of_walk (hcycle.walk fun z hz => hl z ?_) ?_ (by simp) rfl
      · rcases List.mem_cons.1 hz with rfl | hz
        · simp
        · simp [hz]
      · refine ArcSet.NonBacktracking.left (q := (y :: q).map Arc.step) ?_
        rwa [← List.map_append]
    · exact hT.ne_of_walk (h.walk hl) hn (by simp) (h.1.symm.trans (List.mem_singleton.1 hx))

/-! ## Cycles of an instance -/

namespace Network

theorem length_le_of_nodup (hn : (l.map Arc.src).Nodup) (hl : ∀ x ∈ l, x.src.index < g.numVertices) :
    l.length ≤ g.numVertices := by
  rw [← card_vertexSet, ← List.length_map Arc.src, ← List.toFinset_card_of_nodup hn]
  refine Finset.card_le_card fun v hv => ?_
  obtain ⟨x, hx, rfl⟩ := List.mem_map.1 (List.mem_toFinset.1 hv)
  exact mem_vertexSet_iff.2 (hl x hx)

/-- The arcs are real arcs of `g` that lead around a cycle, from their sources to their sinks. -/
structure DirectedCycle (g : Network F) (l : List (Arc F)) : Prop where
  real : ∀ x ∈ l, x ∈ g.realArcs
  ne_nil : l ≠ []
  closed : ∃ u, Directed u l u
  nodup : (l.map Arc.src).Nodup

end Network

end Transportation
