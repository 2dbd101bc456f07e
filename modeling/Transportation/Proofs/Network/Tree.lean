import Mathlib.Data.List.Nodup
import Transportation.Proofs.Network.Frame
import Transportation.Proofs.Tree.Forest
/-!
# The tree of a network

`Network.tree` is the set of tree arcs. It depends on the ends and the tree flags alone (`tree_congr`), gains an arc
when one enters (`tree_enter`) and loses one when it leaves (`tree_leave`). Tree arcs that connect all vertices are a
forest if and only if there is one less of them than vertices (`Numbered.forest`, `Numbered.numTreeArcs_eq`).
-/

namespace Transportation

variable {F : Type}

/-- The ends of the arcs of a list, by their numbers. -/
def ArcSet.ofArcs (l : List (Arc F)) : ArcSet :=
  ⟨fun a => (l.find? (·.id = a)).map fun x => (x.src, x.snk)⟩

theorem ArcSet.ends_ofArcs {l : List (Arc F)} (hl : (l.map Arc.id).Nodup) {a : ArcId} {p : VertexId × VertexId} :
    (ofArcs l).ends a = some p ↔ ∃ x ∈ l, x.id = a ∧ (x.src, x.snk) = p := by
  simp only [ofArcs, Option.map_eq_some_iff]
  constructor
  · rintro ⟨x, hx, rfl⟩
    exact ⟨x, List.mem_of_find?_eq_some hx, by simpa using List.find?_some hx, rfl⟩
  · rintro ⟨x, hx, rfl, rfl⟩
    refine ⟨x, ?_, rfl⟩
    cases h : l.find? (·.id = x.id) with
    | none => simpa using List.find?_eq_none.1 h x hx
    | some y =>
      have hy : y.id = x.id := by simpa using List.find?_some h
      rw [List.inj_on_of_nodup_map hl (List.mem_of_find?_eq_some h) hx hy]

namespace Network

variable {g h : Network F} {a : ArcId} {x : Arc F}

/-- The tree arcs, by their ends. -/
def tree (g : Network F) : ArcSet :=
  .ofArcs g.treeArcs

theorem mem_treeArcs_iff : x ∈ g.treeArcs ↔ x ∈ g.arcs.toList ∧ x.inTree = true := by
  simp [treeArcs, List.mem_filter]

theorem Numbered.nodup_treeArcs (hg : g.Numbered) : (g.treeArcs.map Arc.id).Nodup :=
  hg.nodup_ids.sublist (List.filter_sublist.map _)

theorem Numbered.ends_tree (hg : g.Numbered) {p : VertexId × VertexId} :
    g.tree.ends a = some p ↔ ∃ x ∈ g.treeArcs, x.id = a ∧ (x.src, x.snk) = p :=
  ArcSet.ends_ofArcs hg.nodup_treeArcs

theorem Numbered.leads_tree (hg : g.Numbered) {s : Step} {u v : VertexId} :
    g.tree.Leads s u v ↔ ∃ x ∈ g.treeArcs, x.id = s.arc ∧ (x.src, x.snk) = if s.forward then (u, v) else (v, u) :=
  hg.ends_tree

/-- A tree arc leads from its source to its sink. -/
theorem Numbered.leads_of_mem (hg : g.Numbered) (hx : x ∈ g.treeArcs) : g.tree.Leads ⟨x.id, true⟩ x.src x.snk :=
  hg.leads_tree.2 ⟨x, hx, rfl, rfl⟩

theorem Numbered.leads_of_tree (hg : g.Numbered) (hx : g.arcs[a.index]? = some x) (ht : x.inTree = true) :
    g.tree.Leads ⟨a, true⟩ x.src x.snk := by
  obtain rfl : x.id = a := hg.arc_id hx
  exact hg.leads_of_mem (mem_treeArcs_iff.2 ⟨mem_arcs_iff.2 ⟨_, hx⟩, ht⟩)

theorem Numbered.exists_of_walk (hg : g.Numbered) {u v : VertexId} {c : List Step} (hw : g.tree.Walk u c v)
    (ha : a ∈ c.map Step.arc) : ∃ x, g.arcs[a.index]? = some x ∧ x.inTree = true := by
  obtain ⟨p, s, q, y, z, -, rfl, -, -, hl, -⟩ := hw.split ha
  obtain ⟨x, hx, hid, -⟩ := hg.leads_tree.1 hl
  obtain ⟨hx, ht⟩ := mem_treeArcs_iff.1 hx
  exact ⟨x, hid ▸ hg.getElem?_id hx, ht⟩

theorem Numbered.within_tree (hg : g.Numbered) : g.tree.Within g.numVertices := by
  intro s u v hs
  obtain ⟨x, hx, -, he⟩ := hg.leads_tree.1 hs
  obtain ⟨i, hi⟩ := mem_arcs_iff.1 (mem_treeArcs_iff.1 hx).1
  have h₁ := hg.src_lt hi
  have h₂ := hg.snk_lt hi
  cases hf : s.forward <;> simp only [hf, Bool.false_eq_true, if_true, if_false, Prod.mk.injEq] at he
  · exact he.2 ▸ h₂
  · exact he.1 ▸ h₁

theorem Proper.ne_of_leads (hg : g.Proper) {s : Step} {u v : VertexId} (hl : g.tree.Leads s u v) : u ≠ v := by
  obtain ⟨x, hx, -, he⟩ := hg.leads_tree.1 hl
  obtain ⟨i, hi⟩ := mem_arcs_iff.1 (mem_treeArcs_iff.1 hx).1
  have hne := hg.loopless hi
  cases hf : s.forward <;> simp only [hf, Bool.false_eq_true, if_true, if_false, Prod.mk.injEq] at he
  · rw [← he.1, ← he.2]
    exact hne.symm
  · rw [← he.1, ← he.2]
    exact hne

theorem Numbered.mem_ids_iff (hg : g.Numbered) : a ∈ g.treeArcs.map Arc.id ↔ (g.tree.ends a).isSome := by
  rw [List.mem_map, Option.isSome_iff_exists]
  constructor
  · rintro ⟨x, hx, hid⟩
    exact ⟨_, hg.ends_tree.2 ⟨x, hx, hid, rfl⟩⟩
  · rintro ⟨p, hp⟩
    obtain ⟨x, hx, hid, -⟩ := hg.ends_tree.1 hp
    exact ⟨x, hx, hid⟩

/-- A tree that connects all vertices by one arc less is a forest. -/
theorem Numbered.forest (hg : g.Numbered) (hs : g.tree.Spans g.numVertices)
    (hn : g.numTreeArcs + 1 = g.numVertices) : g.tree.Forest := by
  refine ArcSet.forest_of_card (fun a => hg.mem_ids_iff.2) hg.within_tree hs ?_
  rw [List.length_map]
  unfold numTreeArcs at hn
  omega

/-- A forest that connects all vertices has one arc less. -/
theorem Numbered.numTreeArcs_eq (hg : g.Numbered) (hn : 0 < g.numVertices) (hs : g.tree.Spans g.numVertices)
    (hf : g.tree.Forest) : g.numTreeArcs + 1 = g.numVertices := by
  have hle := ArcSet.le_card_of_connected (fun a => hg.mem_ids_iff.2) hg.within_tree hs
  have hlt := hf.card_lt hn hg.within_tree hs (fun a => hg.mem_ids_iff.1) hg.nodup_treeArcs
  rw [List.length_map] at hle hlt
  unfold numTreeArcs
  omega

theorem Numbered.ends_tree_eq (hg : g.Numbered) (a : ArcId) :
    g.tree.ends a = (g.arcs[a.index]?.filter Arc.inTree).map fun x => (x.src, x.snk) := by
  refine Option.ext fun p => ?_
  rw [hg.ends_tree, Option.map_eq_some_iff]
  constructor
  · rintro ⟨x, hx, rfl, rfl⟩
    rw [mem_treeArcs_iff] at hx
    exact ⟨x, by simp [hg.getElem?_id hx.1, hx.2], rfl⟩
  · rintro ⟨x, hx, rfl⟩
    obtain ⟨hx, ht⟩ := Option.filter_eq_some_iff.1 hx
    exact ⟨x, mem_treeArcs_iff.2 ⟨mem_arcs_iff.2 ⟨_, hx⟩, ht⟩, hg.arc_id hx, rfl⟩

/-- Networks with the same ends and tree flags have the same tree. -/
theorem tree_congr (hg : g.Numbered) (hh : h.Numbered)
    (e : ∀ i : Nat, g.arcs[i]?.map (fun x => (x.src, x.snk, x.inTree)) = h.arcs[i]?.map fun x => (x.src, x.snk, x.inTree)) :
    g.tree = h.tree := by
  refine ArcSet.ext (funext fun a => ?_)
  rw [hg.ends_tree_eq, hh.ends_tree_eq]
  have e := e a.index
  cases hx : g.arcs[a.index]? <;> cases hy : h.arcs[a.index]? <;> simp_all [Option.filter]

/-! ## One arc more or less -/

/-- The arc `a`, changed by `f`, enters the tree. -/
theorem treeArcs_enter {f : Arc F → Arc F} (e : g.modifyArc a f = .ok h) (hx : g.arcs[a.index]? = some x)
    (ht : x.inTree = false) (hf : (f x).inTree = true) : h.treeArcs.Perm (g.treeArcs ++ [f x]) := by
  obtain ⟨l, y, r, hy, hg, hh⟩ := exists_split_modifyArc e
  rw [hx, Option.some.injEq] at hy
  subst hy
  unfold treeArcs
  rw [hg, hh, List.filter_append, List.filter_append, List.filter_cons_of_pos hf,
    List.filter_cons_of_neg (by simp [ht])]
  exact List.perm_middle.trans (List.perm_append_singleton _ _).symm

/-- The arc `a` leaves the tree. -/
theorem treeArcs_leave (e : g.modifyArc a ({ · with inTree := false }) = .ok h) (hx : g.arcs[a.index]? = some x)
    (ht : x.inTree = true) : g.treeArcs.Perm (h.treeArcs ++ [x]) := by
  obtain ⟨l, y, r, hy, hg, hh⟩ := exists_split_modifyArc e
  rw [hx, Option.some.injEq] at hy
  subst hy
  unfold treeArcs
  rw [hg, hh, List.filter_append, List.filter_append, List.filter_cons_of_pos ht,
    List.filter_cons_of_neg (by simp)]
  exact List.perm_middle.trans (List.perm_append_singleton _ _).symm

theorem tree_enter (hg : g.Numbered) (e : g.modifyArc a ({ · with inTree := true }) = .ok h)
    (hx : g.arcs[a.index]? = some x) (ht : x.inTree = false) :
    h.tree.without a = g.tree ∧ h.tree.ends a = some (x.src, x.snk) := by
  have hh : h.Numbered := hg.of_frame (frame_modifyArc e fun _ => rfl)
  refine ⟨ArcSet.ext (funext fun b => ?_), by simp [hh.ends_tree_eq, getElem?_modifyArc e, hx]⟩
  by_cases hb : b = a
  · subst hb
    simp [ArcSet.without, hg.ends_tree_eq, hx, ht]
  · have hi : a.index ≠ b.index := fun h => hb (ArcId.ext h.symm)
    simp [ArcSet.without, hb, hg.ends_tree_eq, hh.ends_tree_eq, getElem?_modifyArc e, hi]

theorem tree_leave (hg : g.Numbered) (e : g.modifyArc a ({ · with inTree := false }) = .ok h) :
    h.tree = g.tree.without a := by
  have hh : h.Numbered := hg.of_frame (frame_modifyArc e fun _ => rfl)
  refine ArcSet.ext (funext fun b => ?_)
  by_cases hb : b = a
  · subst hb
    cases hx : g.arcs[b.index]? <;> simp [ArcSet.without, hh.ends_tree_eq, getElem?_modifyArc e, hx]
  · have hi : a.index ≠ b.index := fun h => hb (ArcId.ext h.symm)
    simp [ArcSet.without, hb, hg.ends_tree_eq, hh.ends_tree_eq, getElem?_modifyArc e, hi]

end Network

end Transportation
