import Transportation.Proofs.Faults
import Transportation.Proofs.Network.Tree
/-!
# Incidence lists

An incidence `Holds` arcs if it has each of them at both its end vertices and no others. It holds the tree arcs of a
network when it is made. A loop is then held twice at its one end; without loops the incidence `Lists` every arc once
at each end, and `insert` and `remove` keep it so.
-/

namespace Transportation.Incidence

variable {F : Type} {t t' : Incidence} {g h : Network F} {n : Nat} {l l' : List (Arc F)} {x : Arc F} {a : ArcId}

/-- The arcs `l` are held at `n` vertices. -/
structure Holds (t : Incidence) (n : Nat) (l : List (Arc F)) : Prop where
  size : t.incident.size = n
  count : t.count = l.length
  mem_iff : ∀ {u : Nat} {as : List ArcId} {a : ArcId}, t.incident[u]? = some as →
    (a ∈ as ↔ ∃ x ∈ l, x.id = a ∧ (x.src = ⟨u⟩ ∨ x.snk = ⟨u⟩))

/-- The arcs `l` are listed at `n` vertices. -/
structure Lists (t : Incidence) (n : Nat) (l : List (Arc F)) : Prop where
  size : t.incident.size = n
  count : t.count = l.length
  nodup : ∀ {u : Nat} {as : List ArcId}, t.incident[u]? = some as → as.Nodup
  mem_iff : ∀ {u : Nat} {as : List ArcId} {a : ArcId}, t.incident[u]? = some as →
    (a ∈ as ↔ ∃ x ∈ l, x.id = a ∧ (x.src = ⟨u⟩ ∨ x.snk = ⟨u⟩))

theorem Lists.holds (ht : t.Lists n l) : t.Holds n l :=
  ⟨ht.size, ht.count, ht.mem_iff⟩

theorem Lists.perm (ht : t.Lists n l) (hp : l.Perm l') : t.Lists n l' := by
  refine ⟨ht.size, ht.count.trans hp.length_eq, ht.nodup, fun h => ?_⟩
  rw [ht.mem_iff h]
  simp only [hp.mem_iff]

theorem lists_empty (n : Nat) : (⟨Array.replicate n [], 0⟩ : Incidence).Lists n ([] : List (Arc F)) := by
  have hnil : ∀ {u : Nat} {as : List ArcId}, (Array.replicate n [])[u]? = some as → as = [] := by
    intro u as h
    rw [Array.getElem?_replicate] at h
    split at h <;> simp_all
  refine ⟨by simp, rfl, fun h => ?_, fun h => ?_⟩
  · rw [hnil h]; simp
  · rw [hnil h]; simp

/-! ## One arc more or less -/

/-- The lists at two vertices are changed alike. -/
theorem getElem?_modify_modify (xs : Array (List ArcId)) (i j k : Nat) (f : List ArcId → List ArcId) (hij : i ≠ j) :
    ((xs.modify i f).modify j f)[k]? = if i = k ∨ j = k then xs[k]?.map f else xs[k]? := by
  rw [Array.getElem?_modify, Array.getElem?_modify]
  by_cases hi : i = k
  · subst hi; simp [Ne.symm hij]
  · by_cases hj : j = k <;> simp [hi, hj]

theorem attach_eq_ok_iff {u v : VertexId} :
    t.attach u v a = .ok t' ↔ u.index < t.incident.size ∧ v.index < t.incident.size ∧
      t' = ⟨(t.incident.modify u.index (· ++ [a])).modify v.index (· ++ [a]), t.count + 1⟩ := by
  simp only [attach, Checked.bind_eq_ok_iff, Checked.modify_eq_ok_iff, Checked.pure_eq_ok_iff]
  constructor
  · rintro ⟨_, ⟨hu, rfl⟩, _, ⟨hv, rfl⟩, rfl⟩; exact ⟨hu, by simpa using hv, rfl⟩
  · rintro ⟨hu, hv, rfl⟩; exact ⟨_, ⟨hu, rfl⟩, _, ⟨by simpa using hv, rfl⟩, rfl⟩

theorem detach_eq_ok_iff {u v : VertexId} :
    t.detach u v a = .ok t' ↔ u.index < t.incident.size ∧ v.index < t.incident.size ∧
      t' = ⟨(t.incident.modify u.index (·.filter (· ≠ a))).modify v.index (·.filter (· ≠ a)), t.count - 1⟩ := by
  simp only [detach, Checked.bind_eq_ok_iff, Checked.modify_eq_ok_iff, Checked.pure_eq_ok_iff]
  constructor
  · rintro ⟨_, ⟨hu, rfl⟩, _, ⟨hv, rfl⟩, rfl⟩; exact ⟨hu, by simpa using hv, rfl⟩
  · rintro ⟨hu, hv, rfl⟩; exact ⟨_, ⟨hu, rfl⟩, _, ⟨by simpa using hv, rfl⟩, rfl⟩

theorem touches_iff {u : Nat} : (x.src.index = u ∨ x.snk.index = u) ↔ (x.src = ⟨u⟩ ∨ x.snk = ⟨u⟩) := by
  cases hs : x.src; cases hk : x.snk; simp

theorem Holds.attach (ht : t.Holds n l) (e : t.attach x.src x.snk x.id = .ok t') : t'.Holds n (l ++ [x]) := by
  obtain ⟨-, -, rfl⟩ := attach_eq_ok_iff.1 e
  refine ⟨by simp [ht.size], by simp [ht.count], fun {u as b} h => ?_⟩
  simp only [Array.getElem?_modify] at h
  cases hbs : t.incident[u]? with
  | none => simp [hbs] at h
  | some bs =>
    have hadd : b ∈ as ↔ b ∈ bs ∨ b = x.id ∧ (x.src = ⟨u⟩ ∨ x.snk = ⟨u⟩) := by
      rw [hbs] at h
      by_cases hs : x.src.index = u <;> by_cases hk : x.snk.index = u <;> simp [hs, hk] at h <;> subst h <;>
        simp [← touches_iff, hs, hk]
    simp only [hadd, ht.mem_iff hbs, List.mem_append, List.mem_singleton]
    constructor
    · rintro (⟨y, hy, hyb, hyu⟩ | ⟨rfl, hu⟩)
      · exact ⟨y, .inl hy, hyb, hyu⟩
      · exact ⟨x, .inr rfl, rfl, hu⟩
    · rintro ⟨y, hy | rfl, hyb, hyu⟩
      · exact .inl ⟨y, hy, hyb, hyu⟩
      · exact .inr ⟨hyb.symm, hyu⟩

theorem Lists.attach (ht : t.Lists n l) (e : t.attach x.src x.snk x.id = .ok t') (hl : x.src ≠ x.snk)
    (hn : ∀ y ∈ l, y.id ≠ x.id) : t'.Lists n (l ++ [x]) := by
  have hholds := ht.holds.attach e
  obtain ⟨-, -, rfl⟩ := attach_eq_ok_iff.1 e
  refine ⟨hholds.size, hholds.count, fun {u as} h => ?_, hholds.mem_iff⟩
  rw [getElem?_modify_modify _ _ _ _ _ fun h => hl (VertexId.ext h)] at h
  split at h
  · obtain ⟨as, has, rfl⟩ := Option.map_eq_some_iff.1 h
    refine List.nodup_append.2 ⟨ht.nodup has, by simp, fun b hb c hc hbc => ?_⟩
    obtain ⟨y, hy, hyb, -⟩ := (ht.mem_iff has).1 hb
    exact hn y hy (hyb.trans (hbc.trans (by simpa using hc)))
  · exact ht.nodup h

theorem Lists.detach (ht : t.Lists n (l ++ [x])) (e : t.detach x.src x.snk x.id = .ok t') (hl : x.src ≠ x.snk)
    (hn : ∀ y ∈ l, y.id ≠ x.id) : t'.Lists n l := by
  obtain ⟨-, -, rfl⟩ := detach_eq_ok_iff.1 e
  have hne : x.src.index ≠ x.snk.index := fun h => hl (VertexId.ext h)
  have hother : ∀ {u : Nat} {b : ArcId}, (∃ y ∈ l, y.id = b ∧ (y.src = ⟨u⟩ ∨ y.snk = ⟨u⟩)) ↔
      (∃ y ∈ l ++ [x], y.id = b ∧ (y.src = ⟨u⟩ ∨ y.snk = ⟨u⟩)) ∧ (b = x.id → ¬ (x.src = ⟨u⟩ ∨ x.snk = ⟨u⟩)) := by
    intro u b
    constructor
    · rintro ⟨y, hy, hyb, hyu⟩
      exact ⟨⟨y, by simp [hy], hyb, hyu⟩, fun hb => absurd (hyb.trans hb) (hn y hy)⟩
    · rintro ⟨⟨y, hy, hyb, hyu⟩, hb⟩
      rcases List.mem_append.1 hy with hy | hy
      · exact ⟨y, hy, hyb, hyu⟩
      · rw [List.mem_singleton] at hy
        subst hy
        exact absurd hyu (hb hyb.symm)
  refine ⟨by simp [ht.size], by simp [ht.count], fun {u as} h => ?_, fun {u as b} h => ?_⟩
  all_goals
    rw [getElem?_modify_modify _ _ _ _ _ hne] at h
    simp only [touches_iff] at h
    by_cases hu : x.src = ⟨u⟩ ∨ x.snk = ⟨u⟩
  · rw [if_pos hu] at h
    obtain ⟨as, has, rfl⟩ := Option.map_eq_some_iff.1 h
    exact (ht.nodup has).filter _
  · rw [if_neg hu] at h
    exact ht.nodup h
  · rw [if_pos hu] at h
    obtain ⟨as, has, rfl⟩ := Option.map_eq_some_iff.1 h
    rw [hother, ← ht.mem_iff has, List.mem_filter]
    simp [hu]
  · rw [if_neg hu] at h
    rw [hother, ← ht.mem_iff h]
    simp [hu]

/-! ## The tree arcs of a network -/

/-- The tree arcs of the network are held. -/
def HoldsTree (t : Incidence) (g : Network F) : Prop :=
  t.Holds g.numVertices g.treeArcs

/-- The tree arcs of the network are listed. -/
def ListsTree (t : Incidence) (g : Network F) : Prop :=
  t.Lists g.numVertices g.treeArcs

theorem ListsTree.holds (ht : t.ListsTree g) : t.HoldsTree g :=
  Lists.holds ht

theorem holdsTree_ofNetwork (e : ofNetwork g = .ok t) : t.HoldsTree g :=
  Checked.foldlM_induction (fun done t => t.Holds g.numVertices done) e (lists_empty _).holds
    fun _ _ _ _ _ ht he => ht.attach he

theorem listsTree_ofNetwork (hg : g.Proper) (e : ofNetwork g = .ok t) : t.ListsTree g := by
  refine Checked.foldlM_induction (fun done t => t.Lists g.numVertices done) e (lists_empty _) ?_
  rintro done x t t' ⟨rest, hl⟩ ht he
  have hx : x ∈ g.treeArcs := by rw [hl]; simp
  obtain ⟨i, hi⟩ := Network.mem_arcs_iff.1 (Network.mem_treeArcs_iff.1 hx).1
  refine ht.attach he (hg.loopless hi) fun y hy hid => ?_
  have hnd := hg.nodup_treeArcs
  rw [hl, List.map_append, List.nodup_append] at hnd
  exact hnd.2.2 y.id (List.mem_map_of_mem hy) x.id (by simp) hid

theorem insert_eq_ok_iff : t.insert g a = .ok (t', h) ↔
    ∃ x, g.arcs[a.index]? = some x ∧ x.inTree = false ∧ t.attach x.src x.snk a = .ok t' ∧
      g.modifyArc a ({ · with inTree := true }) = .ok h := by
  simp only [insert, Checked.bind_eq_ok_iff, Checked.pure_eq_ok_iff, Network.arc_eq_ok_iff, Prod.mk.injEq]
  constructor
  · rintro ⟨x, hx, ⟨⟩, ht, t'', ha, h', hm, rfl, rfl⟩; exact ⟨x, hx, Checked.require_eq_ok_iff.1 ht, ha, hm⟩
  · rintro ⟨x, hx, ht, ha, hm⟩; exact ⟨x, hx, (), Checked.require_eq_ok_iff.2 ht, t', ha, h, hm, rfl, rfl⟩

theorem remove_eq_ok_iff : t.remove g a = .ok (t', h) ↔
    ∃ x, g.arcs[a.index]? = some x ∧ x.inTree = true ∧ t.detach x.src x.snk a = .ok t' ∧
      g.modifyArc a ({ · with inTree := false }) = .ok h := by
  simp only [remove, Checked.bind_eq_ok_iff, Checked.pure_eq_ok_iff, Network.arc_eq_ok_iff, Prod.mk.injEq]
  constructor
  · rintro ⟨x, hx, ⟨⟩, ht, t'', ha, h', hm, rfl, rfl⟩; exact ⟨x, hx, Checked.require_eq_ok_iff.1 ht, ha, hm⟩
  · rintro ⟨x, hx, ht, ha, hm⟩; exact ⟨x, hx, (), Checked.require_eq_ok_iff.2 ht, t', ha, h, hm, rfl, rfl⟩

theorem ListsTree.insert (ht : t.ListsTree g) (hg : g.WellFormed) (e : t.insert g a = .ok (t', h)) :
    t'.ListsTree h := by
  obtain ⟨x, hx, hf, ha, hm⟩ := insert_eq_ok_iff.1 e
  have hid : x.id = a := hg.arc_id hx
  unfold ListsTree at *
  rw [Network.numVertices, Network.vertices_modifyArc hm]
  have hl : x.src ≠ x.snk := hg.loopless hx
  refine Lists.perm (Lists.attach (x := { x with inTree := true }) ht (by simpa [hid] using ha) hl ?_)
    (Network.treeArcs_enter hm hx hf rfl).symm
  rintro y hy hyx
  rw [Network.mem_treeArcs_iff] at hy
  rw [hg.eq_of_id_eq hy.1 (Network.mem_arcs_iff.2 ⟨_, hx⟩) hyx, hf] at hy
  exact absurd hy.2 (by simp)

theorem ListsTree.remove (ht : t.ListsTree g) (hg : g.WellFormed) (e : t.remove g a = .ok (t', h)) :
    t'.ListsTree h := by
  obtain ⟨x, hx, hf, ha, hm⟩ := remove_eq_ok_iff.1 e
  have hid : x.id = a := hg.arc_id hx
  have hp := Network.treeArcs_leave hm hx hf
  unfold ListsTree at *
  rw [Network.numVertices, Network.vertices_modifyArc hm]
  refine Lists.detach (ht.perm hp) (by rw [hid]; exact ha) (hg.loopless hx) fun y hy hyx => ?_
  have hnd := (hp.map Arc.id).nodup_iff.1 hg.nodup_treeArcs
  rw [List.map_append, List.nodup_append] at hnd
  exact hnd.2.2 y.id (List.mem_map_of_mem hy) x.id (by simp) hyx

/-- An arc outside the tree can enter it. -/
theorem ListsTree.exists_insert (ht : t.ListsTree g) (hg : g.Numbered) (hx : g.arcs[a.index]? = some x)
    (hf : x.inTree = false) : ∃ t' h, t.insert g a = .ok (t', h) := by
  have hsrc := hg.src_lt hx
  have hsnk := hg.snk_lt hx
  rw [← ht.size] at hsrc hsnk
  exact ⟨_, _, insert_eq_ok_iff.2 ⟨x, hx, hf, attach_eq_ok_iff.2 ⟨hsrc, hsnk, rfl⟩,
    Network.modifyArc_eq_ok_iff.2 ⟨(Array.getElem?_eq_some_iff.1 hx).1, rfl⟩⟩⟩

/-- A tree arc can leave the tree. -/
theorem ListsTree.exists_remove (ht : t.ListsTree g) (hg : g.Numbered) (hx : g.arcs[a.index]? = some x)
    (hf : x.inTree = true) : ∃ t' h, t.remove g a = .ok (t', h) := by
  have hsrc := hg.src_lt hx
  have hsnk := hg.snk_lt hx
  rw [← ht.size] at hsrc hsnk
  exact ⟨_, _, remove_eq_ok_iff.2 ⟨x, hx, hf, detach_eq_ok_iff.2 ⟨hsrc, hsnk, rfl⟩,
    Network.modifyArc_eq_ok_iff.2 ⟨(Array.getElem?_eq_some_iff.1 hx).1, rfl⟩⟩⟩

/-- The tree arcs of a network can be listed. -/
theorem exists_ofNetwork (hg : g.Numbered) : ∃ t, ofNetwork g = .ok t := by
  refine Checked.FaultsOnly.exists_ok (.foldlM_of_invariant (fun t => t.incident.size = g.numVertices) (by simp)
    (fun x hx t ht => ?_) fun x _ t t' ht he => ?_)
  · obtain ⟨i, hi⟩ := Network.mem_arcs_iff.1 (Network.mem_treeArcs_iff.1 hx).1
    exact .of_ok (attach_eq_ok_iff.2 ⟨ht ▸ hg.src_lt hi, ht ▸ hg.snk_lt hi, rfl⟩)
  · obtain ⟨-, -, rfl⟩ := attach_eq_ok_iff.1 he
    simpa using ht

/-- Changes that keep the ends and the tree flags keep the lists right. -/
theorem ListsTree.congr (ht : t.ListsTree g) (hn : h.numVertices = g.numVertices)
    (e : h.arcs.map (fun x => (x.id, x.src, x.snk, x.inTree)) = g.arcs.map fun x => (x.id, x.src, x.snk, x.inTree)) :
    t.ListsTree h := by
  have key : ∀ k : Network F, k.treeArcs.map (fun x => (x.id, x.src, x.snk, x.inTree)) =
      (k.arcs.toList.map fun x => (x.id, x.src, x.snk, x.inTree)).filter (·.2.2.2) := by
    intro k
    rw [Network.treeArcs, List.filter_map]
    rfl
  have e : h.treeArcs.map (fun x => (x.id, x.src, x.snk, x.inTree)) =
      g.treeArcs.map fun x => (x.id, x.src, x.snk, x.inTree) := by
    rw [key, key, ← Array.toList_map, ← Array.toList_map, e]
  have hmem : ∀ (k : Network F) (b : ArcId) (u : VertexId),
      (∃ x ∈ k.treeArcs, x.id = b ∧ (x.src = u ∨ x.snk = u)) ↔
        ∃ y ∈ k.treeArcs.map (fun x => (x.id, x.src, x.snk, x.inTree)), y.1 = b ∧ (y.2.1 = u ∨ y.2.2.1 = u) := by
    intro k b u
    simp
  refine ⟨ht.size.trans hn.symm, ?_, ht.nodup, fun hu => ?_⟩
  · have hlen := congrArg List.length e
    simp only [List.length_map] at hlen
    rw [ht.count, hlen]
  · rw [ht.mem_iff hu, hmem, hmem, e]

end Transportation.Incidence
