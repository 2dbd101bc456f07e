import Transportation.Proofs.Tree.Incidence
/-!
# The cycle found is a cycle

The walk that looks for the cycle never turns back along the arc it came by and stops at its target. If the tree
without the entering arc is a forest, such a walk uses no arc twice, and not the entering arc, so that both close a
cycle (`cycle_of_findCycle?`).
-/

namespace Transportation.Incidence

variable {F : Type} {t : Incidence} {g : Network F} {core : Array Bool} {target u v : VertexId} {last a : ArcId}
  {x : Arc F} {as : List ArcId} {c : List Step} {n : Nat}

/-- An arc held at `u` leads from `u` to its other end. -/
theorem HoldsTree.leads (ht : t.HoldsTree g) (hg : g.Numbered) (has : t.arcsAt u = .ok as) (ha : a ∈ as)
    (hx : g.arc a = .ok x) (hv : x.other u = .ok v) : g.tree.Leads ⟨a, x.src = u⟩ u v := by
  rw [arcsAt, Checked.get_eq_ok_iff] at has
  obtain ⟨y, hy, rfl, -⟩ := (ht.mem_iff has).1 ha
  rw [Network.arc_eq_ok_iff, hg.getElem?_id (Network.mem_treeArcs_iff.1 hy).1, Option.some.injEq] at hx
  subst hx
  refine hg.leads_tree.2 ⟨y, hy, rfl, ?_⟩
  rcases Arc.other_eq_ok_iff.1 hv with ⟨rfl, rfl⟩ | ⟨hne, rfl, rfl⟩
  · simp
  · simp [Ne.symm hne]

/-- An arc held at `u` has another end. -/
theorem HoldsTree.exists_other (ht : t.HoldsTree g) (hg : g.Numbered) (has : t.arcsAt u = .ok as) (ha : a ∈ as) :
    ∃ x v, g.arc a = .ok x ∧ x.other u = .ok v ∧ v.index < g.numVertices ∧ g.tree.Leads ⟨a, x.src = u⟩ u v := by
  have hlist := Checked.get_eq_ok_iff.1 has
  obtain ⟨x, hx, rfl, hu⟩ := (ht.mem_iff hlist).1 ha
  have hx := Network.arc_eq_ok_iff.2 (hg.getElem?_id (Network.mem_treeArcs_iff.1 hx).1)
  have hv : ∃ v, x.other u = .ok v := by
    by_cases hsrc : u = x.src
    · exact ⟨x.snk, Arc.other_eq_ok_iff.2 (.inl ⟨hsrc, rfl⟩)⟩
    · exact ⟨x.src, Arc.other_eq_ok_iff.2 (.inr ⟨hsrc, (hu.resolve_left (Ne.symm hsrc)).symm, rfl⟩)⟩
  obtain ⟨v, hv⟩ := hv
  have hl := ht.leads hg has ha hx hv
  exact ⟨x, v, hx, hv, hg.within_tree hl.reverse, hl⟩

theorem HoldsTree.exists_arcsAt (ht : t.HoldsTree g) (hu : u.index < g.numVertices) : ∃ as, t.arcsAt u = .ok as := by
  rw [← ht.size] at hu
  exact ⟨_, Checked.get_eq_ok_iff.2 (Array.getElem?_eq_getElem hu)⟩

theorem mem_of_next? (h : next? g core u last as = .ok (some a)) : a ∈ as ∧ a ≠ last := by
  induction as with
  | nil => cases h
  | cons b as ih =>
    rw [next?] at h
    split at h
    · obtain ⟨hmem, hne⟩ := ih h
      exact ⟨List.mem_cons_of_mem _ hmem, hne⟩
    · next hb =>
      simp only [Checked.bind_eq_ok_iff] at h
      obtain ⟨x, -, v, -, alive, -, h⟩ := h
      cases alive with
      | true => cases h; exact ⟨List.mem_cons_self, hb⟩
      | false =>
        obtain ⟨hmem, hne⟩ := ih h
        exact ⟨List.mem_cons_of_mem _ hmem, hne⟩

/-- A walk that is found ends at its target at once or takes a step. -/
theorem walk?_eq_ok (h : t.walk? g core target n u last = .ok (some c)) :
    (u = target ∧ c = []) ∨ ∃ m as a x v d, n = m + 1 ∧ u ≠ target ∧ t.arcsAt u = .ok as ∧
      next? g core u last as = .ok (some a) ∧ g.arc a = .ok x ∧ x.other u = .ok v ∧
      t.walk? g core target m v a = .ok (some d) ∧ c = ⟨a, x.src = u⟩ :: d := by
  rw [walk?.eq_def] at h
  by_cases hu : u = target
  · simp only [hu, if_true] at h
    cases h
    exact .inl ⟨hu, rfl⟩
  · simp only [hu, if_false] at h
    simp only [Checked.bind_eq_ok_iff] at h
    obtain ⟨as, has, o, ho, h⟩ := h
    cases o with
    | none => cases h
    | some a =>
      simp only [Checked.bind_eq_ok_iff] at h
      obtain ⟨x, hx, v, hv, h⟩ := h
      cases n with
      | zero => cases h
      | succ m =>
        simp only [Checked.bind_eq_ok_iff, Checked.pure_eq_ok_iff, Option.map_eq_some_iff] at h
        obtain ⟨_, hw, d, rfl, rfl⟩ := h
        exact .inr ⟨m, as, a, x, v, d, rfl, hu, has, ho, hx, hv, hw, rfl⟩

theorem walk_of_walk? (ht : t.ListsTree g) (hg : g.Numbered)
    (h : t.walk? g core target n u last = .ok (some c)) :
    g.tree.Walk u c target ∧ (last :: c.map Step.arc).IsChain (· ≠ ·) ∧
      ∀ s ∈ c, ∀ x y, g.tree.Leads s x y → x ≠ target := by
  induction n generalizing u last c with
  | zero =>
    rcases walk?_eq_ok h with ⟨hu, rfl⟩ | ⟨m, _, _, _, _, _, hm, _⟩
    · exact ⟨hu, by simp, by simp⟩
    · cases hm
  | succ n ih =>
    rcases walk?_eq_ok h with ⟨hu, rfl⟩ | ⟨m, as, a, x, v, d, hm, hu, has, ho, hx, hv, hw, rfl⟩
    · exact ⟨hu, by simp, by simp⟩
    · cases hm
      obtain ⟨hmem, hne⟩ := mem_of_next? ho
      obtain ⟨hwalk, hchain, hstart⟩ := ih hw
      have hl := ht.holds.leads hg has hmem hx hv
      refine ⟨⟨v, hl, hwalk⟩, by simpa [Ne.symm hne] using hchain, ?_⟩
      intro s hs y z hyz
      rcases List.mem_cons.1 hs with rfl | hs
      · rwa [(hl.unique hyz).1]
      · exact hstart s hs y z hyz

/-- A cycle is found between ends in the core. -/
theorem findCycle?_eq_some (hx : g.arcs[a.index]? = some x) (h : t.findCycle? g a = .ok (some c)) :
    ∃ core d, t.core g = .ok core ∧ core[x.src.index]? = some true ∧ core[x.snk.index]? = some true ∧
      t.walk? g core x.src (g.numVertices - 1) x.snk a = .ok (some d) ∧ c = ⟨a, true⟩ :: d := by
  simp only [findCycle?, Checked.bind_eq_ok_iff, Checked.get_eq_ok_iff] at h
  obtain ⟨core, hcore, y, hy, alive, hsrc, h⟩ := h
  rw [Network.arc_eq_ok_iff, hx, Option.some.injEq] at hy
  subst hy
  cases alive with
  | false => cases h
  | true =>
    simp only [if_true, Checked.bind_eq_ok_iff, Checked.get_eq_ok_iff] at h
    obtain ⟨alive, hsnk, h⟩ := h
    cases alive with
    | false => cases h
    | true =>
      simp only [if_true, Checked.bind_eq_ok_iff, Checked.pure_eq_ok_iff, Option.map_eq_some_iff] at h
      obtain ⟨_, hw, d, rfl, rfl⟩ := h
      exact ⟨core, d, hcore, hsrc, hsnk, hw, rfl⟩

/-- The cycle starts with the entering arc, leads back to where it starts, and uses no arc twice. -/
theorem cycle_of_findCycle? (ht : t.ListsTree g) (hg : g.Numbered) (hx : g.arcs[a.index]? = some x)
    (hxt : x.inTree = true) (hf : (g.tree.without a).Forest) (h : t.findCycle? g a = .ok (some c)) :
    (∃ d, c = ⟨a, true⟩ :: d) ∧ g.tree.Walk x.src c x.src ∧ (c.map Step.arc).Nodup := by
  obtain ⟨core, d, -, -, -, hw, rfl⟩ := findCycle?_eq_some hx h
  obtain ⟨hwalk, hchain, hstart⟩ := walk_of_walk? ht hg hw
  have hl : g.tree.Leads ⟨a, true⟩ x.src x.snk := hg.leads_of_tree hx hxt
  have hnd : ArcSet.NonBacktracking d := by
    rw [List.isChain_cons] at hchain
    exact hchain.2
  -- The walk cannot use the entering arc again: it would have returned to the sink of that arc before.
  have ha : a ∉ d.map Step.arc := by
    intro ha
    obtain ⟨p, s, q, y, z, rfl, rfl, hp, hwp, hs, -⟩ := hwalk.split ha
    rcases hl.same_arc hs rfl with ⟨rfl, -⟩ | ⟨rfl, -⟩
    · exact hstart s (by simp) _ _ hs rfl
    · have hpne : p ≠ [] := by
        rintro rfl
        simp at hchain
      exact hf.ne_of_walk (ArcSet.walk_without_iff.2 ⟨hwp, hp⟩) hnd.left hpne rfl
  have hdn := hf.nodup (ArcSet.walk_without_iff.2 ⟨hwalk, ha⟩) hnd
  exact ⟨⟨d, rfl⟩, ⟨x.snk, hl, hwalk⟩, List.nodup_cons.2 ⟨ha, hdn⟩⟩

end Transportation.Incidence
