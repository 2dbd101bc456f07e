import Transportation.Proofs.Tree.Core
/-!
# Walking the core

A walk in the core need not end: whichever arc it has come by, another one leads on (`exists_next?_some`). A `Trail`
is such a walk that leaves out an arc `a`. If the tree without `a` is a forest, a trail visits no vertex twice, so it
comes to where it would take `a`. Hence a cycle is found if the tree without the entering arc connects the ends of
that arc and is a forest (`exists_findCycle?_some`), and every arc between two vertices of the core lies on a cycle
(`connected_without_of_core`).
-/

namespace Transportation.Incidence

variable {F : Type} {g : Network F} {t : Incidence} {u v y z : VertexId} {a first last last' : ArcId} {x : Arc F}
  {as : List ArcId} {core : Array Bool} {p q : List Step} {s : Step} {n : Nat}

/-! ## Going on -/

/-- The arc chosen leads to a vertex of the core. -/
theorem next?_eq_some (h : next? g core u last as = .ok (some a)) :
    ∃ x v, g.arc a = .ok x ∧ x.other u = .ok v ∧ core[v.index]? = some true := by
  induction as with
  | nil => cases h
  | cons b as ih =>
    rw [next?] at h
    split at h
    · exact ih h
    · simp only [Checked.bind_eq_ok_iff, Checked.get_eq_ok_iff] at h
      obtain ⟨x, hx, v, hv, alive, halive, h⟩ := h
      cases alive with
      | true => cases h; exact ⟨x, v, hx, hv, halive⟩
      | false => exact ih h

theorem not_live_of_next? (h : next? g core u last as = .ok none) (ha : a ∈ as) (hne : a ≠ last) :
    Pruning.live g core [] u a = false := by
  induction as with
  | nil => cases ha
  | cons b as ih =>
    rw [next?] at h
    split at h
    · next hb => exact ih h ((List.mem_cons.1 ha).resolve_left fun h => hne (h.trans hb))
    · simp only [Checked.bind_eq_ok_iff, Checked.get_eq_ok_iff] at h
      obtain ⟨x, hx, v, hv, alive, halive, h⟩ := h
      cases alive with
      | true => cases h
      | false =>
        rcases List.mem_cons.1 ha with rfl | ha
        · simp [Pruning.live, Network.across_eq hx hv, Array.getD_eq_getD_getElem?, halive]
        · exact ih h ha

/-- At a vertex of the core there is a way to go on that does not turn back. -/
theorem exists_next?_some (ht : t.ListsTree g) (hg : g.Proper) (hcore : t.core g = .ok core)
    (hu : core[u.index]? = some true) (has : t.arcsAt u = .ok as) (last : ArcId) :
    ∃ a, next? g core u last as = .ok (some a) := by
  obtain ⟨core', hcore', hsize⟩ := exists_core ht hg
  rw [hcore, Except.ok.injEq] at hcore'
  subst hcore'
  obtain ⟨o, ho⟩ := exists_next? ht hg.toNumbered hsize last has fun _ => id
  cases o with
  | some a => exact ⟨a, ho⟩
  | none =>
    have htwo := two_le_of_core ht hg hcore hu has
    have hone := List.nodup_iff_count_le_one.1 (ht.nodup (Checked.get_eq_ok_iff.1 has)) last
    have hle : as.countP (Pruning.live g core [] u) ≤ as.count last := by
      refine List.countP_mono_left fun a ha hlive => ?_
      by_contra hne
      rw [not_live_of_next? ho ha (by simpa using hne)] at hlive
      cases hlive
    omega

/-! ## Trails -/

/-- The steps `p` lead from `v`, reached by `first`, to the vertex `u` of the core, reached by `last`. They leave out
the arc `a` and never turn back. -/
structure Trail (g : Network F) (core : Array Bool) (a : ArcId) (v : VertexId) (first : ArcId) (p : List Step)
    (u : VertexId) (last : ArcId) : Prop where
  walk : (g.tree.without a).Walk v p u
  chain : (first :: p.map Step.arc).IsChain (· ≠ ·)
  last : (first :: p.map Step.arc).getLast? = some last
  core : core[u.index]? = some true

theorem trail_nil (hv : core[v.index]? = some true) : Trail g core a v first [] v first :=
  ⟨rfl, by simp, by simp, hv⟩

theorem Trail.nonBacktracking (hp : Trail g core a v first p u last) : ArcSet.NonBacktracking p :=
  (List.isChain_cons.1 hp.chain).2

theorem Trail.ne_nil (hp : Trail g core a v first p u last) (h : first ≠ last) : p ≠ [] := by
  rintro rfl
  have hlast := hp.last
  simp only [List.map_nil, List.getLast?_singleton, Option.some.injEq] at hlast
  exact h hlast

theorem Trail.connected_without (hp : Trail g core a v first p u last) (hn : first ∉ p.map Step.arc) :
    (g.tree.without first).Connected v u :=
  ⟨p, ArcSet.walk_without_iff.2 ⟨(ArcSet.walk_without_iff.1 hp.walk).1, hn⟩⟩

theorem Trail.lt (hp : Trail g core a v first p u last) (ht : t.ListsTree g) (hg : g.Proper)
    (hcore : t.core g = .ok core) : u.index < g.numVertices := by
  obtain ⟨core', hcore', hsize⟩ := exists_core ht hg
  rw [hcore, Except.ok.injEq] at hcore'
  rw [← hsize, ← hcore']
  exact (Array.getElem?_eq_some_iff.1 hp.core).1

/-- If the tree without `a` is a forest, a trail has fewer steps than there are vertices. -/
theorem Trail.length_lt (hp : Trail g core a v first p u last) (ht : t.ListsTree g) (hg : g.Proper)
    (hcore : t.core g = .ok core) (hf : (g.tree.without a).Forest) : p.length < g.numVertices :=
  hf.length_lt_of_walk (fun hl => hg.within_tree (ArcSet.leads_without_iff.1 hl).1) hp.walk hp.nonBacktracking
    (hp.lt ht hg hcore)

/-- A trail goes on unless the next arc is `a`. -/
theorem Trail.step (hp : Trail g core a v first p u last) (ht : t.ListsTree g) (hg : g.Proper)
    (hcore : t.core g = .ok core) : ∃ as b y w, t.arcsAt u = .ok as ∧ next? g core u last as = .ok (some b) ∧
      g.arc b = .ok y ∧ y.other u = .ok w ∧ b ≠ last ∧ g.tree.Leads ⟨b, y.src = u⟩ u w ∧
      (b ≠ a → Trail g core a v first (p ++ [⟨b, y.src = u⟩]) w b) := by
  obtain ⟨as, has⟩ := ht.holds.exists_arcsAt (hp.lt ht hg hcore)
  obtain ⟨b, hb⟩ := exists_next?_some ht hg hcore hp.core has last
  obtain ⟨hmem, hne⟩ := mem_of_next? hb
  obtain ⟨y, w, hy, hw, halive⟩ := next?_eq_some hb
  have hl := ht.holds.leads hg.toNumbered has hmem hy hw
  refine ⟨as, b, y, w, has, hb, hy, hw, hne, hl, fun hba => ⟨?_, ?_, ?_, halive⟩⟩
  · exact ArcSet.walk_append.2 ⟨u, hp.walk, ArcSet.walk_singleton.2 (ArcSet.leads_without_iff.2 ⟨hl, hba⟩)⟩
  · rw [List.map_append, ← List.cons_append]
    refine List.isChain_append.2 ⟨hp.chain, by simp, fun c hc d hd => ?_⟩
    rw [hp.last] at hc
    obtain rfl : last = c := by simpa using hc
    obtain rfl : b = d := by simpa using hd
    exact hne.symm
  · rw [List.map_append, ← List.cons_append]
    exact List.getLast?_concat

/-! ## The walk around the cycle -/

/-- The walk around the cycle comes to its end. Before it is back at the source of `a` it cannot take `a`, which is
at its vertex only if that is the sink of `a`, and it has not come back there. -/
theorem Trail.exists_walk? (hp : Trail g core a x.snk a p u last) (ht : t.ListsTree g) (hg : g.Proper)
    (hcore : t.core g = .ok core) (hx : g.arcs[a.index]? = some x) (hf : (g.tree.without a).Forest)
    (hn : p.length + n + 1 = g.numVertices) : ∃ c, t.walk? g core x.src n u last = .ok (some c) := by
  induction n generalizing u last p with
  | zero => ?_
  | succ n ih => ?_
  all_goals
    rw [walk?.eq_def]
    by_cases hu : u = x.src
    · simp only [hu, if_true]
      exact ⟨_, rfl⟩
    obtain ⟨as, b, y, w, has, hb, hy, hw, hne, -, hstep⟩ := hp.step ht hg hcore
    have hba : b ≠ a := by
      rintro rfl
      rw [Network.arc_eq_ok_iff, hx, Option.some.injEq] at hy
      subst hy
      have hsnk : u = x.snk := (Arc.other_eq_ok_iff.1 hw).elim (fun h => absurd h.1 hu) fun h => h.2.1
      exact hf.ne_of_walk hp.walk hp.nonBacktracking (hp.ne_nil hne) hsnk.symm
    have hp' := hstep hba
    simp only [hu, if_false, has, hb, hy, hw, Checked.ok_bind]
  · have hlen := hp'.length_lt ht hg hcore hf
    rw [List.length_append, List.length_singleton] at hlen
    omega
  · obtain ⟨c, hc⟩ := ih hp' (by simp; omega)
    rw [hc]
    exact ⟨_, rfl⟩

/-- If the tree without the entering arc connects the ends of that arc and is a forest, a cycle is found. -/
theorem exists_findCycle?_some (ht : t.ListsTree g) (hg : g.Proper) (hx : g.arcs[a.index]? = some x)
    (hxt : x.inTree = true) (hs : (g.tree.without a).Connected x.snk x.src) (hf : (g.tree.without a).Forest) :
    ∃ c, t.findCycle? g a = .ok (some c) := by
  obtain ⟨d, hd, hback⟩ := hs.exists_nonBacktracking
  obtain ⟨hw, ha⟩ := ArcSet.walk_without_iff.1 hd
  have hl : g.tree.Leads ⟨a, true⟩ x.src x.snk := hg.leads_of_tree hx hxt
  have hcycle : g.tree.Walk x.src (⟨a, true⟩ :: d) x.src := ⟨x.snk, hl, hw⟩
  have hthick := thick_starts ht hg hcycle (List.nodup_cons.2 ⟨ha, hf.nodup hd hback⟩)
  obtain ⟨core, hcore, -⟩ := exists_core ht hg
  have hmem : ∀ {v}, v ∈ g.tree.starts (⟨a, true⟩ :: d) → core[v.index]? = some true := by
    refine core_of_thick hthick (fun hv => ?_) ht hg hcore
    obtain ⟨s, -, w, hs⟩ := ArcSet.mem_starts_iff.1 hv
    exact hg.within_tree hs
  have hsrc : core[x.src.index]? = some true := hmem (ArcSet.mem_starts_iff.2 ⟨_, List.mem_cons_self, _, hl⟩)
  have hsnk : core[x.snk.index]? = some true :=
    hmem (ArcSet.mem_starts_iff.2 (hcycle.exists_next List.mem_cons_self hl))
  have hpos : 0 < g.numVertices := Nat.zero_lt_of_lt (hg.src_lt hx)
  have hstart : Trail g core a x.snk a [] x.snk a := trail_nil hsnk
  obtain ⟨c, hc⟩ := hstart.exists_walk? (n := g.numVertices - 1) ht hg hcore hx hf (by simp; omega)
  simp only [findCycle?, hcore, Network.arc_eq_ok_iff.2 hx, Checked.get_eq_ok_iff.2 hsrc,
    Checked.get_eq_ok_iff.2 hsnk, Checked.ok_bind, if_true, hc]
  exact ⟨_, rfl⟩

/-! ## Arcs in the core -/

/-- A trail comes to where it would take `a`. -/
theorem Trail.exists_end (hp : Trail g core a v first p u last) (ht : t.ListsTree g) (hg : g.Proper)
    (hcore : t.core g = .ok core) (hf : (g.tree.without a).Forest) (hn : p.length + n + 1 = g.numVertices) :
    ∃ q y z last' forward, Trail g core a v first q y last' ∧ a ≠ last' ∧ g.tree.Leads ⟨a, forward⟩ y z := by
  induction n generalizing u last p with
  | zero => ?_
  | succ n ih => ?_
  all_goals
    obtain ⟨as, b, y, w, -, -, -, -, hne, hl, hstep⟩ := hp.step ht hg hcore
    by_cases hba : b = a
    · subst hba
      exact ⟨p, u, w, last, _, hp, hne, hl⟩
  · have hlen := (hstep hba).length_lt ht hg hcore hf
    rw [List.length_append, List.length_singleton] at hlen
    omega
  · exact ih (hstep hba) (by simp; omega)

/-- Two trails that leave an arc at its two ends make with it a walk that does not turn back. -/
theorem Trail.join (hp : Trail g core a u s.arc p y last) (hq : Trail g core a v s.arc q z last') (hl : g.tree.Leads s u v)
    (hs : s.arc ≠ a) : (g.tree.without a).Walk y ((p.map Step.reverse).reverse ++ s :: q) z ∧
      ArcSet.NonBacktracking ((p.map Step.reverse).reverse ++ s :: q) := by
  constructor
  · exact ArcSet.walk_append.2 ⟨u, hp.walk.reverse, v, ArcSet.leads_without_iff.2 ⟨hl, hs⟩, hq.walk⟩
  · have h : (s.arc :: p.map Step.arc).reverse.IsChain (· ≠ ·) :=
      List.isChain_reverse.2 (hp.chain.imp fun _ _ => Ne.symm)
    rw [List.reverse_cons] at h
    simpa [ArcSet.NonBacktracking, Function.comp_def, Step.reverse] using h.append_overlap hq.chain (by simp)

/-- In a forest the two trails do not come back to the arc. -/
theorem Trail.not_mem (hp : Trail g core a u s.arc p y last) (hq : Trail g core a v s.arc q z last')
    (hl : g.tree.Leads s u v) (hs : s.arc ≠ a) (hf : (g.tree.without a).Forest) :
    s.arc ∉ p.map Step.arc ∧ s.arc ∉ q.map Step.arc := by
  obtain ⟨hwalk, hback⟩ := hp.join hq hl hs
  have h := hf.nodup hwalk hback
  simp only [List.map_append, List.map_reverse, List.map_map, List.map_cons] at h
  obtain ⟨-, h, hdisjoint⟩ := List.nodup_append.1 h
  refine ⟨fun hmem => hdisjoint s.arc ?_ s.arc List.mem_cons_self rfl, (List.nodup_cons.1 h).1⟩
  simpa [Step.reverse] using hmem

/-- An arc between two vertices of the core lies on a cycle. From both of its ends a trail leads to the arc `a`, which
closes the cycle if it is not the arc itself. -/
theorem connected_without_of_core (ht : t.ListsTree g) (hg : g.Proper) (hcore : t.core g = .ok core)
    (hf : (g.tree.without a).Forest) (hl : g.tree.Leads s u v) (hu : core[u.index]? = some true)
    (hv : core[v.index]? = some true) : (g.tree.without s.arc).Connected u v := by
  have hpos : 0 < g.numVertices := Nat.zero_lt_of_lt (hg.within_tree hl)
  have hstart : ∀ {v : VertexId}, core[v.index]? = some true → Trail g core a v s.arc [] v s.arc := trail_nil
  have hend : ∀ {v : VertexId}, core[v.index]? = some true → _ := fun hv =>
    (hstart hv).exists_end (n := g.numVertices - 1) ht hg hcore hf (by simp; omega)
  obtain ⟨q, z, z', last', forward', hq, hlast, hz⟩ := hend hv
  by_cases hsa : s.arc = a
  · have hqne : q ≠ [] := hq.ne_nil (hsa ▸ hlast)
    rcases hl.same_arc hz hsa with ⟨rfl, -⟩ | ⟨rfl, -⟩
    · exact hsa ▸ ArcSet.Connected.symm ⟨q, hq.walk⟩
    · exact absurd rfl (hf.ne_of_walk hq.walk hq.nonBacktracking hqne)
  · obtain ⟨p, y, y', last, forward, hp, -, hy⟩ := hend hu
    -- The trails end at different vertices, so they end at the two ends of `a`.
    have hne : y ≠ z := by
      obtain ⟨hwalk, hback⟩ := hp.join hq hl hsa
      exact hf.ne_of_walk hwalk hback (by simp)
    obtain rfl : z = y' := by
      rcases hy.same_arc hz rfl with ⟨h, -⟩ | ⟨h, -⟩
      · exact absurd h.symm hne
      · exact h
    obtain ⟨hnp, hnq⟩ := hp.not_mem hq hl hsa hf
    have hyz : (g.tree.without s.arc).Connected y z := (ArcSet.leads_without_iff.2 ⟨hy, Ne.symm hsa⟩).connected
    exact (hp.connected_without hnp).trans (hyz.trans (hq.connected_without hnq).symm)

end Transportation.Incidence
