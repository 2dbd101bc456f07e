import Transportation.Proofs.Tree.Forest
/-!
# Cycles

A cycle leads back to where it starts, uses no arc twice and visits no vertex twice. A loop is a cycle of one arc, two
parallel arcs are a cycle of two. An arc lies on a cycle if and only if its ends stay connected without it
(`Leads.exists_isCycle`, `IsCycle.connected_without`), so a forest is a set of arcs without a cycle
(`forest_iff_acyclic`). A cycle is the only one if and only if the set is a forest without one of its arcs
(`IsCycle.sole_iff`).
-/

namespace Transportation.ArcSet

variable {T : ArcSet} {u v z z' : VertexId} {s : Step} {c d : List Step} {a b : ArcId}

structure IsCycle (T : ArcSet) (z : VertexId) (c : List Step) : Prop where
  walk : T.Walk z c z
  ne_nil : c ≠ []
  nodup_arcs : (c.map Step.arc).Nodup
  nodup_starts : (T.starts c).Nodup

def Acyclic (T : ArcSet) : Prop :=
  ∀ z c, ¬ T.IsCycle z c

/-- No cycle is connected to `u`. -/
def AcyclicFrom (T : ArcSet) (u : VertexId) : Prop :=
  ∀ z c, T.Connected u z → ¬ T.IsCycle z c

/-- There is one cycle. It may be walked either way and from each of its vertices. -/
structure SoleCycle (T : ArcSet) (z : VertexId) (c : List Step) : Prop where
  isCycle : T.IsCycle z c
  perm : ∀ {z' d}, T.IsCycle z' d → (d.map Step.arc).Perm (c.map Step.arc)

theorem isCycle_without_iff : (T.without a).IsCycle z c ↔ T.IsCycle z c ∧ a ∉ c.map Step.arc := by
  constructor
  · intro h
    obtain ⟨hw, ha⟩ := walk_without_iff.1 h.walk
    exact ⟨⟨hw, h.ne_nil, h.nodup_arcs, h.walk.starts_sub (T.without_sub a) ▸ h.nodup_starts⟩, ha⟩
  · rintro ⟨h, ha⟩
    have hw := walk_without_iff.2 ⟨h.walk, ha⟩
    exact ⟨hw, h.ne_nil, h.nodup_arcs, hw.starts_sub (T.without_sub a) ▸ h.nodup_starts⟩

/-! ## Arcs on a cycle -/

/-- A path back from the end of an arc closes a cycle. -/
theorem Leads.isCycle (hs : T.Leads s u v) (hd : (T.without s.arc).Walk v d u)
    (hn : ((T.without s.arc).starts d ++ [u]).Nodup) : T.IsCycle u (s :: d) := by
  obtain ⟨hw, ha⟩ := walk_without_iff.1 hd
  refine ⟨⟨v, hs, hw⟩, by simp, List.nodup_cons.2 ⟨ha, hd.nodup_arcs hn⟩, ?_⟩
  rw [starts_cons hs, hd.starts_sub (T.without_sub _)]
  exact (List.perm_append_singleton _ _).nodup_iff.1 hn

theorem Leads.exists_isCycle (hs : T.Leads s u v) (h : (T.without s.arc).Connected u v) :
    ∃ d, T.IsCycle u (s :: d) := by
  obtain ⟨d, hd, hn⟩ := h.symm.exists_path
  exact ⟨d, hs.isCycle hd hn⟩

theorem AcyclicFrom.not_connected_without (hT : T.AcyclicFrom z) (hz : T.Connected z u) (hs : T.Leads s u v) :
    ¬ (T.without s.arc).Connected u v := by
  intro h
  obtain ⟨d, hd⟩ := hs.exists_isCycle h
  exact hT u _ hz hd

theorem IsCycle.connected_without (hc : T.IsCycle z c) (hs : T.Leads s u v) (ha : s.arc ∈ c.map Step.arc) :
    (T.without s.arc).Connected u v :=
  hs.connected.without_of_cycle hc.walk hc.nodup_arcs ha

theorem forest_iff_acyclic : T.Forest ↔ T.Acyclic := by
  constructor
  · intro hT z c hc
    obtain ⟨s, d, rfl⟩ := List.exists_cons_of_ne_nil hc.ne_nil
    obtain ⟨w, hs, -⟩ := hc.walk
    exact hT hs (hc.connected_without hs (by simp))
  · intro hT s u v hs h
    obtain ⟨d, hd⟩ := hs.exists_isCycle h
    exact hT u _ hd

/-! ## Cycles along the same arcs -/

/-- Every vertex of a cycle is the end of an arc of it, and the other way round. -/
theorem IsCycle.mem_starts_iff (hc : T.IsCycle z c) :
    u ∈ T.starts c ↔ ∃ s v, s.arc ∈ c.map Step.arc ∧ T.Leads s u v := by
  rw [ArcSet.mem_starts_iff]
  constructor
  · rintro ⟨s, hs, v, hl⟩
    exact ⟨s, v, List.mem_map_of_mem hs, hl⟩
  · rintro ⟨s, v, hs, hl⟩
    obtain ⟨p, s', q, x, y, rfl, hs', -, -, hl', -⟩ := hc.walk.split hs
    rcases hl.same_arc hl' hs'.symm with ⟨rfl, rfl⟩ | ⟨rfl, rfl⟩
    · exact ⟨s', by simp, y, hl'⟩
    · exact hc.walk.exists_next (by simp) hl'

/-- Cycles along the same arcs visit the same vertices. -/
theorem IsCycle.perm_starts (hc : T.IsCycle z c) (hd : T.IsCycle z' d)
    (h : (d.map Step.arc).Perm (c.map Step.arc)) : (T.starts d).Perm (T.starts c) := by
  refine (List.perm_ext_iff_of_nodup hd.nodup_starts hc.nodup_starts).2 fun u => ?_
  rw [hd.mem_starts_iff, hc.mem_starts_iff]
  simp only [h.mem_iff]

/-! ## A single cycle -/

/-- Without an arc of the only cycle no cycle is left. -/
theorem SoleCycle.forest_without (hc : T.SoleCycle z c) (ha : a ∈ c.map Step.arc) : (T.without a).Forest := by
  refine forest_iff_acyclic.2 fun z' d hd => ?_
  obtain ⟨hd, hna⟩ := isCycle_without_iff.1 hd
  exact hna ((hc.perm hd).mem_iff.2 ha)

/-- An arc whose ends stay connected without it lies on the only cycle. -/
theorem SoleCycle.mem_of_connected (hc : T.SoleCycle z c) (hs : T.Leads s u v)
    (h : (T.without s.arc).Connected u v) : s.arc ∈ c.map Step.arc := by
  obtain ⟨d, hd⟩ := hs.exists_isCycle h
  exact (hc.perm hd).mem_iff.1 (by simp)

theorem without_comm (T : ArcSet) (a b : ArcId) : (T.without a).without b = (T.without b).without a := by
  refine ArcSet.ext (funext fun e => ?_)
  simp only [without]
  split <;> split <;> rfl

/-- If a set is a forest without an arc of the cycle `c`, other cycles use no other arcs: an arc off `c` would close
a cycle in the forest, where the rest of `c` replaces the arc that is left out. -/
theorem IsCycle.subset (hc : T.IsCycle z c) (ha : a ∈ c.map Step.arc) (hf : (T.without a).Forest)
    (hd : T.IsCycle z' d) : d.map Step.arc ⊆ c.map Step.arc := by
  intro b hb
  by_contra hbc
  obtain ⟨p, s, q, x, y, -, rfl, -, -, hs, -⟩ := hd.walk.split hb
  have hc' : (T.without s.arc).IsCycle z c := isCycle_without_iff.2 ⟨hc, hbc⟩
  have hxy : ((T.without a).without s.arc).Connected x y := by
    rw [without_comm]
    exact (hd.connected_without hs hb).without_of_cycle hc'.walk hc'.nodup_arcs ha
  exact hf (leads_without_iff.2 ⟨hs, fun e => hbc (e ▸ ha)⟩) hxy

/-- A forest and one more arc have no two cycles. -/
theorem IsCycle.sole_iff (hc : T.IsCycle z c) (ha : a ∈ c.map Step.arc) :
    T.SoleCycle z c ↔ (T.without a).Forest := by
  refine ⟨fun h => h.forest_without ha, fun hf => ⟨hc, fun {z' d} hd => ?_⟩⟩
  have had : a ∈ d.map Step.arc := by
    by_contra had
    exact forest_iff_acyclic.1 hf z' d (isCycle_without_iff.2 ⟨hd, had⟩)
  refine (List.perm_ext_iff_of_nodup hd.nodup_arcs hc.nodup_arcs).2 fun b => ?_
  exact ⟨fun h => hc.subset ha hf hd h, fun h => hd.subset had hf hc h⟩

end Transportation.ArcSet
