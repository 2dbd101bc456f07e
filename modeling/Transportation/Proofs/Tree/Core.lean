import Transportation.Proofs.Tree.Pruning
/-!
# The core of the tree arcs

Pruning goes on until no leaf is left: a vertex becomes a leaf when its degree falls to one, and each such fall has a
place among as many steps as there are vertices (`Settled`). So every vertex that stays has two arcs to others that
stay. A set of vertices each of which has two arcs into the set is never touched (`Spares`).
-/

namespace Transportation

variable {F : Type} {g : Network F} {t : Incidence} {u v w : VertexId} {a b : ArcId} {as : List ArcId}

/-- Two elements of a list that are counted. -/
theorem two_le_countP {α : Type} {p : α → Bool} {l : List α} {x y : α} (hx : x ∈ l) (hy : y ∈ l) (hne : x ≠ y)
    (hpx : p x = true) (hpy : p y = true) : 2 ≤ l.countP p := by
  have hsub : [x, y] ⊆ l.filter p := by
    simp [List.mem_filter, hx, hy, hpx, hpy]
  rw [List.countP_eq_length_filter]
  exact (List.subperm_of_subset (by simpa using hne) hsub).length_le

namespace Pruning

variable {pending : List ArcId} {s s' : Pruning} {n : Nat} {C : VertexId → Prop}

/-! ## What one step can do -/

theorem release_cases (h : release g u s a = .ok s') : s' = s ∨ ∃ v d, s.alive[v.index]? = some true ∧
    s.degree[v.index]? = some (d + 1) ∧
    s' = { s with
      degree := s.degree.modify v.index fun d => d - 1
      leaves := if d = 1 then v :: s.leaves else s.leaves } := by
  simp only [release, Checked.bind_eq_ok_iff, Checked.get_eq_ok_iff] at h
  obtain ⟨x, -, v, -, alive, halive, h⟩ := h
  cases alive with
  | false => exact .inl (Checked.pure_eq_ok_iff.1 h).symm
  | true =>
    simp only [if_true, Checked.bind_eq_ok_iff, Checked.get_eq_ok_iff, Checked.modify_eq_ok_iff,
      Checked.pure_eq_ok_iff] at h
    obtain ⟨d, hd, ⟨⟩, hne, _, ⟨-, rfl⟩, rfl⟩ := h
    obtain ⟨d, rfl⟩ := Nat.exists_eq_succ_of_ne_zero (Checked.require_eq_ok_iff.1 hne)
    exact .inr ⟨v, d, halive, hd, by simp⟩

theorem prune_cases (h : prune g t u s = .ok s') :
    (s.alive[u.index]? = some false ∧ s' = s) ∨ ∃ as, s.alive[u.index]? = some true ∧ t.arcsAt u = .ok as ∧
      as.foldlM (release g u) { s with alive := s.alive.modify u.index fun _ => false } = .ok s' := by
  simp only [prune, Checked.bind_eq_ok_iff, Checked.get_eq_ok_iff] at h
  obtain ⟨alive, halive, h⟩ := h
  cases alive with
  | false => exact .inl ⟨halive, (Checked.pure_eq_ok_iff.1 h).symm⟩
  | true =>
    simp only [if_true, Checked.bind_eq_ok_iff, Checked.modify_eq_ok_iff] at h
    obtain ⟨_, ⟨-, rfl⟩, as, has, h⟩ := h
    exact .inr ⟨as, halive, has, h⟩

/-! ## Until no leaf is left -/

/-- Every leaf is on the list, and there is time for the leaves on the list and for those that vertices of larger
degree may still become. -/
structure Settled (n : Nat) (s : Pruning) : Prop where
  listed : ∀ {v d}, s.alive[v.index]? = some true → s.degree[v.index]? = some d → d ≤ 1 → v ∈ s.leaves
  time : s.leaves.length + s.degree.toList.countP (2 ≤ ·) ≤ n

theorem settled_start (ht : t.ListsTree g) : Settled g.numVertices (start g t) := by
  have hsize : (t.incident.map List.length).size = g.numVertices := by simp [ht.size]
  refine ⟨fun {v d} hv hd hle => ?_, ?_⟩
  · simp only [start, Array.getElem?_replicate] at hv hd
    split at hv
    · next hlt =>
      simp only [start, List.mem_reverse, List.mem_filter, Network.mem_vertexIds_iff, decide_eq_true_eq]
      exact ⟨hlt, by simpa [Array.getD_eq_getD_getElem?, hd] using hle⟩
    · cases hv
  · have hlist : (t.incident.map List.length).toList =
        (List.range g.numVertices).map fun i => (t.incident.map List.length).getD i 0 := by
      refine List.ext_getElem (by simp [ht.size]) fun i hi _ => ?_
      simp [Array.getD_eq_getD_getElem?, Array.getElem?_eq_getElem (show i < t.incident.size by simpa using hi)]
    have hleaves : (start g t).leaves.length =
        (List.range g.numVertices).countP fun i => decide ((t.incident.map List.length).getD i 0 ≤ 1) := by
      simp only [start, List.length_reverse, Network.vertexIds, ← List.countP_eq_length_filter, List.countP_map]
      rfl
    have hsplit := List.length_eq_countP_add_countP
      (fun i => decide ((t.incident.map List.length).getD i 0 ≤ 1)) (l := List.range g.numVertices)
    rw [hleaves, start, hlist, List.countP_map]
    rw [List.length_range] at hsplit
    have hrest : (List.range g.numVertices).countP ((fun d => decide (2 ≤ d)) ∘
        fun i => (t.incident.map List.length).getD i 0) = (List.range g.numVertices).countP
          fun i => decide (¬ decide ((t.incident.map List.length).getD i 0 ≤ 1) = true) :=
      List.countP_congr fun i _ => by simp; omega
    omega

/-- A degree is lowered by one, and a vertex whose degree falls to one is a new leaf. -/
theorem countP_lower {l : List Nat} {i d : Nat} (h : l[i]? = some (d + 1)) :
    (l.modify i fun d => d - 1).countP (2 ≤ ·) + (if d = 1 then 1 else 0) = l.countP (2 ≤ ·) := by
  induction l generalizing i with
  | nil => cases h
  | cons e l ih =>
    cases i with
    | zero =>
      obtain rfl : e = d + 1 := by simpa using h
      simp only [List.modify_zero_cons, List.countP_cons, Nat.add_sub_cancel, decide_eq_true_eq]
      split <;> split <;> split <;> omega
    | succ i =>
      have := ih (i := i) (by simpa using h)
      simp only [List.modify_succ_cons, List.countP_cons]
      omega

theorem Settled.release (hs : Settled n s) (h : release g u s a = .ok s') : Settled n s' := by
  rcases release_cases h with rfl | ⟨v, d, hv, hd, rfl⟩
  · exact hs
  refine ⟨fun {w e} hw he hle => ?_, ?_⟩
  · have hmem : w ∈ s.leaves → w ∈ if d = 1 then v :: s.leaves else s.leaves := by
      intro h
      split
      · exact List.mem_cons_of_mem _ h
      · exact h
    simp only [Array.getElem?_modify] at he
    split at he
    · next hi =>
      obtain rfl := VertexId.ext hi
      rw [hd] at he
      obtain rfl : d = e := by simpa using he
      by_cases hd1 : d = 1
      · simp [hd1]
      · exact hmem (hs.listed hv hd (by omega))
    · exact hmem (hs.listed hw he hle)
  · have htime := hs.time
    have hlower := countP_lower (l := s.degree.toList) (by simpa using hd)
    simp only [Array.toList_modify]
    split at hlower <;> simp_all
    omega

theorem Settled.prune (hs : Settled (n + 1) s) {leaves : List VertexId} (hl : s.leaves = u :: leaves)
    (h : prune g t u { s with leaves } = .ok s') : Settled n s' := by
  have htime := hs.time
  rw [hl, List.length_cons] at htime
  have hlisted : ∀ {v : VertexId} {d}, s.alive[v.index]? = some true → s.degree[v.index]? = some d → d ≤ 1 → v ≠ u →
      v ∈ leaves := by
    intro v d hv hd hle hne
    have := hs.listed hv hd hle
    rw [hl] at this
    exact (List.mem_cons.1 this).resolve_left hne
  rcases prune_cases h with ⟨hdead, rfl⟩ | ⟨as, -, -, h⟩
  · refine ⟨fun {v d} hv hd hle => hlisted hv hd hle ?_, by simp only; omega⟩
    rintro rfl
    rw [hdead] at hv
    cases hv
  · refine Checked.foldlM_keeps (Settled n) h ⟨fun {v d} hv hd hle => ?_, by simp only; omega⟩
      fun _ _ _ _ hx h => hx.release h
    rw [Array.getElem?_modify] at hv
    split at hv
    · obtain ⟨_, -, hv⟩ := Option.map_eq_some_iff.1 hv
      cases hv
    · next hne => exact hlisted hv hd hle fun h => hne (h ▸ rfl)

theorem Settled.two_le (hs : Settled n s) (hnil : s.leaves = []) (v : VertexId) (d : Nat)
    (hv : s.alive[v.index]? = some true) (hd : s.degree[v.index]? = some d) : 2 ≤ d := by
  by_contra hlt
  have := hs.listed hv hd (by omega)
  rw [hnil] at this
  cases this

/-- At the end no leaf is left. -/
theorem Settled.steps (hs : Settled n s) (h : steps g t n s = .ok s') :
    ∀ (v : VertexId) (d : Nat), s'.alive[v.index]? = some true → s'.degree[v.index]? = some d → 2 ≤ d := by
  induction n generalizing s with
  | zero =>
    cases h
    have htime := hs.time
    exact hs.two_le (List.eq_nil_of_length_eq_zero (by omega))
  | succ n ih =>
    rw [Pruning.steps] at h
    split at h
    · next hnil =>
      cases h
      exact hs.two_le hnil
    · next u leaves hl =>
      obtain ⟨s₁, h₁, h⟩ := Checked.bind_eq_ok_iff.1 h
      exact ih (hs.prune hl h₁) h

/-! ## What is never pruned -/

/-- Every vertex of the set has two arcs into the set. -/
def Thick (g : Network F) (t : Incidence) (C : VertexId → Prop) : Prop :=
  ∀ v as, C v → t.arcsAt v = .ok as → ∃ a ∈ as, ∃ b ∈ as, a ≠ b ∧ C (g.across v a) ∧ C (g.across v b)

/-- Nothing of the set has been pruned or is about to be. -/
structure Spares (C : VertexId → Prop) (s : Pruning) : Prop where
  alive : ∀ {v}, C v → s.alive[v.index]? = some true
  leaves : ∀ v ∈ s.leaves, ¬ C v

/-- No vertex of the set becomes a leaf. -/
theorem Spares.two_le (hC : Thick g t C) (hs : ∀ {v}, C v → s.alive[v.index]? = some true)
    (hinv : Inv g t pending s) (ht : t.ListsTree g) (hv : C v) : ∃ d, s.degree[v.index]? = some d ∧ 2 ≤ d := by
  have hlt : v.index < g.numVertices := by
    rw [← hinv.size_alive]
    exact (Array.getElem?_eq_some_iff.1 (hs hv)).1
  obtain ⟨as, has⟩ := ht.holds.exists_arcsAt hlt
  obtain ⟨a, ha, b, hb, hne, hCa, hCb⟩ := hC v as hv has
  have hlive : ∀ {a}, C (g.across v a) → live g s.alive pending v a = true := by
    intro a h
    simp [live, Array.getD_eq_getD_getElem?, hs h]
  exact ⟨_, hinv.degree (hs hv) has, two_le_countP ha hb hne (hlive hCa) (hlive hCb)⟩

theorem spares_start (hC : Thick g t C) (hlt : ∀ {v}, C v → v.index < g.numVertices) (ht : t.ListsTree g)
    (hg : g.Numbered) : Spares C (start g t) := by
  have halive : ∀ {v}, C v → (start g t).alive[v.index]? = some true := by
    intro v hv
    simp [start, hlt hv]
  refine ⟨halive, fun v hv hCv => ?_⟩
  obtain ⟨d, hd, hle⟩ := Spares.two_le hC halive (inv_start ht hg) ht hCv
  simp only [start, List.mem_reverse, List.mem_filter, decide_eq_true_eq] at hv hd
  rw [Array.getD_eq_getD_getElem?, hd] at hv
  have := hv.2
  simp only [Option.getD_some] at this
  omega

theorem Spares.releases (hs : Spares C s) (hC : Thick g t C) (hinv : Inv g t pending s) (ht : t.ListsTree g)
    (hg : g.Proper) (has : t.arcsAt u = .ok as) (hsub : ∀ a ∈ pending, a ∈ as) (hn : pending.Nodup)
    (hdead : s.alive[u.index]? = some false) (h : pending.foldlM (Pruning.release g u) s = .ok s') : Spares C s' := by
  induction pending generalizing s with
  | nil =>
    cases h
    exact hs
  | cons a rest ih =>
    obtain ⟨ha, hsub⟩ := List.forall_mem_cons.1 hsub
    obtain ⟨hrest, hn⟩ := List.nodup_cons.1 hn
    obtain ⟨s₁, h₁, halive, hinv₁⟩ := hinv.release ht hg has ha hrest hdead
    obtain ⟨s₁', h₁', h⟩ := Checked.foldlM_cons_eq_ok_iff.1 h
    rw [h₁, Except.ok.injEq] at h₁'
    subst h₁'
    have halive₁ : ∀ {v}, C v → s₁.alive[v.index]? = some true := fun hv => halive ▸ hs.alive hv
    refine ih ⟨halive₁, fun v hv hCv => ?_⟩ hinv₁ hsub hn (halive ▸ hdead) h
    obtain ⟨d, hd, hle⟩ := Spares.two_le hC halive₁ hinv₁ ht hCv
    rcases release_cases h₁ with rfl | ⟨w, e, -, he, rfl⟩
    · exact hs.leaves v hv hCv
    · simp only at hv hd
      split at hv
      · next he1 =>
        rcases List.mem_cons.1 hv with rfl | hv
        · rw [Array.getElem?_modify, if_pos rfl, he, he1] at hd
          obtain rfl : 1 = d := by simpa using hd
          omega
        · exact hs.leaves v hv hCv
      · exact hs.leaves v hv hCv

theorem Spares.prune (hs : Spares C s) (hC : Thick g t C) (hinv : Inv g t [] s) (ht : t.ListsTree g)
    (hg : g.Proper) (hu : ¬ C u) (h : prune g t u s = .ok s') : Spares C s' := by
  rcases prune_cases h with ⟨-, rfl⟩ | ⟨as, halive, has, h⟩
  · exact hs
  · refine Spares.releases (s := { s with alive := s.alive.modify u.index fun _ => false })
      ⟨fun {v} hv => ?_, hs.leaves⟩
      hC (hinv.kill ht hg.toNumbered has halive) ht hg has (fun _ => id) (ht.nodup (Checked.get_eq_ok_iff.1 has)) ?_ h
    · have hne : u.index ≠ v.index := fun h => hu ((VertexId.ext h : u = v) ▸ hv)
      rw [Array.getElem?_modify, if_neg hne]
      exact hs.alive hv
    · rw [Array.getElem?_modify, if_pos rfl, halive]
      rfl

theorem Spares.steps (hs : Spares C s) (hC : Thick g t C) (hinv : Inv g t [] s) (ht : t.ListsTree g)
    (hg : g.Proper) (h : steps g t n s = .ok s') : Spares C s' := by
  induction n generalizing s with
  | zero =>
    cases h
    exact hs
  | succ n ih =>
    rw [Pruning.steps] at h
    split at h
    · cases h
      exact hs
    · next u leaves hl =>
      have hleaves : ∀ v ∈ u :: leaves, v.index < g.numVertices := hl ▸ hinv.leaves
      have hnot : ∀ v ∈ u :: leaves, ¬ C v := hl ▸ hs.leaves
      obtain ⟨hu, hleaves⟩ := List.forall_mem_cons.1 hleaves
      obtain ⟨hCu, hnot⟩ := List.forall_mem_cons.1 hnot
      have hinv' : Inv g t [] { s with leaves } := ⟨hinv.size_degree, hinv.size_alive, hleaves, hinv.degree⟩
      obtain ⟨s₁, h₁, h⟩ := Checked.bind_eq_ok_iff.1 h
      obtain ⟨s₁', h₁', hinv₁⟩ := hinv'.prune ht hg hu
      rw [h₁, Except.ok.injEq] at h₁'
      subst h₁'
      exact ih (Spares.prune (s := { s with leaves }) ⟨hs.alive, hnot⟩ hC hinv' ht hg hCu h₁) hinv₁ h

end Pruning

namespace Incidence

/-- The core holds every set of vertices each of which has two arcs into the set. -/
theorem core_of_thick (hC : Pruning.Thick g t C) (hlt : ∀ {v}, C v → v.index < g.numVertices) (ht : t.ListsTree g)
    (hg : g.Proper) {core : Array Bool} (h : t.core g = .ok core) {v : VertexId} (hv : C v) :
    core[v.index]? = some true := by
  obtain ⟨s, hs, h⟩ := Checked.bind_eq_ok_iff.1 h
  obtain rfl := Checked.pure_eq_ok_iff.1 h
  exact ((Pruning.spares_start hC hlt ht hg.toNumbered).steps hC (Pruning.inv_start ht hg.toNumbered) ht hg hs).alive hv

/-- Every vertex of the core has two arcs to vertices of the core. -/
theorem two_le_of_core (ht : t.ListsTree g) (hg : g.Proper) {core : Array Bool} (h : t.core g = .ok core)
    (hu : core[u.index]? = some true) (has : t.arcsAt u = .ok as) :
    2 ≤ as.countP (Pruning.live g core [] u) := by
  obtain ⟨s, hs, h⟩ := Checked.bind_eq_ok_iff.1 h
  obtain rfl := Checked.pure_eq_ok_iff.1 h
  obtain ⟨s', hs', hinv⟩ := (Pruning.inv_start ht hg.toNumbered).steps ht hg g.numVertices
  rw [hs, Except.ok.injEq] at hs'
  subst hs'
  exact (Pruning.settled_start ht).steps hs u _ hu (hinv.degree hu has)

/-! ## The cycle lies in the core -/

theorem across_of_leads (hg : g.Proper) {s : Step} (hl : g.tree.Leads s u v) : g.across u s.arc = v := by
  have hne := hg.ne_of_leads hl
  obtain ⟨x, hx, hid, he⟩ := hg.leads_tree.1 hl
  have hx := hg.getElem?_id (Network.mem_treeArcs_iff.1 hx).1
  rw [hid] at hx
  rw [Network.across, hx]
  cases hf : s.forward <;> simp only [hf, Bool.false_eq_true, if_true, if_false, Prod.mk.injEq] at he
  · simp [he.1, hne]
  · simp [he.1, he.2]

/-- Every vertex of a cycle has two arcs to vertices of the cycle: it is left along another arc than it is reached by,
since no arc of the cycle is used twice and none leads from a vertex to itself. -/
theorem thick_starts (ht : t.ListsTree g) (hg : g.Proper) {c : List Step} {z : VertexId}
    (hc : g.tree.Walk z c z) (hn : (c.map Step.arc).Nodup) : Pruning.Thick g t (· ∈ g.tree.starts c) := by
  intro v as hv has
  obtain ⟨s, hs, w, hl⟩ := ArcSet.mem_starts_iff.1 hv
  obtain ⟨s', hs', u, hl'⟩ := hc.exists_previous hs hl
  have hmem : ∀ {s w}, g.tree.Leads s v w → s.arc ∈ as := fun hl =>
    ht.mem_of_leads hg.toNumbered has hl.reverse
  refine ⟨s.arc, hmem hl, s'.arc, hmem (s := s'.reverse) hl'.reverse, fun he => ?_, ?_, ?_⟩
  · obtain rfl := List.inj_on_of_nodup_map hn hs hs' he
    exact hg.ne_of_leads hl' (hl.unique hl').1
  · rw [across_of_leads hg hl]
    exact ArcSet.mem_starts_iff.2 (hc.exists_next hs hl)
  · have hacross : g.across v s'.arc = u := across_of_leads hg (s := s'.reverse) hl'.reverse
    rw [hacross]
    exact ArcSet.mem_starts_iff.2 ⟨s', hs', v, hl'⟩

end Incidence

end Transportation
