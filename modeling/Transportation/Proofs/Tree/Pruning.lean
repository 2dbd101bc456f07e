import Transportation.Proofs.Tree.Cycle
/-!
# The search for a cycle does not fault

The degree of a vertex not yet pruned is the number of its tree arcs that lead to such vertices (`Pruning.Inv`). While
a vertex is pruned, its arcs not yet released still count at their other ends. So no degree is lowered below zero, and
as lists, degrees and marks go by position, no look-up fails (`exists_findCycle?`).
-/

namespace Transportation

variable {F : Type} {g : Network F} {t : Incidence} {u v w : VertexId} {a b : ArcId} {x : Arc F} {as bs : List ArcId}

/-- The end of the arc `a` that is not `v`. -/
def Network.across (g : Network F) (v : VertexId) (a : ArcId) : VertexId :=
  (g.arcs[a.index]?.map fun x => if v = x.src then x.snk else x.src).getD v

theorem Network.across_eq (hx : g.arc a = .ok x) (hv : x.other u = .ok v) : g.across u a = v := by
  rw [across, arc_eq_ok_iff.1 hx, Option.map_some, Option.getD_some]
  rcases Arc.other_eq_ok_iff.1 hv with ⟨h, rfl⟩ | ⟨h, -, rfl⟩ <;> simp [h]

theorem Arc.other_comm (hx : x.src ≠ x.snk) (h : x.other u = .ok v) : x.other v = .ok u := by
  rw [Arc.other_eq_ok_iff] at h ⊢
  rcases h with ⟨rfl, rfl⟩ | ⟨-, rfl, rfl⟩
  · exact .inr ⟨hx.symm, rfl, rfl⟩
  · exact .inl ⟨rfl, rfl⟩

namespace Incidence

/-- An arc is listed at its ends only. -/
theorem ListsTree.eq_or_eq (ht : t.ListsTree g) (hg : g.Numbered) (has : t.arcsAt w = .ok as) (ha : a ∈ as)
    {forward : Bool} (hl : g.tree.Leads ⟨a, forward⟩ u v) : w = u ∨ w = v := by
  obtain ⟨x, z, -, -, -, hl'⟩ := ht.holds.exists_other hg has ha
  rcases hl'.same_arc hl rfl with ⟨rfl, -⟩ | ⟨-, rfl⟩
  · exact .inl rfl
  · exact .inr rfl

/-- An arc listed at one end is listed at the other. -/
theorem ListsTree.mem_of_leads (ht : t.ListsTree g) (hg : g.Numbered) (has : t.arcsAt v = .ok as)
    {forward : Bool} (hl : g.tree.Leads ⟨a, forward⟩ u v) : a ∈ as := by
  obtain ⟨x, hx, hid, hends⟩ := hg.leads_tree.1 hl
  refine (ht.mem_iff (Checked.get_eq_ok_iff.1 has)).2 ⟨x, hx, hid, ?_⟩
  cases forward <;> simp_all

end Incidence

namespace Pruning

/-- The arc `a` of `v` leads to a vertex not pruned or has still to be released. -/
def live (g : Network F) (alive : Array Bool) (pending : List ArcId) (v : VertexId) (a : ArcId) : Bool :=
  alive.getD (g.across v a).index false || decide (a ∈ pending)

/-- A vertex is being pruned whose arcs `pending` have still to be released. -/
structure Inv (g : Network F) (t : Incidence) (pending : List ArcId) (s : Pruning) : Prop where
  size_degree : s.degree.size = g.numVertices
  size_alive : s.alive.size = g.numVertices
  leaves : ∀ v ∈ s.leaves, v.index < g.numVertices
  degree : ∀ {v as}, s.alive[v.index]? = some true → t.arcsAt v = .ok as →
    s.degree[v.index]? = some (as.countP (live g s.alive pending v))

variable {alive : Array Bool} {pending rest : List ArcId} {s s' : Pruning}

theorem inv_start (ht : t.ListsTree g) (hg : g.Numbered) : Inv g t [] (start g t) := by
  refine ⟨by simp [start, ht.size], by simp [start], fun v hv => ?_, fun {v as} hv has => ?_⟩
  · have hv : v ∈ g.vertexIds := by
      simp only [start, List.mem_reverse, List.mem_filter] at hv
      exact hv.1
    exact Network.mem_vertexIds_iff.1 hv
  · have hall : as.countP (live g (start g t).alive [] v) = as.length := by
      refine List.countP_eq_length.2 fun a ha => ?_
      obtain ⟨x, w, hx, hw, hlt, -⟩ := ht.holds.exists_other hg has ha
      simp [live, start, Network.across_eq hx hw, hlt]
    rw [hall]
    simp [start, Checked.get_eq_ok_iff.1 has]

/-! ## Releasing one arc -/

theorem countP_live_of_not_mem (ha : a ∉ as) :
    as.countP (live g alive (a :: rest) v) = as.countP (live g alive rest v) := by
  refine List.countP_congr fun b hb => ?_
  have hne : b ≠ a := fun h => ha (h ▸ hb)
  simp [live, hne]

/-- An arc to the vertex that is being pruned counts until it is released. -/
theorem countP_live_of_mem (ha : a ∈ as) (hn : as.Nodup) (hdead : alive.getD (g.across v a).index false = false)
    (hrest : a ∉ rest) : as.countP (live g alive (a :: rest) v) = as.countP (live g alive rest v) + 1 := by
  obtain ⟨l, r, rfl⟩ := List.append_of_mem ha
  rw [List.nodup_append, List.nodup_cons] at hn
  have hl : a ∉ l := fun h => hn.2.2 a h a List.mem_cons_self rfl
  have hbefore : live g alive (a :: rest) v a = true := by simp [live]
  have hafter : live g alive rest v a = false := by simp only [live, hdead, hrest, decide_false, Bool.or_false]
  simp only [List.countP_append, List.countP_cons, countP_live_of_not_mem hl, countP_live_of_not_mem hn.2.1.1, hbefore,
    hafter, if_true, Bool.false_eq_true, if_false]
  omega

theorem Inv.release (hs : Inv g t (a :: rest) s) (ht : t.ListsTree g) (hg : g.Proper) (has : t.arcsAt u = .ok as)
    (ha : a ∈ as) (hrest : a ∉ rest) (hdead : s.alive[u.index]? = some false) :
    ∃ s', release g u s a = .ok s' ∧ s'.alive = s.alive ∧ Inv g t rest s' := by
  obtain ⟨x, v, hx, hv, hlt, hl⟩ := ht.holds.exists_other hg.toNumbered has ha
  have hlt' : v.index < s.alive.size := by rwa [hs.size_alive]
  -- The arc counts at `u`, which is pruned, and at `v` only.
  have hother : ∀ {w bs}, s.alive[w.index]? = some true → t.arcsAt w = .ok bs → w ≠ v →
      s.degree[w.index]? = some (bs.countP (live g s.alive rest w)) := by
    intro w bs hw hbs hne
    rw [hs.degree hw hbs, countP_live_of_not_mem fun hb => ?_]
    rcases ht.eq_or_eq hg.toNumbered hbs hb hl with rfl | rfl
    · rw [hdead] at hw
      cases hw
    · exact hne rfl
  unfold Pruning.release
  simp only [hx, hv, Checked.ok_bind, Checked.get_eq_ok_iff.2 (Array.getElem?_eq_getElem hlt')]
  cases halive : s.alive[v.index] with
  | false =>
    refine ⟨s, rfl, rfl, hs.size_degree, hs.size_alive, hs.leaves, fun {w bs} hw hbs => hother hw hbs ?_⟩
    rintro rfl
    rw [Array.getElem?_eq_getElem hlt', halive] at hw
    cases hw
  | true =>
    obtain ⟨bs, hbs⟩ := ht.holds.exists_arcsAt hlt
    have hback : s.alive.getD (g.across v a).index false = false := by
      rw [Network.across_eq hx (Arc.other_comm (hg.loopless (Network.arc_eq_ok_iff.1 hx)) hv)]
      simp [hdead]
    have hcount := countP_live_of_mem (ht.mem_of_leads hg.toNumbered hbs hl)
      (ht.nodup (Checked.get_eq_ok_iff.1 hbs)) hback hrest
    have hd := hs.degree (by rw [Array.getElem?_eq_getElem hlt', halive]) hbs
    rw [hcount] at hd
    simp only [if_true, Checked.get_eq_ok_iff.2 hd, Checked.ok_bind, Checked.require, ne_eq, Nat.add_one_ne_zero,
      not_false_eq_true, Checked.modify, hs.size_degree, hlt, pure_bind]
    refine ⟨_, rfl, rfl, by simp [hs.size_degree], hs.size_alive, fun w hw => ?_, fun {w cs} hw hcs => ?_⟩
    · split at hw
      · rcases List.mem_cons.1 hw with rfl | hw
        · exact hlt
        · exact hs.leaves w hw
      · exact hs.leaves w hw
    · rw [Array.getElem?_modify]
      by_cases hwv : v.index = w.index
      · obtain rfl := VertexId.ext hwv
        rw [hbs, Except.ok.injEq] at hcs
        subst hcs
        rw [if_pos rfl, hd]
        rfl
      · rw [if_neg hwv]
        exact hother hw hcs fun h => hwv (h ▸ rfl)

theorem Inv.releases (hs : Inv g t pending s) (ht : t.ListsTree g) (hg : g.Proper) (has : t.arcsAt u = .ok as)
    (hsub : ∀ a ∈ pending, a ∈ as) (hn : pending.Nodup) (hdead : s.alive[u.index]? = some false) :
    ∃ s', pending.foldlM (Pruning.release g u) s = .ok s' ∧ Inv g t [] s' := by
  induction pending generalizing s with
  | nil => exact ⟨s, rfl, hs⟩
  | cons a rest ih =>
    obtain ⟨ha, hsub⟩ := List.forall_mem_cons.1 hsub
    obtain ⟨hrest, hn⟩ := List.nodup_cons.1 hn
    obtain ⟨s₁, h₁, halive, hs₁⟩ := hs.release ht hg has ha hrest hdead
    obtain ⟨s', h', hs'⟩ := ih hs₁ hsub hn (halive ▸ hdead)
    exact ⟨s', Checked.foldlM_cons_eq_ok_iff.2 ⟨s₁, h₁, h'⟩, hs'⟩

/-! ## Pruning leaves -/

/-- A vertex that is pruned no longer counts, but all of its arcs have still to be released. -/
theorem Inv.kill (hs : Inv g t [] s) (ht : t.ListsTree g) (hg : g.Numbered) (has : t.arcsAt u = .ok as)
    (hu : s.alive[u.index]? = some true) :
    Inv g t as { s with alive := s.alive.modify u.index fun _ => false } := by
  refine ⟨hs.size_degree, by simp [hs.size_alive], hs.leaves, fun {w bs} hw hbs => ?_⟩
  have hkill : ∀ {z : VertexId}, z ≠ u → (s.alive.modify u.index fun _ => false)[z.index]? = s.alive[z.index]? := by
    intro z hz
    rw [Array.getElem?_modify, if_neg fun h => hz (VertexId.ext h.symm)]
  have hwu : w ≠ u := by
    rintro rfl
    rw [Array.getElem?_modify, if_pos rfl] at hw
    obtain ⟨_, -, h⟩ := Option.map_eq_some_iff.1 hw
    cases h
  rw [hkill hwu] at hw
  rw [hs.degree hw hbs]
  congr 1
  refine List.countP_congr fun b hb => ?_
  obtain ⟨x, z, hx, hz, -, hl⟩ := ht.holds.exists_other hg hbs hb
  by_cases hzu : z = u
  · subst hzu
    have hmem : b ∈ as := ht.mem_of_leads hg has hl
    simp [live, Network.across_eq hx hz, hu, hmem]
  · have hnot : b ∉ as := by
      intro hmem
      rcases ht.eq_or_eq hg has hmem hl with h | h
      · exact hwu h.symm
      · exact hzu h.symm
    simp only [live, Network.across_eq hx hz, Array.getD_eq_getD_getElem?, hkill hzu, hnot, List.not_mem_nil]

theorem Inv.prune (hs : Inv g t [] s) (ht : t.ListsTree g) (hg : g.Proper) (hu : u.index < g.numVertices) :
    ∃ s', prune g t u s = .ok s' ∧ Inv g t [] s' := by
  have hlt : u.index < s.alive.size := by rwa [hs.size_alive]
  have hget := Array.getElem?_eq_getElem hlt
  unfold Pruning.prune
  simp only [Checked.get_eq_ok_iff.2 hget, Checked.ok_bind]
  cases halive : s.alive[u.index] with
  | false => exact ⟨s, rfl, hs⟩
  | true =>
    obtain ⟨as, has⟩ := ht.holds.exists_arcsAt hu
    simp only [if_true, Checked.modify_eq_ok_iff.2 ⟨hlt, rfl⟩, has, Checked.ok_bind]
    refine (hs.kill ht hg.toNumbered has (halive ▸ hget)).releases ht hg has (fun _ => id)
      (ht.nodup (Checked.get_eq_ok_iff.1 has)) ?_
    rw [Array.getElem?_modify, if_pos rfl, hget]
    rfl

theorem Inv.steps (hs : Inv g t [] s) (ht : t.ListsTree g) (hg : g.Proper) (n : Nat) :
    ∃ s', steps g t n s = .ok s' ∧ Inv g t [] s' := by
  induction n generalizing s with
  | zero => exact ⟨s, rfl, hs⟩
  | succ n ih =>
    rw [Pruning.steps]
    cases hl : s.leaves with
    | nil => exact ⟨s, rfl, hs⟩
    | cons u leaves =>
      have hleaves : ∀ v ∈ u :: leaves, v.index < g.numVertices := hl ▸ hs.leaves
      obtain ⟨hu, hleaves⟩ := List.forall_mem_cons.1 hleaves
      obtain ⟨s₁, h₁, hs₁⟩ := Inv.prune (s := { s with leaves }) ⟨hs.size_degree, hs.size_alive, hleaves, hs.degree⟩
        ht hg hu
      obtain ⟨s', h', hs'⟩ := ih hs₁
      exact ⟨s', Checked.bind_eq_ok_iff.2 ⟨s₁, h₁, h'⟩, hs'⟩

end Pruning

namespace Incidence

theorem exists_core (ht : t.ListsTree g) (hg : g.Proper) : ∃ core, t.core g = .ok core ∧ core.size = g.numVertices := by
  obtain ⟨s, hs, hinv⟩ := (Pruning.inv_start ht hg.toNumbered).steps ht hg g.numVertices
  exact ⟨s.alive, Checked.bind_eq_ok_iff.2 ⟨s, hs, rfl⟩, hinv.size_alive⟩

/-! ## The walk around the cycle -/

variable {core : Array Bool} {target : VertexId}

theorem exists_next? (ht : t.ListsTree g) (hg : g.Numbered) (hcore : core.size = g.numVertices) (last : ArcId)
    (has : t.arcsAt u = .ok as) (hsub : ∀ a ∈ bs, a ∈ as) : ∃ o, next? g core u last bs = .ok o := by
  induction bs with
  | nil => exact ⟨none, rfl⟩
  | cons a bs ih =>
    obtain ⟨ha, hsub⟩ := List.forall_mem_cons.1 hsub
    obtain ⟨o, ho⟩ := ih hsub
    rw [next?]
    split
    · exact ⟨o, ho⟩
    · obtain ⟨x, v, hx, hv, hlt, -⟩ := ht.holds.exists_other hg has ha
      rw [← hcore] at hlt
      simp only [hx, hv, Checked.ok_bind, Checked.get_eq_ok_iff.2 (Array.getElem?_eq_getElem hlt)]
      split
      · exact ⟨_, rfl⟩
      · exact ⟨o, ho⟩

theorem exists_walk? (ht : t.ListsTree g) (hg : g.Numbered) (hcore : core.size = g.numVertices) (n : Nat)
    (last : ArcId) (hu : u.index < g.numVertices) : ∃ o, t.walk? g core target n u last = .ok o := by
  induction n generalizing u last with
  | zero => ?_
  | succ n ih => ?_
  all_goals
    obtain ⟨as, has⟩ := ht.holds.exists_arcsAt hu
    obtain ⟨o, ho⟩ := exists_next? ht hg hcore last has fun _ => id
    rw [walk?.eq_def]
    by_cases htarget : u = target
    · simp only [htarget, if_true]
      exact ⟨_, rfl⟩
    simp only [if_neg htarget, has, ho, Checked.ok_bind]
    rcases o with _ | a
    · exact ⟨_, rfl⟩
    obtain ⟨x, v, hx, hv, hlt, -⟩ := ht.holds.exists_other hg has (mem_of_next? ho).1
    simp only [hx, hv, Checked.ok_bind]
  · exact ⟨_, rfl⟩
  · obtain ⟨o, ho⟩ := ih a hlt
    rw [ho]
    exact ⟨_, rfl⟩

/-- The search for a cycle does not fault. -/
theorem exists_findCycle? (ht : t.ListsTree g) (hg : g.Proper) (hx : g.arcs[a.index]? = some x) :
    ∃ o, t.findCycle? g a = .ok o := by
  obtain ⟨core, hcore, hsize⟩ := exists_core ht hg
  have hsrc : x.src.index < core.size := by rw [hsize]; exact hg.src_lt hx
  have hsnk : x.snk.index < core.size := by rw [hsize]; exact hg.snk_lt hx
  obtain ⟨o, ho⟩ : ∃ o, t.walk? g core x.src (g.numVertices - 1) x.snk a = .ok o :=
    exists_walk? ht hg.toNumbered hsize _ a (hg.snk_lt hx)
  simp only [findCycle?, hcore, Network.arc_eq_ok_iff.2 hx, Checked.ok_bind, ho,
    Checked.get_eq_ok_iff.2 (Array.getElem?_eq_getElem hsrc), Checked.get_eq_ok_iff.2 (Array.getElem?_eq_getElem hsnk)]
  split
  · split <;> exact ⟨_, rfl⟩
  · exact ⟨_, rfl⟩

end Incidence

end Transportation
