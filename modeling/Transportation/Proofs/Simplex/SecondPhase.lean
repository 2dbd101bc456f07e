import Transportation.Proofs.Network.Cost
import Transportation.Proofs.Network.Gap
import Transportation.Proofs.Simplex.Entering
import Transportation.Proofs.Simplex.Solve
/-!
# The second phase

In the second phase no artificial arc enters the tree, so those of the tree cost what they cost when the phase
began (`Restored`). If this is more than `n - 1` times the largest cost, an artificial arc of an optimal tree that
carried flow would leave a gap between the potentials of its ends that no real arc leads across, and then no flow is
feasible (`Restored.artificial_flow_eq_zero`).
-/

namespace Transportation

section
variable {F : Type} {g h k : Network F} {c : F} {x : Arc F}

namespace Network

/-- The artificial arcs of the tree cost `c`. -/
def Charges (h : Network F) (c : F) : Prop :=
  ∀ x ∈ h.treeArcs, x.kind = .artificial → x.cost = c

theorem charges_restore (e : g.restore c h = .ok k) : k.Charges c := by
  intro y hy hk
  obtain ⟨hy, ht⟩ := mem_treeArcs_iff.1 hy
  obtain ⟨i, hi⟩ := mem_arcs_iff.1 hy
  obtain ⟨x, -, hcost, he⟩ := restoredCost_of_restore e hi
  have hxk : x.kind = .artificial := by rw [he] at hk; exact hk
  have hxt : x.inTree = true := by rw [he] at ht; exact ht
  simp only [restoredCost, hxk, hxt, if_true] at hcost
  exact (Checked.pure_eq_ok_iff.1 hcost).symm

end Network

variable [Amount F] {s s' : Simplex F}

/-- A tree arc after a pivot is one before it, up to its flow, or it is the entering arc. -/
theorem Simplex.exists_treeArc_of_pivot {r : Except SolveError (Option (Pivot F))} (h : PivotRun s r s')
    (hx : x ∈ s'.solution.treeArcs) :
    (∃ y ∈ s.solution.treeArcs, y.drained = x.drained) ∨
      ∃ c cursor y, s.price = .ok (some c, cursor) ∧ s.solution.arcs[c.arc.index]? = some y ∧
        Arc.drained { y with inTree := true } = x.drained := by
  cases h with
  | noTree => exact .inl ⟨x, hx, rfl⟩
  | optimal => exact .inl ⟨x, hx, rfl⟩
  | noCycle _ _ hi _ hl => exact .inl ⟨x, (treeArcs_of_insert_remove hi hl).2 x hx, rfl⟩
  | unbounded _ _ hi _ _ hl => exact .inl ⟨x, (treeArcs_of_insert_remove hi hl).2 x hx, rfl⟩
  | @pivoted c cursor t g₁ cycle b g₂ t' g₃ g₄ all _ hp hi _ _ hpush hl hu =>
    -- Traced back, `x` was a tree arc before the leaving arc left, before the push and, unless it is the
    -- entering arc, before that entered.
    obtain ⟨ps, -, rfl⟩ := Incidence.computePotentials_eq_ok_iff.1 hu
    have hx : x ∈ g₃.treeArcs := hx
    obtain ⟨z, hz, hzt, -, hm⟩ := Incidence.remove_eq_ok_iff.1 hl
    have hx : x ∈ g₂.treeArcs := (Network.treeArcs_leave hm hz hzt).mem_iff.2 (List.mem_append_left _ hx)
    obtain ⟨hx, hxt⟩ := Network.mem_treeArcs_iff.1 hx
    obtain ⟨i, hx⟩ := Network.mem_arcs_iff.1 hx
    obtain ⟨y, hy, hyx⟩ := Network.exists_arc_of_drained (Network.drained_push hpush) hx
    have hy : y ∈ g₁.treeArcs :=
      Network.mem_treeArcs_iff.2 ⟨Network.mem_arcs_iff.2 ⟨_, hy⟩, (congrArg Arc.inTree hyx).trans hxt⟩
    obtain ⟨w, hw, hwt, -, hm⟩ := Incidence.insert_eq_ok_iff.1 hi
    rcases List.mem_append.1 ((Network.treeArcs_enter hm hw hwt rfl).mem_iff.1 hy) with hy | hy
    · exact .inl ⟨y, hy, hyx⟩
    · rw [List.mem_singleton.1 hy] at hyx
      exact .inr ⟨c, cursor, w, hp, hw, hyx⟩

end

namespace Simplex

open Network

variable {max : Nat} [NeZero max] {g : Network (Signed max)} {s s' : Simplex (Signed max)} {M : Signed max}

/-- What holds of every solver of the instance `g` without a tolerance in the second phase, if artificial arcs of
the tree cost `M`. -/
structure Restored (g : Network (Signed max)) (M : Signed max) (s : Simplex (Signed max)) : Prop extends Basic g s where
  phase : s.phase = .optimal
  charges : s.solution.Charges M

theorem restored_of_restore (hg : g.WellFormed) (hs : Basic g s) (hM : s.artificialCost = .ok M)
    (h : RestoreRun s (.ok ()) s') : Restored g M s' := by
  have hs' := (stable_basic hg).restore hs h
  generalize hr : (Except.ok () : Except SolveError Unit) = r at h
  cases h with
  | noTree => cases hr
  | restored _ hc hk hu =>
    rw [hM, Except.ok.injEq] at hc
    subst hc
    obtain ⟨ps, -, rfl⟩ := Incidence.computePotentials_eq_ok_iff.1 hu
    exact ⟨hs', rfl, fun x hx => charges_restore hk x hx⟩

/-- No artificial arc enters the tree in the second phase. -/
theorem Restored.pivot (hs : Restored g M s) {r : Except SolveError (Option (Pivot (Signed max)))}
    (h : PivotRun s r s') : Restored g M s' := by
  refine ⟨hs.toBasic.pivot h, h.constants.2.2.1.trans hs.phase, fun x hx hk => ?_⟩
  rcases exists_treeArc_of_pivot h hx with ⟨y, hy, hyx⟩ | ⟨c, cursor, y, hp, hy, hyx⟩
  · obtain ⟨-, -, -, hcost, hkind, -⟩ := Arc.drained_eq_iff.1 hyx
    rw [← hcost]
    exact hs.charges y hy (hkind.trans hk)
  · obtain ⟨y', hy', -, hreal | hinitial, -⟩ := entering_of_price hp
    · rw [hy, Option.some.injEq] at hy'
      subst hy'
      obtain ⟨-, -, -, -, hkind, -⟩ := Arc.drained_eq_iff.1 hyx
      exact absurd (hreal.symm.trans (hkind.trans hk)) (by decide)
    · rw [hs.phase] at hinitial
      cases hinitial

theorem Restored.pivots (hs : Restored g M s) (h : Pivots s s') : Restored g M s' := by
  induction h with
  | refl => exact hs
  | step _ h ih => exact ih.pivot h

theorem Restored.counters (hs : Restored g M s) (cursor pivots : Nat) (state : SolutionState)
    (hg : g.WellFormed) : Restored g M { s with cursor, pivots, state } :=
  ⟨(stable_basic hg).counters _ _ _ hs.toBasic, hs.phase, hs.charges⟩

/-! ## Artificial arcs that carry flow -/

theorem Sound.natAbs_cost_le (hs : Sound g s) (hg : g.WellFormed) (hphase : s.phase = .optimal) {i : Nat}
    {x : Arc (Signed max)} (hx : s.solution.arcs[i]? = some x) (hk : x.kind = .real) :
    x.cost.val.natAbs ≤ g.maxAbsCost := by
  obtain ⟨a, ha, -⟩ := exists_real_of_base hs.base hs.wellFormed hg hx hk
  rw [hs.cost_of_optimal hphase ha hx hk]
  exact natAbs_le_maxAbsCost (mem_arcs_iff.2 ⟨_, ha⟩)

/-- One at potentials above `θ`, zero at others. -/
def above (p : VertexId → Int) (θ : Int) (v : VertexId) : Int :=
  if p v ≤ θ then 0 else 1

section
variable {R : Type} [CommRing R] [LinearOrder R] [IsStrictOrderedRing R] {y : ArcId → R} {cursor : Nat} {θ : Int}

/-- At the end of the second phase no real arc leads up across a gap, so what lies above it needs nothing if there is a
feasible flow. -/
theorem Restored.worth_above_nonpos (hs : Restored g M s) (hg : g.WellFormed) (hp : s.price = .ok (none, cursor))
    (hgap : ∀ v ∈ g.vertexSet, s.solution.potential v ≤ θ ∨ θ + g.maxAbsCost < s.solution.potential v)
    (hy : g.Feasible y) : g.worth (above s.solution.potential θ) ≤ 0 := by
  refine hy.worth_nonpos hg.toNumbered fun a ha => ?_
  obtain ⟨i, x, -, hx, hk, hsrc, hsnk⟩ := hs.exists_arc hg ha
  have hle := potential_le hs.toBasic (by rw [hs.phase]; decide) hp hx (.inl hk)
  have hcost := hs.natAbs_cost_le hg hs.phase hx hk
  have hcases := hgap x.snk (hs.wellFormed.toNumbered.ends_mem hs.numVertices_eq (mem_arcs_iff.2 ⟨_, hx⟩)).2
  unfold above
  rw [← hsrc, ← hsnk]
  split <;> split <;> omega

end

/-- What an arc carries up across a gap is needed above it, since no arc carries anything down. -/
theorem Restored.flow_le_worth_above (hs : Restored g M s) (hg : g.WellFormed) {θ : Int}
    (hgap : ∀ v ∈ g.vertexSet, s.solution.potential v ≤ θ ∨ θ + g.maxAbsCost < s.solution.potential v)
    (hM : 0 ≤ M.val) {x : Arc (Signed max)} (hx : x ∈ s.solution.arcs.toList)
    (hsrc : s.solution.potential x.src ≤ θ) (hsnk : θ < s.solution.potential x.snk) :
    x.flow.val ≤ g.worth (above s.solution.potential θ) := by
  have hne : s.phase ≠ .setup := by rw [hs.phase]; decide
  have hh := hs.wellFormed.toNumbered
  have hacross : (above s.solution.potential θ x.snk - above s.solution.potential θ x.src) * x.flow.val =
      x.flow.val := by
    rw [above, above, if_pos hsrc, if_neg (Int.not_le.2 hsnk), sub_zero, one_mul]
  rw [(hs.flow hne).worth_eq hh hs.numVertices_eq, ← hacross]
  refine List.single_le_sum (fun d hd => ?_) _ (List.mem_map_of_mem hx)
  obtain ⟨z, hz, rfl⟩ := List.mem_map.1 hd
  obtain ⟨i, hi⟩ := mem_arcs_iff.1 hz
  cases hzt : z.inTree with
  | false => rw [(hs.flow hne).idle hi hzt, mul_zero]
  | true =>
    have hzt := mem_treeArcs_iff.2 ⟨hz, hzt⟩
    have htight := hs.tight hne z hzt
    unfold Arc.Tight at htight
    have hcases := hgap z.src (hh.ends_mem hs.numVertices_eq hz).1
    have hcost : -(g.maxAbsCost : Int) ≤ z.cost.val := by
      cases hk : z.kind with
      | real =>
        have := hs.natAbs_cost_le hg hs.phase hi hk
        omega
      | artificial =>
        rw [hs.charges z hzt hk]
        omega
    refine Int.mul_nonneg ?_ ((hs.flow hne).nonneg hi)
    unfold above
    split <;> split <;> omega

variable {R : Type} [CommRing R] [LinearOrder R] [IsStrictOrderedRing R] {y : ArcId → R} {cursor : Nat}

/-- At the end of the second phase no artificial arc carries flow if there is a feasible flow and no path of real
arcs costs as much as an artificial arc. -/
theorem Restored.artificial_flow_eq_zero (hs : Restored g M s) (hg : g.WellFormed)
    (hlarge : 0 < g.numVertices → ((g.numVertices : Int) - 1) * g.maxAbsCost < M.val)
    (hp : s.price = .ok (none, cursor)) (hy : g.Feasible y) : ∀ x ∈ s.solution.artificialArcs, x.flow.val = 0 := by
  intro x hx
  obtain ⟨hx, hk⟩ := List.mem_filter.1 hx
  have hk : x.kind = .artificial := by simpa [Arc.isArtificial] using hk
  obtain ⟨i, hi⟩ := mem_arcs_iff.1 hx
  have hne : s.phase ≠ .setup := by rw [hs.phase]; decide
  have hflow := hs.flow hne
  by_contra hpos
  have hpos : 0 < x.flow.val := lt_of_le_of_ne (hflow.nonneg hi) (Ne.symm hpos)
  have ht : x ∈ s.solution.treeArcs := by
    refine mem_treeArcs_iff.2 ⟨hx, ?_⟩
    by_contra ht
    rw [hflow.idle hi (by simpa using ht)] at hpos
    exact lt_irrefl _ hpos
  have htight := hs.tight hne x ht
  unfold Arc.Tight at htight
  rw [hs.charges x ht hk] at htight
  obtain ⟨hsrc, hsnk⟩ := hs.wellFormed.toNumbered.ends_mem hs.numVertices_eq hx
  have hn : 0 < g.numVertices := Nat.zero_lt_of_lt (mem_vertexSet_iff.1 hsrc)
  have hM := hlarge hn
  have hM0 : 0 ≤ ((g.numVertices : Int) - 1) * g.maxAbsCost := Int.mul_nonneg (by omega) (by omega)
  -- The potentials of the ends of `x` lie so far apart that there is a gap between them.
  obtain ⟨θ, hlow, hhigh, hgap⟩ := exists_gap (p := s.solution.potential) (c := g.maxAbsCost) hsrc hsnk (by omega)
    (by rw [card_vertexSet]; omega)
  have hworth := hs.worth_above_nonpos hg hp hgap hy
  have hle := hs.flow_le_worth_above hg hgap (by omega) hx hlow (by omega)
  omega

end Simplex

end Transportation
