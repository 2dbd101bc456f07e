import Transportation.Proofs.Simplex.Failures
import Transportation.Proofs.Simplex.Total
import Transportation.Proofs.Simplex.Unbounded
/-!
# Instances that are solved

A solution has a feasible flow (`SolveRun.feasible`), and an instance with a feasible flow is balanced. If along no
directed cycle flow earns anything, and weights and costs are moderate, none of the errors of a solver without a
tolerance remains but that of its limit on pivots (`exists_run_solve_of_feasible`).
-/

namespace Transportation

namespace Network

variable {max : Nat} {R : Type} [CommRing R] [LinearOrder R] [IsStrictOrderedRing R] {g : Network (Signed max)}
  {y : ArcId → R}

/-- What some vertices supply the others demand. -/
theorem Feasible.sum_weights_eq_zero (hy : g.Feasible y) (hg : g.Numbered) : ∑ v ∈ g.vertexSet, g.weightAt v = 0 := by
  have hworth := hy.worth_eq hg fun _ => 1
  simp only [worth, one_mul, sub_self, zero_mul, List.map_const', List.sum_replicate, smul_zero] at hworth
  exact_mod_cast hworth

variable [NeZero max]

/-- Weights that cancel out are not said to be unbalanced. -/
theorem isBalancedWithin_ne_false {zero : Signed max} (hsum : ∑ v ∈ g.vertexSet, g.weightAt v = 0)
    (hz : zero.val = 0) : g.isBalancedWithin zero ≠ .ok false := by
  intro h
  unfold isBalancedWithin at h
  obtain ⟨total, htotal, h⟩ := Checked.bind_eq_ok_iff.1 h
  have htotal : total.val = 0 := (val_of_totalWeight htotal).trans hsum
  split at h
  · obtain ⟨lower, hlower, h⟩ := Checked.bind_eq_ok_iff.1 h
    have hlower := Signed.sub_eq_ok_iff.1 hlower
    have hle := Checked.pure_eq_ok_iff.1 h
    rw [← Bool.not_eq_true, Signed.le_iff] at hle
    rw [Signed.zero_val] at hlower
    omega
  · next hle =>
    rw [Signed.le_iff] at hle
    omega

end Network

namespace Simplex

open Network Checked

variable {max : Nat} [NeZero max] {g : Network (Signed max)} {s s' s₁ t : Simplex (Signed max)}

theorem SolveRun.of_unbalanced (h : SolveRun s (.error .unbalanced) s') :
    s.input.isBalancedWithin s.options.zero = .ok false := by
  cases h with
  | noTree h₁ =>
    generalize hr : (Except.error .unbalanced : Except SolveError Unit) = r at h₁
    cases h₁ with
    | unbalanced hb => exact hb
    | started => split at hr <;> cases hr
  | noFirst h₁ h₂ => rcases h₂.error_eq with h | h | ⟨_, h⟩ <;> cases h
  | infeasible h₁ h₂ hc => rcases hc.error_eq with h | ⟨_, h⟩ <;> cases h
  | noCosts h₁ h₂ hc h₃ => cases h₃.error_eq
  | noSecond h₁ h₂ hc h₃ h₄ => rcases h₄.error_eq with h | h | ⟨_, h⟩ <;> cases h

/-- A solution has a feasible flow, and its value is the cost of that unless it overflows. -/
theorem SolveRun.feasible (hg : g.WellFormed) (hin : s.input = g) (hz : s.options.zero.val = 0) {state : SolutionState}
    (h : SolveRun s (.ok state) s') : g.Feasible s'.solution.flowAt ∧
      ((∃ v, s'.solution.value = .ok v ∧ v.val = g.costOf s'.solution.flowAt) ∨
        ∃ op, s'.solution.value = .error (.overflow op)) := by
  obtain ⟨hs, hphase, hart, -⟩ := basic_of_solveRun hg hin hz h
  have hflow := hs.flow (by rw [hphase]; decide)
  refine ⟨hflow.feasible hs.base hg hs.wellFormed hart, ?_⟩
  cases hv : s'.solution.value with
  | ok v => exact .inl ⟨v, rfl, (hflow.val_of_value hv).trans (costOf_eq hg hs hphase hart).symm⟩
  | error e =>
    obtain ⟨op, rfl⟩ := overflow_of_value hv
    exact .inr ⟨op, rfl⟩

/-- An instance with a feasible flow is not said to be unbalanced. -/
theorem SolveRun.ne_unbalanced {R : Type} [CommRing R] [LinearOrder R] [IsStrictOrderedRing R] {y : ArcId → R}
    (hg : g.WellFormed) (hin : s.input = g) (hz : s.options.zero.val = 0) (hy : g.Feasible y) :
    ¬ SolveRun s (.error .unbalanced) s' := by
  intro h
  have hfalse := h.of_unbalanced
  rw [hin] at hfalse
  exact isBalancedWithin_ne_false (hy.sum_weights_eq_zero hg.toNumbered) hz hfalse

/-- No pivot of the first phase finds the instance unbounded. -/
theorem not_unbounded_of_started (hg : g.WellFormed) (hin : s.input = g) (hz : s.options.zero.val = 0)
    (h₁ : StartRun s.renewed (.ok ()) s₁) (ht : Pivots s₁ t) : ¬ PivotRun t (.error .unbounded) s' := by
  obtain ⟨hphase₁, hs₁⟩ := basic_of_started (s := s.renewed) hg hin hz h₁
  exact ((stable_basic hg).pivots hs₁ ht).not_unbounded_of_initial (ht.constants.2.2.1.trans hphase₁)

/-- A solver finds an instance unbounded only if flow earns something along a directed cycle, provided that artificial
arcs cost more than a path of real arcs. -/
theorem SolveRun.exists_directedCycle (hg : g.WellFormed) (hin : s.input = g) (hz : s.options.zero.val = 0)
    (hlarge : ∀ M, s.artificialCost = .ok M → 0 < g.numVertices →
      ((g.numVertices : Int) - 1) * g.maxAbsCost < M.val)
    (h : SolveRun s (.error .unbounded) s') : ∃ l, g.DirectedCycle l ∧ (l.map fun a => a.cost.val).sum < 0 := by
  obtain ⟨s₁, t, h₁, hpivot, ht | ⟨s₂, n, state, s₃, h₂, -, h₃, ht⟩⟩ := h.of_unbounded
  · exact absurd hpivot (not_unbounded_of_started hg hin hz h₁ ht)
  · obtain ⟨hs₂, -, hcost, -⟩ := basic_of_firstPhase hg hin hz h₁ h₂
    obtain ⟨M, hM⟩ := h₃.artificialCost_eq
    exact ((restored_of_restore hg hs₂ hM h₃).pivots ht).exists_directedCycle hg (hlarge M (hcost ▸ hM)) hpivot

/-- With moderate weights and costs, an instance with a feasible flow in which flow earns nothing along any directed
cycle is solved, unless the limit on pivots is reached. -/
theorem exists_run_solve_of_feasible {R : Type} [CommRing R] [LinearOrder R] [IsStrictOrderedRing R] {y : ArcId → R}
    (hg : g.WellFormed) (hin : s.input = g) (hz : s.options.zero.val = 0) (hM : s.options.artificialCost = none)
    (hcost : g.maxAbsCost < max / (g.numVertices + 1) / g.numVertices) (hdemand : g.totalDemand ≤ max)
    (hsupply : g.totalSupply ≤ max) (hids : g.numArcs + g.numVertices ≤ idLimit) (hy : g.Feasible y)
    (hcycle : ∀ l, g.DirectedCycle l → 0 ≤ (l.map fun a => a.cost.val).sum) :
    ∃ r s', s.run solve = .ok (r, s') ∧ ((∃ state, r = .ok state) ∨ ∃ limit, r = .error (.iterationLimit limit)) := by
  obtain ⟨hn, -, hone, hle⟩ := bounds_of_moderate hcost
  have hf : g.Fits ((g.numVertices * (1 + g.maxAbsCost) : Nat) : Int) := by
    refine ⟨by omega, ?_, hdemand⟩
    norm_cast
    omega
  have hdefault : s.artificialCost = g.defaultArtificialCost := by
    simp only [artificialCost, hM, hin]
  have hvalue : ∀ M, s.artificialCost = .ok M → M.val = ((g.numVertices * (1 + g.maxAbsCost) : Nat) : Int) :=
    fun M h => val_of_moderate hcost (hdefault ▸ h)
  have hlarge : ∀ M, s.artificialCost = .ok M → 0 < g.numVertices →
      ((g.numVertices : Int) - 1) * g.maxAbsCost < M.val := by
    intro M h _
    rw [hvalue M h]
    push_cast
    nlinarith
  obtain ⟨⟨r, s'⟩, h⟩ := FaultsOnly.exists_ok (faultsOnly_solve_of_fits hg hin hz hf hsupply hids (by omega)
    (hdefault ▸ faultsOnly_defaultArtificialCost hcost) fun M h => by
      rw [hvalue M h, abs_of_nonneg (by omega)])
  refine ⟨r, s', h, ?_⟩
  replace h := solveRun_of_run h
  cases r with
  | ok state => exact .inl ⟨state, rfl⟩
  | error e =>
    cases e with
    | iterationLimit limit => exact .inr ⟨limit, rfl⟩
    | unbalanced => exact absurd h (SolveRun.ne_unbalanced hg hin hz hy)
    | infeasible k => exact absurd h (SolveRun.ne_infeasible hg hin hz hlarge hy)
    | unbounded =>
      obtain ⟨l, hl, hneg⟩ := h.exists_directedCycle hg hin hz hlarge
      exact absurd (hcycle l hl) (not_le.2 hneg)
    | noSpanningTree => exact absurd h (not_solveRun hg hin)

end Simplex

end Transportation
