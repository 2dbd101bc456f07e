import Transportation.Proofs.Simplex.SecondPhase
/-!
# Instances said to be infeasible

A solver without a tolerance says that an instance is infeasible after the first phase only if it is, and after the
second phase only if artificial arcs cost too little. So it does not say that of an instance with a feasible flow if
the artificial cost is more than a path of real arcs can cost (`solve_ne_infeasible`). The default artificial cost
may be capped, and then it can be too small (`infeasible_of_capped`); it is large enough if the cap is
(`no_feasible_of_infeasible`).
-/

namespace Transportation

open Network

namespace Simplex

variable {max : Nat} [NeZero max] {g : Network (Signed max)} {s s' s₁ s₂ s₃ : Simplex (Signed max)} {M : Signed max}
  {k : Nat}

/-! ## The stages of a computation -/

/-- The first phase ends by itself in a state in which no arc may enter, up to the cursor. -/
theorem basic_of_firstPhase (hg : g.WellFormed) (hin : s.input = g) (hz : s.options.zero.val = 0)
    (h₁ : StartRun s.renewed (.ok ()) s₁) (h₂ : OptimizeRun s₁ (.ok k) s₂) :
    Basic g s₂ ∧ s₂.phase = .initial ∧ s₂.artificialCost = s.artificialCost ∧ ∃ t cursor, Basic g t ∧
      t.phase = .initial ∧ t.solution = s₂.solution ∧ t.price = .ok (none, cursor) := by
  obtain ⟨hphase₁, hs₁⟩ := basic_of_started (s := s.renewed) hg hin hz h₁
  obtain ⟨hs₂, hphase₂, t, cursor, ht, hphase, hsolution, hp⟩ := hs₁.of_optimizeRun hg h₂
  rw [hphase₁] at hphase₂ hphase
  obtain ⟨hi₁, ho₁⟩ := h₁.constants
  obtain ⟨hi₂, ho₂⟩ := h₂.constants
  have hcost : s₂.artificialCost = s.artificialCost := by
    simp only [artificialCost, hi₂, hi₁, ho₂, ho₁, renewed]
  exact ⟨hs₂, hphase₂, hcost, t, cursor, ht, hphase, hsolution, hp⟩

/-- The second phase ends by itself in a state in which no arc may enter, up to the cursor. -/
theorem Restored.of_optimizeRun (hg : g.WellFormed) (hs : Restored g M s) (h : OptimizeRun s (.ok k) s') :
    Restored g M s' ∧ ∃ t cursor, Restored g M t ∧ t.solution = s'.solution ∧ t.price = .ok (none, cursor) := by
  cases h with
  | optimal ht hp =>
    have hs' := hs.pivots ht
    exact ⟨hs'.counters _ _ _ hg, _, _, hs', rfl, hp⟩

/-- The check between the phases goes well if artificial arcs carry nothing. -/
theorem Basic.not_infeasible_of_check (hs : Basic g s) (hphase : s.phase = .initial)
    (hzero : ∀ x ∈ s.solution.artificialArcs, x.flow.val = 0) : ¬ CheckRun s (.error (.infeasible k)) := by
  intro h
  generalize hr : (Except.error (.infeasible k) : Except SolveError SolutionState) = r at h
  cases h with
  | noTree | feasible => cases hr
  | infeasible _ ha hcount =>
    rw [artificialLoads_eq hs.toSound hphase hs.exact, Except.ok.injEq] at ha
    rw [← ha, List.countP_map, List.countP_pos_iff] at hcount
    obtain ⟨x, hx, hcarries⟩ := hcount
    have hpos : 0 < x.flow.val := by simpa using hcarries
    rw [hzero x hx] at hpos
    exact lt_irrefl _ hpos

theorem numCarryingArtificialArcs_eq_zero (hz : s.options.zero.val = 0)
    (hzero : ∀ x ∈ s.solution.artificialArcs, x.flow.val = 0) : s.numCarryingArtificialArcs = 0 := by
  refine List.countP_eq_zero.2 fun x hx => ?_
  rw [Signed.lt_iff, hz, hzero x hx]
  exact lt_irrefl _

section
variable {R : Type} [CommRing R] [LinearOrder R] [IsStrictOrderedRing R] {y : ArcId → R}

/-- A solver of an instance with a feasible flow does not find artificial arcs that carry flow after a phase. -/
theorem SolveRun.ne_infeasible (hg : g.WellFormed) (hin : s.input = g) (hz : s.options.zero.val = 0)
    (hlarge : ∀ M, s.artificialCost = .ok M → 0 < g.numVertices →
      ((g.numVertices : Int) - 1) * g.maxAbsCost < M.val)
    (hy : g.Feasible y) : ¬ SolveRun s (.error (.infeasible k)) s' := by
  intro h
  obtain ⟨s₁, s₂, n, h₁, h₂, hc | ⟨s₃, n', h₃, h₄, hn⟩⟩ := h.of_infeasible
  all_goals
    obtain ⟨hs₂, hphase₂, hcost, t, cursor, ht, hphase, hsolution, hp⟩ := basic_of_firstPhase hg hin hz h₁ h₂
  · exact hs₂.not_infeasible_of_check hphase₂ (hsolution ▸ artificial_flow_eq_zero hg ht hphase hp hy) hc
  · obtain ⟨M, hM⟩ := h₃.artificialCost_eq
    obtain ⟨hs₄, t, cursor, ht, hsolution, hp⟩ := (restored_of_restore hg hs₂ hM h₃).of_optimizeRun hg h₄
    have hzero := ht.artificial_flow_eq_zero hg (hlarge M (hcost ▸ hM)) hp hy
    rw [numCarryingArtificialArcs_eq_zero hs₄.exact (hsolution ▸ hzero)] at hn
    exact lt_irrefl _ hn

end

variable {R : Type} [CommRing R] [LinearOrder R] [IsStrictOrderedRing R] {y : ArcId → R}

/-- If artificial arcs cost more than a path of real arcs can cost, a solver without a tolerance does not say that an
instance with a feasible flow is infeasible: when the second phase has ended by itself, no artificial arc carries
flow. -/
theorem solve_ne_infeasible (b : Builder (Signed max)) {r : Except SolveError SolutionState}
    (hin : s.input = b.network) (hz : s.options.zero = Amount.zero)
    (hlarge : ∀ M, s.artificialCost = .ok M → ((b.numVertices : Int) - 1) * b.network.maxAbsCost < M.val)
    (hy : b.network.Feasible y) (h : s.run solve = .ok (r, s')) :
    (∀ k, r ≠ .error (.infeasible k)) ∧
      ∀ state, r = .ok state → ∀ x ∈ s'.solution.artificialArcs, x.flow.val = 0 := by
  have hg := wellFormed_network b
  have hz : s.options.zero.val = 0 := by rw [hz]; rfl
  have h := solveRun_of_run h
  constructor
  · rintro k rfl
    refine h.ne_infeasible hg hin hz (fun M hM _ => ?_) hy
    rw [numVertices_network]
    exact hlarge M hM
  · rintro state rfl
    exact (basic_of_solveRun hg hin hz h).2.2.1

theorem solve_ne_infeasible_of_relay : ∃ s' : Simplex Signed8,
    (new Builder.relay.network).input = Builder.relay.network ∧
    (new Builder.relay.network).options.zero = Amount.zero ∧
    (∀ M, (new Builder.relay.network).artificialCost = .ok M →
      ((Builder.relay.numVertices : Int) - 1) * Builder.relay.network.maxAbsCost < M.val) ∧
    Builder.relay.network.Feasible (fun _ => (3 : Int)) ∧
    (new Builder.relay.network).run solve = .ok (.ok .optimal, s') ∧
    (∀ k, (Except.ok .optimal : Except SolveError SolutionState) ≠ .error (.infeasible k)) ∧
      ∀ state, (Except.ok .optimal : Except SolveError SolutionState) = .ok state →
        ∀ x ∈ s'.solution.artificialArcs, x.flow.val = 0 := by
  have hlarge : ∀ M, (new Builder.relay.network).artificialCost = .ok M →
      ((Builder.relay.numVertices : Int) - 1) * Builder.relay.network.maxAbsCost < M.val := by
    intro M hM
    rw [show (new Builder.relay.network).artificialCost = .ok (.ofNat 9 (by decide)) by decide +kernel,
      Except.ok.injEq] at hM
    subst hM
    decide +kernel
  have hy : Builder.relay.network.Feasible (fun _ => (3 : Int)) := by decide +kernel
  have h : (new Builder.relay.network).run solve = .ok (.ok .optimal, (new Builder.relay.network).after solve) := by
    decide +kernel
  exact ⟨_, rfl, rfl, hlarge, hy, h, solve_ne_infeasible Builder.relay rfl rfl hlarge hy h⟩

/-! ## The default artificial cost -/

end Simplex

/-- A builder of an instance whose only way from supply to demand is dear. -/
def Builder.detour : Builder Signed8 where
  name := "detour"
  weights := #[.one, .minusOne, .zero]
  links := #[⟨⟨2⟩, ⟨0⟩, .one⟩, ⟨⟨1⟩, ⟨0⟩, .ofNat 40 (by decide)⟩]
  joins l hl := by
    obtain rfl | rfl : l = _ ∨ l = _ := by simpa using hl
    all_goals exact ⟨by decide, by decide, by decide⟩

namespace Simplex

variable {max : Nat} [NeZero max] {s s' : Simplex (Signed max)} {k : Nat}

/-- The default artificial cost is capped at less than the detour costs, and then that is said not to exist. -/
theorem infeasible_of_capped :
    ((new Builder.detour.network).options.artificialCost = none ∧
      (new Builder.detour.network).options.zero = Amount.zero) ∧
    (∃ s', (new Builder.detour.network).run solve = .ok (.error (.infeasible 1), s')) ∧
    Builder.detour.network.Feasible fun a => if a = ⟨1⟩ then (1 : Int) else 0 := by
  have h : (new Builder.detour.network).run solve =
      .ok (.error (.infeasible 1), (new Builder.detour.network).after solve) := by
    decide +kernel
  exact ⟨⟨rfl, rfl⟩, ⟨_, h⟩, by decide +kernel⟩

/-- If the cap of the default artificial cost is more than a path of real arcs can cost, a solver without a tolerance
that says that the instance is infeasible is right. -/
theorem no_feasible_of_infeasible (R : Type) [CommRing R] [LinearOrder R] [IsStrictOrderedRing R]
    (b : Builder (Signed max)) (hin : s.input = b.network) (hz : s.options.zero = Amount.zero)
    (hM : s.options.artificialCost = none)
    (hcap : (b.numVertices - 1) * b.network.maxAbsCost < max / (b.numVertices + 1))
    (h : s.run solve = .ok (.error (.infeasible k), s')) : ¬ ∃ y : ArcId → R, b.network.Feasible y := by
  rintro ⟨y, hy⟩
  have hz : s.options.zero.val = 0 := by rw [hz]; rfl
  refine (solveRun_of_run h).ne_infeasible (wellFormed_network b) hin hz (fun M hM' hn => ?_) hy
  simp only [artificialCost, hM, hin] at hM'
  refine lt_defaultArtificialCost hn ?_ hM'
  rw [numVertices_network]
  exact hcap

end Simplex

/-- A builder of an instance whose only arc leads the wrong way. -/
def Builder.stranded : Builder Signed8 where
  name := "stranded"
  weights := #[.minusOne, .one]
  links := #[⟨⟨1⟩, ⟨0⟩, .one⟩]
  joins l hl := by
    obtain rfl : l = _ := by simpa using hl
    exact ⟨by decide, by decide, by decide⟩

namespace Simplex

theorem no_feasible_of_stranded : ∃ s' : Simplex Signed8,
    (new Builder.stranded.network).input = Builder.stranded.network ∧
    (new Builder.stranded.network).options.zero = Amount.zero ∧
    (new Builder.stranded.network).options.artificialCost = none ∧
    (Builder.stranded.numVertices - 1) * Builder.stranded.network.maxAbsCost <
      127 / (Builder.stranded.numVertices + 1) ∧
    (new Builder.stranded.network).run solve = .ok (.error (.infeasible 1), s') ∧
    ¬ ∃ y : ArcId → Int, Builder.stranded.network.Feasible y := by
  have hcap : (Builder.stranded.numVertices - 1) * Builder.stranded.network.maxAbsCost <
      127 / (Builder.stranded.numVertices + 1) := by
    decide +kernel
  have h : (new Builder.stranded.network).run solve =
      .ok (.error (.infeasible 1), (new Builder.stranded.network).after solve) := by
    decide +kernel
  exact ⟨_, rfl, rfl, rfl, hcap, h, no_feasible_of_infeasible Int Builder.stranded rfl rfl rfl hcap h⟩

end Simplex

end Transportation
