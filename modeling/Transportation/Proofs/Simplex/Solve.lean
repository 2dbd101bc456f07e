import Transportation.Proofs.Simplex.Demand
import Transportation.Proofs.Simplex.Optimal
/-!
# Both phases

The first phase finds a feasible flow if there is one (`check_iff_no_feasible`). If a solver without a tolerance
says that it has solved the instance, its flow is feasible and no feasible flow costs less (`solve_optimal`).
-/

namespace Transportation.Simplex

open Network

variable {max : Nat} [NeZero max] {g : Network (Signed max)} {s s' s₁ s₂ : Simplex (Signed max)}

/-! ## The first phase -/

/-- An artificial arc costs one in the first phase, so its cost is what it carries. -/
theorem artificialLoads_eq (hs : Sound g s) (hphase : s.phase = .initial) (hz : s.options.zero.val = 0) :
    s.artificialLoads = .ok (s.solution.artificialArcs.map fun x => (x.inTree, decide (0 < x.flow.val))) := by
  refine Checked.mapM_of_forall fun x hx => ?_
  obtain ⟨hx, hk⟩ := List.mem_filter.1 hx
  have hk : x.kind = .artificial := by simpa [Arc.isArtificial] using hk
  obtain ⟨i, hi⟩ := mem_arcs_iff.1 hx
  have hmul : Amount.mul x.cost x.flow = .ok x.flow := by
    rw [Signed.mul_eq_ok_iff, hs.cost_of_initial hphase hi, if_pos hk, one_mul]
  rw [hmul]
  have hlt : Amount.lt s.options.zero x.flow = decide (0 < x.flow.val) := by
    rw [Bool.eq_iff_iff, Signed.lt_iff, hz, decide_eq_true_iff]
  rw [← hlt]
  rfl

/-- After a first phase that has ended by itself, the check fails exactly if artificial arcs carry flow. -/
theorem check_eq (hs : Sound g s) (hphase : s.phase = .initial) (hz : s.options.zero.val = 0) :
    ∃ r, s.run checkStart = .ok (r, s) ∧
      (((∃ n, r = .error (.infeasible n)) ∧ ∃ x ∈ s.solution.artificialArcs, 0 < x.flow.val) ∨
        ((∃ state, r = .ok state) ∧ ∀ x ∈ s.solution.artificialArcs, ¬ 0 < x.flow.val)) := by
  have hne : s.phase ≠ .setup := by rw [hphase]; decide
  have hloads := artificialLoads_eq hs hphase hz
  obtain ⟨r, hr⟩ := exists_run_checkStart hne hloads
  refine ⟨r, hr, ?_⟩
  cases (checkRun_of_run hr).1 with
  | noTree h => exact absurd h hne
  | infeasible _ ha hc =>
    rw [hloads, Except.ok.injEq] at ha
    rw [← ha, List.countP_map, List.countP_pos_iff] at hc
    obtain ⟨x, hx, hcarries⟩ := hc
    exact .inl ⟨⟨_, rfl⟩, x, hx, by simpa using hcarries⟩
  | feasible _ ha hc _ =>
    rw [hloads, Except.ok.injEq] at ha
    rw [← ha, List.countP_map, List.countP_eq_zero] at hc
    exact .inr ⟨⟨_, rfl⟩, fun x hx => by simpa using hc x hx⟩

/-- The state in which a solver without a tolerance ends a phase, with the price that has ended it. -/
theorem Basic.of_optimizeRun (hg : g.WellFormed) (hs : Basic g s) {k : Nat} (h : OptimizeRun s (.ok k) s') :
    Basic g s' ∧ s'.phase = s.phase ∧ ∃ t cursor, Basic g t ∧ t.phase = s.phase ∧ t.solution = s'.solution ∧
      t.price = .ok (none, cursor) := by
  cases h with
  | optimal ht hp =>
    have hbasic := (stable_basic hg).pivots hs ht
    have hphase := ht.constants.2.2.1
    exact ⟨(stable_basic hg).counters _ _ _ hbasic, hphase, _, _, hbasic, hphase, rfl, hp⟩

variable (R : Type) [CommRing R] [LinearOrder R] [IsStrictOrderedRing R]

/-- When the first phase has begun and ended by itself, the check fails exactly if there is no feasible flow.
Otherwise the flow found is feasible. -/
theorem check_iff_no_feasible (b : Builder (Signed max)) {k : Nat} (hin : s.input = b.network)
    (hz : s.options.zero = Amount.zero) (h₁ : s.run start = .ok (.ok (), s₁))
    (h₂ : s₁.run optimize = .ok (.ok k, s₂)) :
    ∃ r, s₂.run checkStart = .ok (r, s₂) ∧
      ((∃ n, r = .error (.infeasible n)) ↔ ¬ ∃ y : ArcId → R, b.network.Feasible y) ∧
      ((∀ n, r ≠ .error (.infeasible n)) → (∃ state, r = .ok state) ∧ b.network.Feasible s₂.solution.flowAt) := by
  have hg := wellFormed_network b
  have hz : s.options.zero.val = 0 := by rw [hz]; rfl
  obtain ⟨h, -⟩ | ⟨-, hphase₁, hs₁⟩ := basic_of_start hg hin hz (startRun_of_run h₁)
  · cases h
  obtain ⟨hs₂, hphase₂, t, cursor, ht, hphase, hsolution, hp⟩ := hs₁.of_optimizeRun hg (optimizeRun_of_run h₂)
  rw [hphase₁] at hphase₂ hphase
  have hflow := hs₂.flow (by rw [hphase₂]; decide)
  have hzero : ∀ {y : ArcId → R}, b.network.Feasible y → ∀ x ∈ s₂.solution.artificialArcs, x.flow.val = 0 :=
    fun hy => hsolution ▸ artificial_flow_eq_zero hg ht hphase hp hy
  obtain ⟨r, hr, h | h⟩ := check_eq hs₂.toSound hphase₂ hs₂.exact
  · obtain ⟨⟨n, rfl⟩, x, hx, hpos⟩ := h
    refine ⟨_, hr, ⟨fun _ ⟨y, hy⟩ => ?_, fun _ => ⟨n, rfl⟩⟩, fun h => absurd rfl (h n)⟩
    rw [hzero hy x hx] at hpos
    exact lt_irrefl _ hpos
  · obtain ⟨⟨state, rfl⟩, hnone⟩ := h
    have hfeasible : b.network.Feasible s₂.solution.flowAt := by
      refine hflow.feasible hs₂.base hg hs₂.wellFormed fun x hx => ?_
      obtain ⟨i, hi⟩ := mem_arcs_iff.1 (List.mem_filter.1 hx).1
      have := hflow.nonneg hi
      have := hnone x hx
      omega
    refine ⟨_, hr, ⟨fun ⟨n, h⟩ => (by cases h), fun h => absurd ⟨_, hfeasible.cast⟩ h⟩, fun _ => ⟨⟨_, rfl⟩, hfeasible⟩⟩

theorem check_of_relay : ∃ s₁ s₂ : Simplex Signed8,
    (new Builder.relay.network).input = Builder.relay.network ∧
    (new Builder.relay.network).options.zero = Amount.zero ∧
    (new Builder.relay.network).run start = .ok (.ok (), s₁) ∧ s₁.run optimize = .ok (.ok 2, s₂) ∧
    ∃ r, s₂.run checkStart = .ok (r, s₂) ∧
      ((∃ n, r = .error (.infeasible n)) ↔ ¬ ∃ y : ArcId → Int, Builder.relay.network.Feasible y) ∧
      ((∀ n, r ≠ .error (.infeasible n)) →
        (∃ state, r = .ok state) ∧ Builder.relay.network.Feasible s₂.solution.flowAt) := by
  have h₁ : (new Builder.relay.network).run start = .ok (.ok (), (new Builder.relay.network).after start) := by
    decide +kernel
  have h₂ : ((new Builder.relay.network).after start).run optimize =
      .ok (.ok 2, ((new Builder.relay.network).after start).after optimize) := by
    decide +kernel
  exact ⟨_, _, rfl, rfl, h₁, h₂, check_iff_no_feasible Int Builder.relay rfl rfl h₁ h₂⟩

/-! ## The second phase -/

/-- The state in which a solver without a tolerance ends with success: the second phase has ended by itself, and no
artificial arc carries flow. -/
theorem basic_of_solveRun (hg : g.WellFormed) (hin : s.input = g) (hz : s.options.zero.val = 0)
    {state : SolutionState} (h : SolveRun s (.ok state) s') :
    Basic g s' ∧ s'.phase = .optimal ∧ (∀ x ∈ s'.solution.artificialArcs, x.flow.val = 0) ∧
      ∃ t cursor, Basic g t ∧ t.phase = .optimal ∧ t.solution = s'.solution ∧ t.price = .ok (none, cursor) := by
  cases h with
  | @solved s₁ s₂ s₃ s₄ k k' _ h₁ h₂ hc h₃ h₄ hn =>
    obtain ⟨hphase₁, hs₁⟩ := basic_of_started (s := s.renewed) hg hin hz h₁
    have hs₃ := (stable_basic hg).restore ((stable_basic hg).optimize hs₁ h₂) h₃
    obtain ⟨hs₄, hphase₄, t, cursor, ht, hphase, hsolution, hp⟩ := hs₃.of_optimizeRun hg h₄
    rw [h₃.phase_eq] at hphase₄ hphase
    refine ⟨(stable_basic hg).counters _ _ _ hs₄, hphase₄, fun x hx => ?_, t, cursor, ht, hphase, hsolution, hp⟩
    have hle := List.countP_eq_zero.1 hn x hx
    rw [Signed.lt_iff, hs₄.exact] at hle
    obtain ⟨i, hi⟩ := mem_arcs_iff.1 (List.mem_filter.1 hx).1
    have := (hs₄.flow (by rw [hphase₄]; decide)).nonneg hi
    omega

/-- The costs of a working copy in the second phase are those of the instance. -/
theorem costOf_eq (hg : g.WellFormed) (hs : Basic g s) (hphase : s.phase = .optimal)
    (hart : ∀ x ∈ s.solution.artificialArcs, x.flow.val = 0) :
    g.costOf s.solution.flowAt = (s.solution.arcs.toList.map fun x => x.cost.val * x.flow.val).sum := by
  rw [← sum_realArcs hs.wellFormed fun x hx => by rw [hart x hx, mul_zero], costOf]
  congr 1
  refine map_realArcs_eq hs.base hg hs.wellFormed fun {i a x} ha hx hk hframe => ?_
  have hkx : x.kind = .real := (Arc.frame_eq_iff.1 hframe).2.2.2.trans hk
  rw [hg.arc_id ha, flowAt_eq hx, hs.cost_of_optimal hphase ha hx hkx, Int.cast_id]

/-- A solver without a tolerance that says it has solved the instance has. Its working copy has the vertices and the
real arcs of the instance, no arc carries less than nothing and no artificial arc carries anything, all weights are
met, no feasible flow costs less, and the value is the cost of the flow unless it overflows. -/
theorem solve_optimal (b : Builder (Signed max)) {state : SolutionState} (hin : s.input = b.network)
    (hz : s.options.zero = Amount.zero) (h : s.run solve = .ok (.ok state, s')) :
    s'.solution.base = b.network.base ∧
      (∀ x ∈ s'.solution.arcs.toList, 0 ≤ x.flow.val ∧ (x.kind = .artificial → x.flow.val = 0)) ∧
      (∀ (v : VertexId) (w : Vertex (Signed max)), b.network.vertices[v.index]? = some w →
        s'.solution.net v = w.weight.val ∧
          (s'.solution.excess v = .ok w.weight ∨ ∃ op, s'.solution.excess v = .error (.overflow op)) ∧
          (b.network.totalDemand ≤ max → s'.solution.excess v = .ok w.weight)) ∧
      b.network.Feasible s'.solution.flowAt ∧
      (∀ y : ArcId → R, b.network.Feasible y →
        ((b.network.costOf s'.solution.flowAt : Int) : R) ≤ b.network.costOf y) ∧
      ((∃ v, s'.solution.value = .ok v ∧ v.val = b.network.costOf s'.solution.flowAt) ∨
        ∃ op, s'.solution.value = .error (.overflow op)) := by
  have hg := wellFormed_network b
  have hz : s.options.zero.val = 0 := by rw [hz]; rfl
  obtain ⟨hs, hphase, hart, t, cursor, ht, htphase, hsolution, hp⟩ :=
    basic_of_solveRun hg hin hz (solveRun_of_run h)
  have hne : s'.phase ≠ .setup := by rw [hphase]; decide
  have hflow := hs.flow hne
  have hcost := costOf_eq hg hs hphase hart
  refine ⟨hs.base, fun x hx => ?_, fun v w hw => excess_of_basicFlow (hs.tree hne) hflow hs.numVertices_eq hw,
    hflow.feasible hs.base hg hs.wellFormed hart, fun y hy => ?_, ?_⟩
  · obtain ⟨i, hi⟩ := mem_arcs_iff.1 hx
    exact ⟨hflow.nonneg hi, fun hk => hart x (List.mem_filter.2 ⟨hx, by simp [Arc.isArtificial, hk]⟩)⟩
  · rw [hcost, hflow.cost_eq (hs.tight hne) hs.wellFormed.toNumbered hs.numVertices_eq, ← hsolution]
    exact worth_le_costOf hg ht htphase hp hy
  · cases hv : s'.solution.value with
    | ok v =>
      refine .inl ⟨v, rfl, ?_⟩
      rw [hcost, val_of_value hv, treeArcs]
      refine sum_map_filter Arc.inTree fun x hx hxt => ?_
      obtain ⟨i, hi⟩ := mem_arcs_iff.1 hx
      rw [hflow.idle hi hxt, mul_zero]
    | error e =>
      obtain ⟨op, rfl⟩ := overflow_of_value hv
      exact .inr ⟨op, rfl⟩

theorem solve_of_relay : ∃ s' : Simplex Signed8,
    (new Builder.relay.network).input = Builder.relay.network ∧
    (new Builder.relay.network).options.zero = Amount.zero ∧
    (new Builder.relay.network).run solve = .ok (.ok .optimal, s') ∧
    s'.solution.base = Builder.relay.network.base ∧
      (∀ x ∈ s'.solution.arcs.toList, 0 ≤ x.flow.val ∧ (x.kind = .artificial → x.flow.val = 0)) ∧
      (∀ (v : VertexId) (w : Vertex Signed8), Builder.relay.network.vertices[v.index]? = some w →
        s'.solution.net v = w.weight.val ∧
          (s'.solution.excess v = .ok w.weight ∨ ∃ op, s'.solution.excess v = .error (.overflow op)) ∧
          (Builder.relay.network.totalDemand ≤ 127 → s'.solution.excess v = .ok w.weight)) ∧
      Builder.relay.network.Feasible s'.solution.flowAt ∧
      (∀ y : ArcId → Int, Builder.relay.network.Feasible y →
        ((Builder.relay.network.costOf s'.solution.flowAt : Int) : Int) ≤ Builder.relay.network.costOf y) ∧
      ((∃ v, s'.solution.value = .ok v ∧ v.val = Builder.relay.network.costOf s'.solution.flowAt) ∨
        ∃ op, s'.solution.value = .error (.overflow op)) := by
  have h : (new Builder.relay.network).run solve = .ok (.ok .optimal, (new Builder.relay.network).after solve) := by
    decide +kernel
  exact ⟨_, rfl, rfl, h, solve_optimal Int Builder.relay rfl rfl h⟩

end Transportation.Simplex
