import Transportation.Proofs.Simplex.Artificial
import Transportation.Proofs.Simplex.Solvable
/-!
# Instances with one tree

If an instance has one real arc less than it has vertices, and every feasible flow uses all of them, the real arcs are
the only tree that can carry such a flow (`Basic.realTree_of_rigid`). From the end of the first phase on the tree is
that one, no arc is left that may enter (`final_of_realTree`), and the second phase has nothing to do. So there is only
one answer that a solver can give (`SolveRun.of_rigid`).
-/

namespace Transportation

namespace Network

variable {F : Type} {g h k : Network F}

/-- The tree consists of all real arcs. -/
def RealTree (h : Network F) : Prop :=
  ∀ x ∈ h.arcs.toList, x.inTree = x.isReal

theorem RealTree.congr (ht : h.RealTree)
    (e : k.arcs.map (fun x => (x.kind, x.inTree)) = h.arcs.map fun x => (x.kind, x.inTree)) : k.RealTree := by
  intro x hx
  obtain ⟨i, hi⟩ := mem_arcs_iff.1 hx
  obtain ⟨y, hy, hyx⟩ := exists_of_map_eq e hi
  obtain ⟨hk, hin⟩ := Prod.mk.inj hyx
  have hy := ht y (mem_arcs_iff.2 ⟨i, hy⟩)
  simp only [Arc.isReal] at hy ⊢
  rw [← hin, hy, hk]

/-- All real arcs are in the tree, and no artificial arc is. -/
theorem realTree_iff : h.RealTree ↔ (∀ x ∈ h.realArcs, x.inTree = true) ∧ ∀ x ∈ h.artificialArcs, x.inTree = false := by
  constructor
  · intro ht
    refine ⟨fun x hx => ?_, fun x hx => ?_⟩
    · obtain ⟨hx, hk⟩ := List.mem_filter.1 hx
      rw [ht x hx, hk]
    · obtain ⟨hx, hk⟩ := List.mem_filter.1 hx
      have hk : x.kind = .artificial := by simpa [Arc.isArtificial] using hk
      rw [ht x hx, Arc.isReal, hk]
      decide
  · rintro ⟨hreal, hart⟩ x hx
    cases hk : x.kind with
    | real =>
      rw [hreal x (List.mem_filter.2 ⟨hx, by simp [Arc.isReal, hk]⟩)]
      simp [Arc.isReal, hk]
    | artificial =>
      rw [hart x (List.mem_filter.2 ⟨hx, by simp [Arc.isArtificial, hk]⟩)]
      simp [Arc.isReal, hk]

theorem numTreeArcs_eq_add (hh : h.WellFormed) :
    h.numTreeArcs = h.realArcs.countP Arc.inTree + h.artificialArcs.countP Arc.inTree := by
  rw [numTreeArcs, treeArcs, ← List.countP_eq_length_filter, hh.toList_eq, List.countP_append]

/-- There is one real arc less than there are vertices, and every feasible flow uses all of them. -/
structure Rigid {max : Nat} (g : Network (Signed max)) : Prop where
  count : g.realArcs.length + 1 = g.numVertices
  positive : ∀ y : ArcId → Int, g.Feasible y → ∀ a ∈ g.realArcs, 0 < y a.id

end Network

namespace Simplex

open Network

/-! ## When no arc may enter -/

section
variable {F : Type} [Amount F] {s s' : Simplex F}

/-- There is a tree, and no arc may enter it. -/
structure Final (s : Simplex F) : Prop where
  phase : s.phase ≠ .setup
  inactive : ∀ x ∈ s.solution.arcs.toList, ¬ x.Eligible s.phase

omit [Amount F] in
/-- After the first phase no arc may enter a tree of all real arcs. -/
theorem final_of_realTree (ht : s.solution.RealTree) (hphase : s.phase = .optimal) :
    s.Final := by
  refine ⟨by rw [hphase]; decide, fun x hx he => ?_⟩
  obtain ⟨hout, hk⟩ := he
  have hk : x.kind = .real := hk.resolve_right (by rw [hphase]; decide)
  rw [ht x hx, Arc.isReal, hk] at hout
  exact absurd hout (by decide)

namespace Final

theorem price_ne (hs : s.Final) {c : Candidate F} {cursor : Nat} : s.price ≠ .ok (some c, cursor) := by
  intro hp
  obtain ⟨hr, -⟩ := attractive_of_price (Q := fun _ => True) (fun _ _ => trivial) (fun _ _ => trivial) hp
  obtain ⟨x, _, _, _, hx, hout, hk, -⟩ := reducedCost?_eq_some_iff.1 hr
  exact hs.inactive x (mem_arcs_iff.2 ⟨_, hx⟩) ⟨hout, hk⟩

omit [Amount F] in
theorem withCursor (hs : s.Final) (cursor : Nat) : Final { s with cursor } :=
  ⟨hs.phase, hs.inactive⟩

theorem pivot (hs : s.Final) {r : Except SolveError (Option (Pivot F))} (h : PivotRun s r s') :
    r = .ok none ∧ ∃ cursor, s' = { s with cursor } := by
  cases h with
  | noTree hphase => exact absurd hphase hs.phase
  | optimal => exact ⟨rfl, _, rfl⟩
  | noCycle _ hp | unbounded _ hp | pivoted _ hp => exact absurd hp hs.price_ne

theorem pivots (hs : s.Final) (h : Pivots s s') : ∃ cursor, s' = { s with cursor } := by
  induction h with
  | refl => exact ⟨s.cursor, rfl⟩
  | step ht h ih =>
    obtain ⟨cursor, rfl⟩ := ih
    obtain ⟨-, cursor', rfl⟩ := (hs.withCursor cursor).pivot h
    exact ⟨cursor', rfl⟩

/-- There is nothing to do. -/
theorem optimize (hs : s.Final) {r : Except SolveError Nat} (h : OptimizeRun s r s') :
    (∃ k, r = .ok k) ∧ ∃ cursor, s' = { s with cursor } := by
  cases h with
  | noTree hphase => exact absurd hphase hs.phase
  | optimal ht =>
    obtain ⟨_, rfl⟩ := hs.pivots ht
    exact ⟨⟨_, rfl⟩, _, rfl⟩
  | limited ht hp =>
    obtain ⟨_, rfl⟩ := hs.pivots ht
    exact absurd hp (hs.withCursor _).price_ne
  | failed ht h =>
    obtain ⟨_, rfl⟩ := hs.pivots ht
    cases ((hs.withCursor _).pivot h).1

end Final

theorem RestoreRun.realTree {r : Except SolveError Unit} (h : RestoreRun s r s') (ht : s.solution.RealTree) :
    s'.solution.RealTree := by
  cases h with
  | noTree => exact ht
  | restored _ _ hk hu =>
    obtain ⟨ps, -, rfl⟩ := Incidence.computePotentials_eq_ok_iff.1 hu
    exact ht.congr (map_restore hk fun _ _ => rfl)

end

variable {max : Nat} [NeZero max] {g : Network (Signed max)} {s s' s₁ s₂ s₃ : Simplex (Signed max)} {k : Nat}
  {y : ArcId → Int}

/-! ## The only tree -/

/-- Arcs outside the tree carry nothing. -/
theorem Basic.artificial_flow_of_realTree (hs : Basic g s) (hphase : s.phase ≠ .setup) (ht : s.solution.RealTree) :
    ∀ x ∈ s.solution.artificialArcs, x.flow.val = 0 := by
  intro x hx
  have hout := (realTree_iff.1 ht).2 x hx
  obtain ⟨i, hi⟩ := mem_arcs_iff.1 (List.mem_filter.1 hx).1
  exact (hs.flow hphase).idle hi hout

/-- If no artificial arc carries flow, all real arcs do. So they are in the tree, and then there is no room in it for
artificial arcs. -/
theorem Basic.realTree_of_rigid (hg : g.WellFormed) (hr : g.Rigid) (hs : Basic g s) (hphase : s.phase ≠ .setup)
    (hzero : ∀ x ∈ s.solution.artificialArcs, x.flow.val = 0) : s.solution.RealTree := by
  have hflow := hs.flow hphase
  have hfeasible := hflow.feasible hs.base hg hs.wellFormed hzero
  have hreal : ∀ x ∈ s.solution.realArcs, x.inTree = true := by
    intro x hx
    obtain ⟨hx, hk⟩ := List.mem_filter.1 hx
    have hk : x.kind = .real := by simpa [Arc.isReal] using hk
    obtain ⟨i, hi⟩ := mem_arcs_iff.1 hx
    obtain ⟨a, ha, hframe⟩ := exists_real_of_base hs.base hs.wellFormed hg hi hk
    have hka : a.kind = .real := (Arc.frame_eq_iff.1 hframe).2.2.2.trans hk
    have hpos := hr.positive _ hfeasible a (List.mem_filter.2 ⟨mem_arcs_iff.2 ⟨i, ha⟩, by simp [Arc.isReal, hka]⟩)
    rw [hg.arc_id ha, flowAt_eq hi] at hpos
    by_contra hout
    rw [hflow.idle hi (Bool.eq_false_iff.2 hout)] at hpos
    exact lt_irrefl _ hpos
  refine realTree_iff.2 ⟨hreal, fun x hx => Bool.eq_false_iff.2 ?_⟩
  have hcount := (hs.tree hphase).count
  have hall : s.solution.realArcs.countP Arc.inTree = g.realArcs.length := by
    rw [List.countP_eq_length.2 hreal]
    simpa [base] using congrArg (·.2.2.2.length) hs.base
  rw [numTreeArcs_eq_add hs.wellFormed, hall, hs.numVertices_eq, ← hr.count, Nat.add_sub_cancel] at hcount
  exact List.countP_eq_zero.1 (Nat.add_eq_left.1 hcount) x hx

/-- If there are no artificial arcs in the tree, the check between the phases finds nothing wrong. -/
theorem Basic.eq_optimal_of_check (hs : Basic g s) (hphase : s.phase = .initial) (ht : s.solution.RealTree)
    {state : SolutionState} (hc : CheckRun s (.ok state)) : state = .optimal := by
  generalize hr : (Except.ok state : Except SolveError SolutionState) = r at hc
  cases hc with
  | noTree | infeasible => cases hr
  | feasible _ ha _ hstate =>
    rw [artificialLoads_eq hs.toSound hphase hs.exact, Except.ok.injEq] at ha
    obtain rfl := Except.ok.inj hr
    rw [hstate, if_neg]
    rw [← ha, List.countP_map, Nat.not_lt_eq, Nat.le_zero, List.countP_eq_zero]
    intro x hx
    simp [(realTree_iff.1 ht).2 x hx]

/-- The first phase ends with the only tree. -/
theorem realTree_of_firstPhase (hg : g.WellFormed) (hr : g.Rigid) (hy : g.Feasible y) (hin : s.input = g)
    (hz : s.options.zero.val = 0) (h₁ : StartRun s.renewed (.ok ()) s₁) (h₂ : OptimizeRun s₁ (.ok k) s₂) :
    Basic g s₂ ∧ s₂.phase = .initial ∧ s₂.solution.RealTree := by
  obtain ⟨hs₂, hphase₂, -, t, cursor, ht, hphase, hsolution, hp⟩ := basic_of_firstPhase hg hin hz h₁ h₂
  have hzero := artificial_flow_eq_zero hg ht hphase hp hy
  exact ⟨hs₂, hphase₂, hs₂.realTree_of_rigid hg hr (by rw [hphase₂]; decide) (hsolution ▸ hzero)⟩

/-- The second phase begins with the only tree, and with nothing to do. -/
theorem final_of_secondPhase (hg : g.WellFormed) (hr : g.Rigid) (hy : g.Feasible y) (hin : s.input = g)
    (hz : s.options.zero.val = 0) (h₁ : StartRun s.renewed (.ok ()) s₁) (h₂ : OptimizeRun s₁ (.ok k) s₂)
    (h₃ : RestoreRun s₂ (.ok ()) s₃) : Basic g s₃ ∧ s₃.phase = .optimal ∧ s₃.solution.RealTree ∧ s₃.Final := by
  obtain ⟨hs₂, -, ht⟩ := realTree_of_firstPhase hg hr hy hin hz h₁ h₂
  have ht₃ := h₃.realTree ht
  exact ⟨(stable_basic hg).restore hs₂ h₃, h₃.phase_eq, ht₃, final_of_realTree ht₃ h₃.phase_eq⟩

/-- A solver of an instance with one tree finds it, unless it reaches its limit on pivots. -/
theorem SolveRun.of_rigid (hg : g.WellFormed) (hr : g.Rigid) (hy : g.Feasible y) (hin : s.input = g)
    (hz : s.options.zero.val = 0) {r : Except SolveError SolutionState} (h : SolveRun s r s') :
    (∃ limit, r = .error (.iterationLimit limit)) ∨ (r = .ok .optimal ∧ s'.solution.RealTree) := by
  cases r with
  | ok state =>
    cases h with
    | solved h₁ h₂ hc h₃ h₄ hn =>
      obtain ⟨hs₂, hphase₂, ht⟩ := realTree_of_firstPhase hg hr hy hin hz h₁ h₂
      obtain rfl := hs₂.eq_optimal_of_check hphase₂ ht hc
      obtain ⟨-, -, ht₃, hfinal⟩ := final_of_secondPhase hg hr hy hin hz h₁ h₂ h₃
      obtain ⟨-, cursor, rfl⟩ := hfinal.optimize h₄
      exact .inr ⟨rfl, ht₃⟩
  | error e =>
    cases e with
    | iterationLimit limit => exact .inl ⟨limit, rfl⟩
    | noSpanningTree => exact absurd h (not_solveRun hg hin)
    | unbalanced => exact absurd h (SolveRun.ne_unbalanced hg hin hz hy)
    | unbounded =>
      obtain ⟨s₁, t, h₁, hpivot, ht | ⟨s₂, n, state, s₃, h₂, hc, h₃, ht⟩⟩ := h.of_unbounded
      · exact absurd hpivot (not_unbounded_of_started hg hin hz h₁ ht)
      · obtain ⟨-, -, -, hfinal⟩ := final_of_secondPhase hg hr hy hin hz h₁ h₂ h₃
        obtain ⟨cursor, rfl⟩ := hfinal.pivots ht
        cases ((hfinal.withCursor cursor).pivot hpivot).1
    | infeasible k =>
      obtain ⟨s₁, s₂, n, h₁, h₂, hc | ⟨s₃, n', h₃, h₄, hn⟩⟩ := h.of_infeasible
      · obtain ⟨hs₂, hphase₂, ht⟩ := realTree_of_firstPhase hg hr hy hin hz h₁ h₂
        have hzero := hs₂.artificial_flow_of_realTree (by rw [hphase₂]; decide) ht
        exact absurd hc (hs₂.not_infeasible_of_check hphase₂ hzero)
      · obtain ⟨hs₃, hphase₃, ht₃, hfinal⟩ := final_of_secondPhase hg hr hy hin hz h₁ h₂ h₃
        obtain ⟨-, cursor, rfl⟩ := hfinal.optimize h₄
        have hzero := hs₃.artificial_flow_of_realTree (by rw [hphase₃]; decide) ht₃
        exact absurd hn (Nat.not_lt.2 (numCarryingArtificialArcs_eq_zero hs₃.exact hzero).le)

end Simplex

end Transportation
