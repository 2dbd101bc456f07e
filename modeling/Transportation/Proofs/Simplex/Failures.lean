import Transportation.Proofs.Double.Order
import Transportation.Proofs.Simplex.Overflow
import Transportation.Proofs.Simplex.Uphill
/-!
# Failures that do not happen

An operation that needs a tree fails for want of one in the setup, and never later: a cycle is always found, and the
potentials of all vertices are (`Sound.setup_of_pivot` and the lemmas like it). What else could go wrong does not, but
for overflows.
-/

namespace Transportation.Simplex

open Network Checked

variable {F : Type} [Amount F] {g : Network F} {s s' : Simplex F}

/-- The operation ends with the error `e`. -/
def Fails {α : Type} (s : Simplex F) (op : SolverM F α) (e : SolveError) : Prop :=
  ∃ s', s.run op = .ok (.error e, s')

/-! ## Without a tree -/

omit [Amount F] in
theorem fails_of_setup {α : Type} (f : Unit → SolverM F α) (hs : s.phase = .setup) :
    s.Fails (requireTree >>= f) .noSpanningTree :=
  ⟨s, run_requireTree_bind_eq_ok_iff.2 (.inl ⟨hs, rfl, rfl⟩)⟩

/-! ## With a tree -/

/-- A pivot outside the setup finds a cycle and computes the potentials of all vertices. -/
theorem Sound.setup_of_pivot (hs : Sound g s) (h : PivotRun s (.error .noSpanningTree) s') : s.phase = .setup := by
  generalize hr : (Except.error .noSpanningTree : Except SolveError (Option (Pivot F))) = r at h
  cases h with
  | noTree hphase => exact hphase
  | optimal | unbounded => cases hr
  | noCycle hphase _ hi hc =>
    obtain ⟨c, hc'⟩ := ((hs.tree hphase).insert hi).exists_cycle
    rw [hc'] at hc
    cases hc
  | pivoted hphase _ hi hc hb hpush hl hu =>
    have hn := numVertices_of_plan (plan_exchange hi hpush hl)
    obtain ⟨-, hall, -⟩ := ((hs.tree hphase).exchange hi hc hb hpush hl).computePotentials (hs.root_lt hphase hn) hu
    rw [if_pos hall] at hr
    cases hr

theorem Sound.setup_of_optimize (hs : Sound g s) (h : OptimizeRun s (.error .noSpanningTree) s') :
    s.phase = .setup := by
  cases h with
  | noTree hphase => exact hphase
  | failed ht h => exact ht.constants.2.2.1 ▸ (hs.pivots ht).setup_of_pivot h

theorem Sound.setup_of_restore (hs : Sound g s) (h : RestoreRun s (.error .noSpanningTree) s') :
    s.phase = .setup := by
  generalize hr : (Except.error .noSpanningTree : Except SolveError Unit) = r at h
  cases h with
  | noTree hphase => exact hphase
  | restored hphase _ hk hu =>
    have hframe := frame_restore hk
    have hn := numVertices_of_frame hframe
    have htree := (hs.tree hphase).congr (hs.wellFormed.of_frame hframe) hn (map_restore hk fun _ _ => rfl)
    obtain ⟨-, hall, -⟩ := htree.computePotentials (hs.root_lt hphase hn) hu
    rw [if_pos hall] at hr
    cases hr

theorem setup_of_check (h : CheckRun s (.error .noSpanningTree)) : s.phase = .setup := by
  generalize hr : (Except.error .noSpanningTree : Except SolveError SolutionState) = r at h
  cases h with
  | noTree hphase => exact hphase
  | infeasible | feasible => cases hr

theorem not_startRun (hg : g.WellFormed) (hin : s.input = g) : ¬ StartRun s (.error .noSpanningTree) s' := by
  intro h
  obtain ⟨h, -⟩ | ⟨h, -⟩ := sound_of_start hg hin h <;> cases h

/-- Every part of a computation begins with the tree that the part before it has left. -/
theorem not_solveRun (hg : g.WellFormed) (hin : s.input = g) : ¬ SolveRun s (.error .noSpanningTree) s' := by
  have hstart : ∀ {s₁}, StartRun s.renewed (.ok ()) s₁ → s₁.phase = .initial ∧ Sound g s₁ := by
    intro s₁ h₁
    obtain ⟨h, -⟩ | ⟨-, hphase, hs⟩ := sound_of_start (s := s.renewed) hg hin h₁
    · cases h
    · exact ⟨hphase, hs⟩
  intro h
  cases h with
  | noTree h₁ => exact not_startRun (s := s.renewed) hg hin h₁
  | noFirst h₁ h₂ =>
    obtain ⟨hphase, hs⟩ := hstart h₁
    rw [hs.setup_of_optimize h₂] at hphase
    cases hphase
  | infeasible h₁ h₂ hc =>
    obtain ⟨hphase, -⟩ := hstart h₁
    rw [← h₂.phase_eq, setup_of_check hc] at hphase
    cases hphase
  | noCosts h₁ h₂ hc h₃ =>
    obtain ⟨hphase, hs⟩ := hstart h₁
    rw [← h₂.phase_eq, ((stable_sound hg).optimize hs h₂).setup_of_restore h₃] at hphase
    cases hphase
  | noSecond h₁ h₂ hc h₃ h₄ =>
    obtain ⟨-, hs⟩ := hstart h₁
    have hphase := h₃.phase_eq
    rw [(((stable_sound hg).optimize hs h₂).restore h₃).setup_of_optimize h₄] at hphase
    cases hphase

/-! ## Whatever is asked of it -/

/-- In every reachable state of a solver with room for its artificial arcs, whatever its options are and whether its
amounts are bounded integers or doubles: the operations that need a tree fail for want of one exactly in the setup, and
the others never do. No operation faults but by an overflow. With no negative tolerance, no pivot of the first phase
says that the instance is unbounded. -/
theorem failures_of_reachable [LawfulAmount F] [OrderedAmount F] (b : Builder F)
    (hids : b.numArcs + (b.numVertices - 1) ≤ idLimit) (h : Reachable (fun _ => True) b.network s) :
    ((s.Fails pivot .noSpanningTree ↔ s.phase = .setup) ∧ (s.Fails optimize .noSpanningTree ↔ s.phase = .setup) ∧
      (s.Fails restoreCosts .noSpanningTree ↔ s.phase = .setup) ∧
      (s.Fails checkStart .noSpanningTree ↔ s.phase = .setup) ∧
      ¬ s.Fails start .noSpanningTree ∧ ¬ s.Fails solve .noSpanningTree) ∧
    (FaultsOnly Fault.IsOverflow (s.run start) ∧ FaultsOnly Fault.IsOverflow (s.run pivot) ∧
      FaultsOnly Fault.IsOverflow (s.run optimize) ∧ FaultsOnly Fault.IsOverflow (s.run checkStart) ∧
      FaultsOnly Fault.IsOverflow (s.run restoreCosts) ∧ FaultsOnly Fault.IsOverflow (s.run solve)) ∧
    (Amount.le Amount.zero s.options.zero = true → s.phase = .initial →
      ¬ s.Fails pivot .unbounded ∧ ¬ s.Fails optimize .unbounded) := by
  have hg := wellFormed_network b
  have hs := sound_of_reachable hg h
  rw [← numVertices_network, ← numArcs_network] at hids
  refine ⟨⟨⟨?_, fails_of_setup _⟩, ⟨?_, fails_of_setup _⟩, ⟨?_, fails_of_setup _⟩, ⟨?_, fails_of_setup _⟩, ?_, ?_⟩,
    ⟨overflow_start hg hs.input hids, hs.overflow_pivot, hs.overflow_optimize, s.overflow_checkStart,
      hs.overflow_restoreCosts hg, overflow_solve hg hs.input hids⟩, fun hz hphase => ?_⟩
  · exact fun ⟨_, h⟩ => hs.setup_of_pivot (pivotRun_of_run h)
  · exact fun ⟨_, h⟩ => hs.setup_of_optimize (optimizeRun_of_run h)
  · exact fun ⟨_, h⟩ => hs.setup_of_restore (restoreRun_of_run h)
  · exact fun ⟨_, h⟩ => setup_of_check (checkRun_of_run h).1
  · exact fun ⟨_, h⟩ => not_startRun hg hs.input (startRun_of_run h)
  · exact fun ⟨_, h⟩ => not_solveRun hg hs.input (solveRun_of_run h)
  · have hup := renewed_uphill.of_reachable hg h (by rw [hphase]; decide)
    have hpivots : ∀ {t s'}, Pivots s t → ¬ PivotRun t (.error .unbounded) s' := by
      intro t s' ht
      obtain ⟨hst, hupt⟩ := (renewed_uphill.stable hg).pivots ⟨hs, fun _ => hup⟩ ht
      obtain ⟨-, -, hp, ho⟩ := ht.constants
      have hphase' : t.phase = .initial := hp.trans hphase
      have hunit := unitCosts_of_initial (hphase' ▸ @(hst.costs))
      exact not_unbounded hst (hupt (by rw [hphase']; decide) hunit) hunit (ho.symm ▸ hz)
    refine ⟨fun ⟨_, h⟩ => hpivots .refl (pivotRun_of_run h), fun ⟨_, h⟩ => ?_⟩
    cases optimizeRun_of_run h with
    | failed ht h => exact hpivots ht h

theorem failures_of_relay : ∃ s : Simplex Signed8, Reachable (fun _ => True) Builder.relay.network s ∧
    Builder.relay.numArcs + (Builder.relay.numVertices - 1) ≤ idLimit ∧
    Amount.le Amount.zero s.options.zero = true ∧ s.phase = .initial ∧
    (¬ s.Fails pivot .noSpanningTree ∧ ¬ s.Fails optimize .noSpanningTree ∧
      ¬ s.Fails restoreCosts .noSpanningTree ∧ ¬ s.Fails checkStart .noSpanningTree ∧
      ¬ s.Fails start .noSpanningTree ∧ ¬ s.Fails solve .noSpanningTree) ∧
    (FaultsOnly Fault.IsOverflow (s.run start) ∧ FaultsOnly Fault.IsOverflow (s.run pivot) ∧
      FaultsOnly Fault.IsOverflow (s.run optimize) ∧ FaultsOnly Fault.IsOverflow (s.run checkStart) ∧
      FaultsOnly Fault.IsOverflow (s.run restoreCosts) ∧ FaultsOnly Fault.IsOverflow (s.run solve)) ∧
    ¬ s.Fails pivot .unbounded ∧ ¬ s.Fails optimize .unbounded := by
  have hids : Builder.relay.numArcs + (Builder.relay.numVertices - 1) ≤ idLimit := by decide +kernel
  have hrun : (new Builder.relay.network).run start = .ok (.ok (), (new Builder.relay.network).after start) := by
    decide +kernel
  have hreach : Reachable (fun _ => True) Builder.relay.network ((new Builder.relay.network).after start) :=
    .start .new hrun
  have hzero : Amount.le Amount.zero ((new Builder.relay.network).after start).options.zero = true := by decide +kernel
  have hphase : ((new Builder.relay.network).after start).phase = .initial := by decide +kernel
  have hsetup : ((new Builder.relay.network).after start).phase ≠ .setup := by
    rw [hphase]
    decide
  obtain ⟨⟨hpivot, hoptimize, hrestore, hcheck, hstart, hsolve⟩, hfaults, hbounded⟩ :=
    failures_of_reachable Builder.relay hids hreach
  exact ⟨_, hreach, hids, hzero, hphase, ⟨mt hpivot.1 hsetup, mt hoptimize.1 hsetup, mt hrestore.1 hsetup,
    mt hcheck.1 hsetup, hstart, hsolve⟩, hfaults, hbounded hzero hphase⟩

end Transportation.Simplex
