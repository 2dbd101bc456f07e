import Transportation.Proofs.Simplex.Run
/-!
# Runs of the solver

`Reachable` are the states a solver passes through, whatever is asked of it and in whatever order, as long as
nothing faults. Operations are made of few parts, and a property that these parts keep (`Stable`) holds of all
reachable states.
-/

namespace Transportation.Simplex

variable {F : Type} [Amount F] {s s' t : Simplex F}

/-! ## Pivoting on -/

/-- Pivots lead from `s` to the state given. -/
inductive Pivots (s : Simplex F) : Simplex F → Prop
  | refl : Pivots s s
  | step {t t' r} (ht : Pivots s t) (h : PivotRun t r t') : Pivots s t'

theorem Pivots.head {r : Except SolveError (Option (Pivot F))} (h : PivotRun s r t) (ht : Pivots t s') :
    Pivots s s' := by
  induction ht with
  | refl => exact .step .refl h
  | step _ h' ih => exact .step ih h'

theorem PivotRun.constants {r : Except SolveError (Option (Pivot F))} (h : PivotRun s r s') :
    s'.input = s.input ∧ s'.root = s.root ∧ s'.phase = s.phase ∧ s'.options = s.options := by
  cases h <;> exact ⟨rfl, rfl, rfl, rfl⟩

theorem Pivots.constants (h : Pivots s s') :
    s'.input = s.input ∧ s'.root = s.root ∧ s'.phase = s.phase ∧ s'.options = s.options := by
  induction h with
  | refl => exact ⟨rfl, rfl, rfl, rfl⟩
  | step _ h ih =>
    obtain ⟨h₁, h₂, h₃, h₄⟩ := h.constants
    exact ⟨h₁.trans ih.1, h₂.trans ih.2.1, h₃.trans ih.2.2.1, h₄.trans ih.2.2.2⟩

theorem PivotRun.of_none (h : PivotRun s (.ok none) s') :
    ∃ cursor, s.price = .ok (none, cursor) ∧ s' = { s with cursor } := by
  generalize ho : (Except.ok none : Except SolveError (Option (Pivot F))) = o at h
  cases h with
  | optimal _ hp => exact ⟨_, hp, rfl⟩
  | noTree | noCycle | unbounded => cases ho
  | pivoted => split at ho <;> cases ho

/-- A pivot that succeeds says which arc was found. -/
theorem PivotRun.of_some {p : Pivot F} (h : PivotRun s (.ok (some p)) s') :
    s.phase ≠ .setup ∧ ∃ cursor, s.price = .ok (some ⟨p.entering, p.reducedCost⟩, cursor) := by
  generalize ho : (Except.ok (some p) : Except SolveError (Option (Pivot F))) = o at h
  cases h with
  | noTree | optimal | noCycle | unbounded => cases ho
  | pivoted hs hp =>
    split at ho
    · cases ho; exact ⟨hs, _, hp⟩
    · cases ho

/-- The ways to pivot until the tree is optimal. -/
inductive OptimizeRun (s : Simplex F) : Except SolveError Nat → Simplex F → Prop
  | noTree (hs : s.phase = .setup) : OptimizeRun s (.error .noSpanningTree) s
  | optimal {t k cursor} (ht : Pivots s t) (hp : t.price = .ok (none, cursor)) :
      OptimizeRun s (.ok k) { t with cursor }
  | limited {t c limit cursor} (ht : Pivots s t) (hp : t.price = .ok (some c, cursor)) :
      OptimizeRun s (.error (.iterationLimit limit)) { t with cursor }
  | failed {t e t'} (ht : Pivots s t) (h : PivotRun t (.error e) t') : OptimizeRun s (.error e) t'

theorem optimizeRun_of_within {limit n count : Nat} {r : Except SolveError Nat}
    (h : s.run (optimizeWithin limit n count) = .ok (r, s')) : OptimizeRun s r s' := by
  induction n generalizing s count with
  | zero =>
    rw [optimizeWithin, run_findEntering_bind_eq_ok_iff] at h
    obtain ⟨c, cursor, hp, h⟩ := h
    cases c with
    | none =>
      obtain ⟨rfl, rfl⟩ := run_pure_eq_ok_iff.1 h
      exact .optimal .refl hp
    | some c =>
      obtain ⟨rfl, rfl⟩ := run_throw_eq_ok_iff.1 h
      exact .limited .refl hp
  | succ n ih =>
    rw [optimizeWithin] at h
    rcases run_bind_eq_ok_iff.1 h with ⟨o, t, hp, h⟩ | ⟨e, hp, rfl⟩
    · replace hp := pivotRun_of_run hp
      cases o with
      | none =>
        obtain ⟨rfl, rfl⟩ := run_pure_eq_ok_iff.1 h
        obtain ⟨cursor, hprice, rfl⟩ := hp.of_none
        exact .optimal .refl hprice
      | some p =>
        cases ih h with
        | noTree hs => exact .failed (.step .refl hp) (.noTree hs)
        | optimal ht hprice => exact .optimal (ht.head hp) hprice
        | limited ht hprice => exact .limited (ht.head hp) hprice
        | failed ht he => exact .failed (ht.head hp) he
    · exact .failed .refl (pivotRun_of_run hp)

theorem optimizeRun_of_run {r : Except SolveError Nat} (h : s.run optimize = .ok (r, s')) : OptimizeRun s r s' := by
  unfold optimize at h
  rw [run_requireTree_bind_eq_ok_iff] at h
  rcases h with ⟨hs, rfl, rfl⟩ | ⟨-, h⟩
  · exact .noTree hs
  · rw [run_get_bind] at h
    exact optimizeRun_of_within h

/-! ## Both phases -/

/-- The state in which `solve` begins. -/
def renewed (s : Simplex F) : Simplex F :=
  { s with pivots := 0, state := .unknown }

/-- The ways to solve the instance. Every part may end the run with its error. -/
inductive SolveRun (s : Simplex F) : Except SolveError SolutionState → Simplex F → Prop
  | noTree {e s₁} (h₁ : StartRun s.renewed (.error e) s₁) : SolveRun s (.error e) s₁
  | noFirst {e s₁ s₂} (h₁ : StartRun s.renewed (.ok ()) s₁) (h₂ : OptimizeRun s₁ (.error e) s₂) :
      SolveRun s (.error e) s₂
  | infeasible {e s₁ s₂ k} (h₁ : StartRun s.renewed (.ok ()) s₁) (h₂ : OptimizeRun s₁ (.ok k) s₂)
      (hc : CheckRun s₂ (.error e)) : SolveRun s (.error e) s₂
  | noCosts {e s₁ s₂ s₃ k state} (h₁ : StartRun s.renewed (.ok ()) s₁) (h₂ : OptimizeRun s₁ (.ok k) s₂)
      (hc : CheckRun s₂ (.ok state)) (h₃ : RestoreRun s₂ (.error e) s₃) : SolveRun s (.error e) s₃
  | noSecond {e s₁ s₂ s₃ s₄ k state} (h₁ : StartRun s.renewed (.ok ()) s₁) (h₂ : OptimizeRun s₁ (.ok k) s₂)
      (hc : CheckRun s₂ (.ok state)) (h₃ : RestoreRun s₂ (.ok ()) s₃) (h₄ : OptimizeRun s₃ (.error e) s₄) :
      SolveRun s (.error e) s₄
  | carrying {s₁ s₂ s₃ s₄ k k' state} (h₁ : StartRun s.renewed (.ok ()) s₁) (h₂ : OptimizeRun s₁ (.ok k) s₂)
      (hc : CheckRun s₂ (.ok state)) (h₃ : RestoreRun s₂ (.ok ()) s₃) (h₄ : OptimizeRun s₃ (.ok k') s₄)
      (hn : 0 < s₄.numCarryingArtificialArcs) :
      SolveRun s (.error (.infeasible s₄.numCarryingArtificialArcs)) s₄
  | solved {s₁ s₂ s₃ s₄ k k' state} (h₁ : StartRun s.renewed (.ok ()) s₁) (h₂ : OptimizeRun s₁ (.ok k) s₂)
      (hc : CheckRun s₂ (.ok state)) (h₃ : RestoreRun s₂ (.ok ()) s₃) (h₄ : OptimizeRun s₃ (.ok k') s₄)
      (hn : s₄.numCarryingArtificialArcs = 0) : SolveRun s (.ok state) { s₄ with state }

theorem solveRun_of_run {r : Except SolveError SolutionState} (h : s.run solve = .ok (r, s')) : SolveRun s r s' := by
  unfold solve at h
  rw [run_modify_bind] at h
  rcases run_bind_eq_ok_iff.1 h with ⟨_, s₁, h₁, h⟩ | ⟨e, h₁, rfl⟩
  case inr => exact .noTree (startRun_of_run h₁)
  replace h₁ := startRun_of_run h₁
  rcases run_bind_eq_ok_iff.1 h with ⟨k, s₂, h₂, h⟩ | ⟨e, h₂, rfl⟩
  case inr => exact .noFirst h₁ (optimizeRun_of_run h₂)
  replace h₂ := optimizeRun_of_run h₂
  rcases run_bind_eq_ok_iff.1 h with ⟨state, t, hc, hr⟩ | ⟨e, hc, rfl⟩
  case inr =>
    obtain ⟨hc, rfl⟩ := checkRun_of_run hc
    exact .infeasible h₁ h₂ hc
  obtain ⟨hc, rfl⟩ := checkRun_of_run hc
  rcases run_bind_eq_ok_iff.1 hr with ⟨_, s₃, h₃, hr⟩ | ⟨e, h₃, rfl⟩
  case inr => exact .noCosts h₁ h₂ hc (restoreRun_of_run h₃)
  replace h₃ := restoreRun_of_run h₃
  rcases run_bind_eq_ok_iff.1 hr with ⟨k', s₄, h₄, hr⟩ | ⟨e, h₄, rfl⟩
  case inr => exact .noSecond h₁ h₂ hc h₃ (optimizeRun_of_run h₄)
  replace h₄ := optimizeRun_of_run h₄
  rw [run_get_bind] at hr
  by_cases hn : 0 < s₄.numCarryingArtificialArcs
  · simp only [hn, if_true] at hr
    rcases run_bind_eq_ok_iff.1 hr with ⟨_, _, ht, _⟩ | ⟨e, ht, rfl⟩
    · cases (run_throw_eq_ok_iff.1 ht).1
    · obtain ⟨he, rfl⟩ := run_throw_eq_ok_iff.1 ht
      cases he
      exact .carrying h₁ h₂ hc h₃ h₄ hn
  · simp only [hn, if_false] at hr
    rw [run_modify_bind] at hr
    obtain ⟨rfl, rfl⟩ := run_pure_eq_ok_iff.1 hr
    exact .solved h₁ h₂ hc h₃ h₄ (Nat.eq_zero_of_not_pos hn)

/-! ## The errors of each part -/

theorem StartRun.constants {r : Except SolveError Unit} (h : StartRun s r s') :
    s'.input = s.input ∧ s'.options = s.options := by
  cases h <;> exact ⟨rfl, rfl⟩

theorem RestoreRun.constants {r : Except SolveError Unit} (h : RestoreRun s r s') :
    s'.input = s.input ∧ s'.options = s.options := by
  cases h <;> exact ⟨rfl, rfl⟩

theorem OptimizeRun.constants {r : Except SolveError Nat} (h : OptimizeRun s r s') :
    s'.input = s.input ∧ s'.options = s.options := by
  cases h with
  | noTree => exact ⟨rfl, rfl⟩
  | optimal ht => exact ⟨ht.constants.1, ht.constants.2.2.2⟩
  | limited ht => exact ⟨ht.constants.1, ht.constants.2.2.2⟩
  | failed ht h =>
    exact ⟨h.constants.1.trans ht.constants.1, h.constants.2.2.2.trans ht.constants.2.2.2⟩

theorem OptimizeRun.phase_eq {r : Except SolveError Nat} (h : OptimizeRun s r s') : s'.phase = s.phase := by
  cases h with
  | noTree => rfl
  | optimal ht | limited ht => exact ht.constants.2.2.1
  | failed ht h => exact h.constants.2.2.1.trans ht.constants.2.2.1

theorem StartRun.error_eq {e : SolveError} (h : StartRun s (.error e) s') : e = .unbalanced ∨ e = .noSpanningTree := by
  generalize hr : (Except.error e : Except SolveError Unit) = r at h
  cases h with
  | unbalanced => cases hr; exact .inl rfl
  | started => split at hr <;> cases hr; exact .inr rfl

theorem RestoreRun.error_eq {e : SolveError} (h : RestoreRun s (.error e) s') : e = .noSpanningTree := by
  generalize hr : (Except.error e : Except SolveError Unit) = r at h
  cases h with
  | noTree => cases hr; rfl
  | restored => split at hr <;> cases hr; rfl

theorem RestoreRun.phase_eq (h : RestoreRun s (.ok ()) s') : s'.phase = .optimal := by
  generalize hr : (Except.ok () : Except SolveError Unit) = r at h
  cases h with
  | noTree => cases hr
  | restored => rfl

/-- The second phase begins only if artificial arcs have a cost. -/
theorem RestoreRun.artificialCost_eq (h : RestoreRun s (.ok ()) s') : ∃ c, s.artificialCost = .ok c := by
  generalize hr : (Except.ok () : Except SolveError Unit) = r at h
  cases h with
  | noTree => cases hr
  | restored _ hc => exact ⟨_, hc⟩

theorem PivotRun.error_eq {e : SolveError} (h : PivotRun s (.error e) s') : e = .noSpanningTree ∨ e = .unbounded := by
  generalize hr : (Except.error e : Except SolveError (Option (Pivot F))) = r at h
  cases h with
  | noTree | noCycle => cases hr; exact .inl rfl
  | optimal => cases hr
  | unbounded => cases hr; exact .inr rfl
  | pivoted => split at hr <;> cases hr; exact .inl rfl

theorem OptimizeRun.error_eq {e : SolveError} (h : OptimizeRun s (.error e) s') :
    e = .noSpanningTree ∨ e = .unbounded ∨ ∃ limit, e = .iterationLimit limit := by
  cases h with
  | noTree => exact .inl rfl
  | limited => exact .inr (.inr ⟨_, rfl⟩)
  | failed _ h => exact h.error_eq.imp_right .inl

theorem CheckRun.error_eq {e : SolveError} (h : CheckRun s (.error e)) :
    e = .noSpanningTree ∨ ∃ k, e = .infeasible k := by
  cases h with
  | noTree => exact .inl rfl
  | infeasible => exact .inr ⟨_, rfl⟩

/-- An instance is said to be infeasible by one of the two checks after the phases. -/
theorem SolveRun.of_infeasible {k : Nat} (h : SolveRun s (.error (.infeasible k)) s') :
    ∃ s₁ s₂ n, StartRun s.renewed (.ok ()) s₁ ∧ OptimizeRun s₁ (.ok n) s₂ ∧
      (CheckRun s₂ (.error (.infeasible k)) ∨
        ∃ s₃ n', RestoreRun s₂ (.ok ()) s₃ ∧ OptimizeRun s₃ (.ok n') s' ∧ 0 < s'.numCarryingArtificialArcs) := by
  cases h with
  | noTree h₁ => rcases h₁.error_eq with h | h <;> cases h
  | noFirst h₁ h₂ => rcases h₂.error_eq with h | h | ⟨_, h⟩ <;> cases h
  | infeasible h₁ h₂ hc => exact ⟨_, _, _, h₁, h₂, .inl hc⟩
  | noCosts h₁ h₂ hc h₃ => cases h₃.error_eq
  | noSecond h₁ h₂ hc h₃ h₄ => rcases h₄.error_eq with h | h | ⟨_, h⟩ <;> cases h
  | carrying h₁ h₂ hc h₃ h₄ hn => exact ⟨_, _, _, h₁, h₂, .inr ⟨_, _, h₃, h₄, hn⟩⟩

/-- An instance is said to be unbounded by a pivot of one of the phases. -/
theorem SolveRun.of_unbounded (h : SolveRun s (.error .unbounded) s') :
    ∃ s₁ t, StartRun s.renewed (.ok ()) s₁ ∧ PivotRun t (.error .unbounded) s' ∧
      (Pivots s₁ t ∨ ∃ s₂ n state s₃, OptimizeRun s₁ (.ok n) s₂ ∧ CheckRun s₂ (.ok state) ∧
        RestoreRun s₂ (.ok ()) s₃ ∧ Pivots s₃ t) := by
  cases h with
  | noTree h₁ => rcases h₁.error_eq with h | h <;> cases h
  | noFirst h₁ h₂ =>
    cases h₂ with
    | failed ht h => exact ⟨_, _, h₁, h, .inl ht⟩
  | infeasible h₁ h₂ hc => rcases hc.error_eq with h | ⟨_, h⟩ <;> cases h
  | noCosts h₁ h₂ hc h₃ => cases h₃.error_eq
  | noSecond h₁ h₂ hc h₃ h₄ =>
    cases h₄ with
    | failed ht h => exact ⟨_, _, h₁, h, .inr ⟨_, _, _, _, h₂, hc, h₃, ht⟩⟩

/-! ## Whatever is asked of it -/

/-- A solver of the instance `g` of which nothing has been asked yet. -/
def fresh (g : Network F) (o : Options F) : Simplex F :=
  { new g with options := o }

/-- The states of a solver of the instance `g` whose options are changed to `allowed` ones only. -/
inductive Reachable (allowed : Options F → Prop) (g : Network F) : Simplex F → Prop
  | new : Reachable allowed g (.new g)
  | start {s s' r} (hs : Reachable allowed g s) (h : s.run start = .ok (r, s')) : Reachable allowed g s'
  | optimize {s s' r} (hs : Reachable allowed g s) (h : s.run optimize = .ok (r, s')) : Reachable allowed g s'
  | pivot {s s' r} (hs : Reachable allowed g s) (h : s.run pivot = .ok (r, s')) : Reachable allowed g s'
  | checkStart {s s' r} (hs : Reachable allowed g s) (h : s.run checkStart = .ok (r, s')) : Reachable allowed g s'
  | restoreCosts {s s' r} (hs : Reachable allowed g s) (h : s.run restoreCosts = .ok (r, s')) :
      Reachable allowed g s'
  | solve {s s' r} (hs : Reachable allowed g s) (h : s.run solve = .ok (r, s')) : Reachable allowed g s'
  | setOptions {s o} (hs : Reachable allowed g s) (ho : allowed o) : Reachable allowed g { s with options := o }

/-- Every part of an operation keeps `P`, whatever its outcome. -/
structure Stable (P : Simplex F → Prop) : Prop where
  start : ∀ {s s' r}, P s → StartRun s r s' → P s'
  pivot : ∀ {s s' r}, P s → PivotRun s r s' → P s'
  restore : ∀ {s s' r}, P s → RestoreRun s r s' → P s'
  counters : ∀ {s} cursor pivots state, P s → P { s with cursor, pivots, state }

namespace Stable

variable {P : Simplex F → Prop}

theorem pivots (hP : Stable P) (hs : P s) (h : Pivots s s') : P s' := by
  induction h with
  | refl => exact hs
  | step _ h ih => exact hP.pivot ih h

theorem optimize (hP : Stable P) {r : Except SolveError Nat} (hs : P s) (h : OptimizeRun s r s') : P s' := by
  cases h with
  | noTree => exact hs
  | optimal ht _ => exact hP.counters _ _ _ (hP.pivots hs ht)
  | limited ht _ => exact hP.counters _ _ _ (hP.pivots hs ht)
  | failed ht he => exact hP.pivot (hP.pivots hs ht) he

theorem solve (hP : Stable P) {r : Except SolveError SolutionState} (hs : P s) (h : SolveRun s r s') : P s' := by
  have h0 : P s.renewed := hP.counters _ _ _ hs
  cases h with
  | noTree h₁ => exact hP.start h0 h₁
  | noFirst h₁ h₂ => exact hP.optimize (hP.start h0 h₁) h₂
  | infeasible h₁ h₂ => exact hP.optimize (hP.start h0 h₁) h₂
  | noCosts h₁ h₂ _ h₃ => exact hP.restore (hP.optimize (hP.start h0 h₁) h₂) h₃
  | noSecond h₁ h₂ _ h₃ h₄ => exact hP.optimize (hP.restore (hP.optimize (hP.start h0 h₁) h₂) h₃) h₄
  | carrying h₁ h₂ _ h₃ h₄ => exact hP.optimize (hP.restore (hP.optimize (hP.start h0 h₁) h₂) h₃) h₄
  | solved h₁ h₂ _ h₃ h₄ =>
    exact hP.counters _ _ _ (hP.optimize (hP.restore (hP.optimize (hP.start h0 h₁) h₂) h₃) h₄)

/-- What holds of a new solver, is kept by operations and survives a change of options holds of every reachable
state. -/
theorem reachable (hP : Stable P) {allowed : Options F → Prop} {g : Network F} (hnew : P (.new g))
    (hopt : ∀ {s o}, P s → allowed o → P { s with options := o }) (h : Reachable allowed g s) : P s := by
  induction h with
  | new => exact hnew
  | start _ h ih => exact hP.start ih (startRun_of_run h)
  | optimize _ h ih => exact hP.optimize ih (optimizeRun_of_run h)
  | pivot _ h ih => exact hP.pivot ih (pivotRun_of_run h)
  | checkStart _ h ih => exact (checkRun_of_run h).2 ▸ ih
  | restoreCosts _ h ih => exact hP.restore ih (restoreRun_of_run h)
  | solve _ h ih => exact hP.solve ih (solveRun_of_run h)
  | setOptions _ ho ih => exact hopt ih ho

end Stable

end Transportation.Simplex
