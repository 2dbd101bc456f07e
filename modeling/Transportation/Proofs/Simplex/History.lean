import Transportation.Proofs.Simplex.Parts
import Transportation.Proofs.Simplex.Sound
/-!
# What solving forgets

The first phase begins with the star, whatever the working copy and the tree were, so that `solve` sees the instance
and the options of a solver and nothing else. If the instance is not balanced, the first phase does not begin and the
working copy stays as it was.
-/

namespace Transportation.Simplex

variable {F : Type} [Amount F] {g : Network F} {s t : Simplex F}

/-- The first phase of a computation keeps nothing of the state before but the instance and the options. -/
theorem startWith_renewed (hinput : t.input = s.input) (hoptions : t.options = s.options) :
    t.renewed.startWith = s.renewed.startWith := by
  funext g
  simp only [startWith, begun, renewed, hinput, hoptions]

/-- Solvers of one instance with the same options do the same, or they find that it is not balanced. -/
theorem run_solve_congr (hinput : t.input = s.input) (hoptions : t.options = s.options) :
    (t.run solve = .ok (.error .unbalanced, t.renewed) ∧ s.run solve = .ok (.error .unbalanced, s.renewed)) ∨
      t.run solve = s.run solve := by
  have hin : t.renewed.input = s.renewed.input := hinput
  have ho : t.renewed.options = s.renewed.options := hoptions
  unfold solve
  rw [run_modify_bind, run_modify_bind]
  show (t.renewed.run _ = _ ∧ s.renewed.run _ = _) ∨ t.renewed.run _ = s.renewed.run _
  rw [run_bind, run_bind, run_start, run_start, hin, ho]
  cases s.renewed.input.isBalancedWithin s.renewed.options.zero with
  | error => exact .inr rfl
  | ok balanced =>
    cases balanced with
    | false => exact .inl ⟨rfl, rfl⟩
    | true =>
      right
      simp only [Checked.ok_bind, startWith_renewed hinput hoptions]

theorem stable_input : Stable fun s => s.input = g where
  start hs h := h.constants.1.trans hs
  pivot hs h := h.constants.1.trans hs
  restore hs h := h.constants.1.trans hs
  counters _ _ _ hs := hs

theorem input_of_reachable {allowed : Options F → Prop} (h : Reachable allowed g s) : s.input = g :=
  stable_input.reachable rfl (fun hs _ => hs) h

/-- Whatever has been asked of a solver before, with whatever options and outcomes, `solve` has the result that it has
on a fresh solver of the same instance with the options of now. Unless the instance is found not balanced, the state it
leaves is also the same: the working copy, the tree with its lists in order, the phase, the count of pivots and what is
known of the solution. -/
theorem run_solve_of_reachable (h : Reachable (fun _ => True) g s) :
    (s.run solve).map Prod.fst = ((fresh g s.options).run solve).map Prod.fst ∧
      ((s.run solve).map Prod.fst ≠ .ok (.error .unbalanced) → s.run solve = (fresh g s.options).run solve) := by
  rcases run_solve_congr (s := fresh g s.options) (input_of_reachable h) rfl with ⟨hs, hf⟩ | he
  · rw [hs, hf]
    exact ⟨rfl, fun hne => absurd rfl hne⟩
  · exact ⟨by rw [he], fun _ => he⟩

/-- Options with which one pivot is made in a phase. -/
def onePivot : Options Signed8 :=
  ⟨.roundRobin, .zero, none, some 1⟩

/-- After a computation that ran into its limit of pivots the options are changed and the instance is solved. -/
theorem run_solve_of_relay : ∃ s : Simplex Signed8, Reachable (fun _ => True) Builder.relay.network s ∧
    (s.pivots = 1 ∧ s.cursor ≠ 0 ∧ s.options = .default) ∧
    (s.run solve).map Prod.fst = ((fresh Builder.relay.network s.options).run solve).map Prod.fst ∧
    (s.run solve).map Prod.fst ≠ .ok (.error .unbalanced) ∧
    s.run solve = (fresh Builder.relay.network s.options).run solve := by
  have hrun : (fresh Builder.relay.network onePivot).run solve =
      .ok (.error (.iterationLimit 1), (fresh Builder.relay.network onePivot).after solve) := by decide +kernel
  have hreach : Reachable (fun _ => True) Builder.relay.network
      { (fresh Builder.relay.network onePivot).after solve with options := .default } :=
    .setOptions (.solve (.setOptions .new trivial) hrun) trivial
  have hbalanced : (run { (fresh Builder.relay.network onePivot).after solve with options := .default } solve).map
      Prod.fst ≠ .ok (.error .unbalanced) := by decide +kernel
  obtain ⟨hfst, hstate⟩ := run_solve_of_reachable hreach
  exact ⟨_, hreach, by decide +kernel, hfst, hbalanced, hstate hbalanced⟩

end Transportation.Simplex
