import Transportation.Proofs.Agree
import Transportation.Proofs.Simplex.Parts
/-!
# Solvers in lockstep

Two solvers with related states go in `Lockstep` if operations end alike on both of them and leave related states again.
What pivots are made of is listed in `PivotSimulation`, and what else a phase and the check after it read in `Simulation`.
If these parts go in lockstep, so do pivots, sequences of pivots and the check.
-/

namespace Transportation.Simplex

open Checked

variable {F : Type} {α α' β β' : Type} {P : Fault → Prop} {Q : Simplex F → Simplex F → Prop} {R : α → α' → Prop}
  {S : β → β' → Prop}

/-- On related states the operations end alike and leave related states, unless there is a fault of the kind `P`. -/
def Lockstep (P : Fault → Prop) (Q : Simplex F → Simplex F → Prop) (R : α → α' → Prop) (op : SolverM F α)
    (op' : SolverM F α') : Prop :=
  ∀ s t, Q s t → Agree P (fun p q => Alike R p.1 q.1 ∧ Q p.2 q.2) (s.run op) (t.run op')

namespace Lockstep

theorem pure {a : α} {b : α'} (h : R a b) : Lockstep P Q R (pure a : SolverM F α) (pure b) :=
  fun _ _ hst => .pure ⟨.ok h, hst⟩

theorem throw (e : SolveError) : Lockstep P Q R (throw e : SolverM F α) (throw e) :=
  fun _ _ hst => .pure ⟨.error e, hst⟩

theorem checked {x : Checked α} {y : Checked α'} (h : Agree P R x y) :
    Lockstep P Q R (liftM x : SolverM F α) (liftM y) := by
  intro s t hst
  rw [run_checked, run_checked]
  exact h.map fun _ _ hab => ⟨.ok hab, hst⟩

theorem bind {op : SolverM F α} {op' : SolverM F α'} {f : α → SolverM F β} {f' : α' → SolverM F β'}
    (h : Lockstep P Q R op op') (hf : ∀ a b, R a b → Lockstep P Q S (f a) (f' b)) :
    Lockstep P Q S (op >>= f) (op' >>= f') := by
  intro s t hst
  rw [run_bind, run_bind]
  refine (h s t hst).bind ?_
  rintro ⟨_, s'⟩ ⟨_, t'⟩ ⟨⟨e⟩ | hab, hst'⟩
  · exact .pure ⟨.error e, hst'⟩
  · exact hf _ _ hab s' t' hst'

theorem get_bind {f : Simplex F → SolverM F β} {f' : Simplex F → SolverM F β'}
    (hf : ∀ s t, Q s t → Lockstep P Q S (f s) (f' t)) : Lockstep P Q S (get >>= f) (get >>= f') := by
  intro s t hst
  rw [run_get_bind, run_get_bind]
  exact hf s t hst s t hst

theorem modify {f : Simplex F → Simplex F} (hf : ∀ s t, Q s t → Q (f s) (f t)) :
    Lockstep P Q Eq (modify f : SolverM F Unit) (modify f) :=
  fun s t hst => .pure ⟨.ok rfl, hf s t hst⟩

theorem requireTree (hphase : ∀ {s t}, Q s t → t.phase = s.phase) :
    Lockstep P Q Eq (requireTree : SolverM F Unit) requireTree := by
  intro s t hst
  rw [run_requireTree, run_requireTree, hphase hst]
  exact .pure ⟨.refl _, hst⟩

end Lockstep

/-- What two solvers have to agree on for their pivots to go in lockstep. Where one pushes some flow around a cycle, the
other pushes flow that is related to it by `D`. -/
structure PivotSimulation [Amount F] (P : Fault → Prop) (Q : Simplex F → Simplex F → Prop) (D : F → F → Prop) :
    Prop where
  phase : ∀ {s t}, Q s t → t.phase = s.phase
  findEntering : Lockstep P Q Eq (findEntering : SolverM F (Option (Candidate F))) findEntering
  enter : ∀ a, Lockstep P Q Eq (enter a : SolverM F Unit) (enter a)
  leave : ∀ a, Lockstep P Q Eq (leave a : SolverM F Unit) (leave a)
  findCycle? : ∀ {s t}, Q s t → ∀ a, t.tree.findCycle? t.solution a = s.tree.findCycle? s.solution a
  blocking? : ∀ {s t}, Q s t → ∀ c, Agree P (Option.Rel fun b b' => b'.arc = b.arc ∧ D b.flow b'.flow)
    (s.solution.blocking? s.options.zero c) (t.solution.blocking? t.options.zero c)
  exchange : ∀ c {d d'} a, D d d' → Lockstep P Q Eq (exchange c d a) (exchange c d' a)
  updatePotentials : Lockstep P Q Eq (updatePotentials : SolverM F Unit) updatePotentials

/-- What two solvers have to agree on to go in lockstep through a phase. -/
structure Simulation [Amount F] (P : Fault → Prop) (Q : Simplex F → Simplex F → Prop) (D : F → F → Prop) : Prop
    extends PivotSimulation P Q D where
  pivotLimit : ∀ {s t}, Q s t → t.pivotLimit = s.pivotLimit
  artificialLoads : ∀ {s t}, Q s t → Agree P Eq s.artificialLoads t.artificialLoads

variable [Amount F] {D : F → F → Prop}

/-- Both pivots exchange the same arcs. -/
theorem PivotSimulation.pivot (h : PivotSimulation P Q D) : Lockstep P Q
    (Option.Rel fun p q => q.entering = p.entering ∧ q.leaving = p.leaving ∧ q.reducedCost = p.reducedCost ∧
      D p.delta q.delta) (pivot : SolverM F (Option (Pivot F))) pivot := by
  refine (Lockstep.requireTree h.phase).bind fun _ _ _ => h.findEntering.bind fun o o' ho => ?_
  subst ho
  cases o with
  | none => exact .pure .none
  | some c =>
    refine (h.enter c.arc).bind fun _ _ _ => .get_bind fun s t hst => ?_
    rw [h.findCycle? hst]
    refine (Lockstep.checked (.of_eq rfl)).bind fun cycle _ hc => ?_
    subst hc
    cases cycle with
    | none => exact (h.leave c.arc).bind fun _ _ _ => .throw _
    | some cycle =>
      refine (Lockstep.checked (h.blocking? hst cycle)).bind fun b b' hb => ?_
      cases hb with
      | none => exact (h.leave c.arc).bind fun _ _ _ => .throw _
      | @some b b' hb =>
        obtain ⟨harc, hflow⟩ := hb
        dsimp only
        rw [harc]
        exact (h.exchange cycle b.arc hflow).bind fun _ _ _ => h.updatePotentials.bind fun _ _ _ =>
          .pure (.some ⟨rfl, rfl, rfl, hflow⟩)

namespace Simulation

theorem optimizeWithin (h : Simulation P Q D) (limit n count : Nat) :
    Lockstep P Q Eq (optimizeWithin limit n count : SolverM F Nat) (optimizeWithin limit n count) := by
  induction n generalizing count with
  | zero =>
    refine h.findEntering.bind fun o o' ho => ?_
    subst ho
    cases o with
    | none => exact .pure rfl
    | some _ => exact .throw _
  | succ n ih =>
    refine h.pivot.bind fun o o' ho => ?_
    cases ho with
    | none => exact .pure rfl
    | some _ => exact ih (count + 1)

theorem optimize (h : Simulation P Q D) : Lockstep P Q Eq (optimize : SolverM F Nat) optimize := by
  refine (Lockstep.requireTree h.phase).bind fun _ _ _ => .get_bind fun s t hst => ?_
  rw [h.pivotLimit hst]
  exact h.optimizeWithin _ _ _

theorem checkStart (h : Simulation P Q D) :
    Lockstep P Q Eq (checkStart : SolverM F SolutionState) checkStart := by
  intro s t hst
  rw [run_checkStart, run_checkStart, h.phase hst]
  split
  · exact .pure ⟨.error _, hst⟩
  · refine (h.artificialLoads hst).map fun arcs _ harcs => ?_
    subst harcs
    exact ⟨.refl _, hst⟩

end Simulation

end Transportation.Simplex
