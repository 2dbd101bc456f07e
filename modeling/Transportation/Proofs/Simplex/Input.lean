import Transportation.Proofs.Network.Base
import Transportation.Proofs.Simplex.Lockstep
/-!
# What a solver sees of its instance

The instance is read when a phase begins, and not in between: pivots and the check after the first phase work on the
copy (`IgnoresInput`), and pivots do not read the limit of pivots either (`Ignores.pivotSimulation`). The first phase
reads its base (`run_start_withInput`), the second its costs.
-/

namespace Transportation.Simplex

open Checked Network

variable {F : Type} {α β : Type} {s : Simplex F} {g : Network F}

/-- The operation does the same when `f` has changed the state before. -/
def Ignores (f : Simplex F → Simplex F) (op : SolverM F α) : Prop :=
  ∀ s, (f s).run op = (s.run op).map fun p => (p.1, f p.2)

/-- Solvers that differ by the change go in lockstep. -/
theorem ignores_iff {f : Simplex F → Simplex F} {op : SolverM F α} :
    Ignores f op ↔ Lockstep (fun _ => False) (fun s t => t = f s) Eq op op := by
  constructor
  · rintro h s _ rfl
    rw [h]
    cases s.run op with
    | error e => exact fun _ _ => .error e
    | ok p => exact .pure ⟨.refl p.1, rfl⟩
  · intro h s
    have hst := agree_false_iff.1 (h s _ rfl)
    generalize s.run op = x at hst ⊢
    generalize (f s).run op = y at hst ⊢
    cases hst with
    | error e => rfl
    | @ok p q hpq => exact congrArg Except.ok (Prod.ext hpq.1.eq hpq.2)

/-- The solver as it is, with another instance and another limit, both of which pivots neither read nor write. -/
def adapt (i : Network F → Network F) (l : Option Nat → Option Nat) (s : Simplex F) : Simplex F :=
  { s with input := i s.input, options := { s.options with maxPivots := l s.options.maxPivots } }

/-! ## Pivots -/

namespace Ignores

variable (i : Network F → Network F) (l : Option Nat → Option Nat)

theorem enter (a : ArcId) : Ignores (adapt i l) (enter a : SolverM F Unit) := by
  intro s
  rw [run_enter, run_enter]
  show Except.map _ (s.tree.insert s.solution a) = _
  cases s.tree.insert s.solution a <;> rfl

theorem leave (a : ArcId) : Ignores (adapt i l) (leave a : SolverM F Unit) := by
  intro s
  rw [run_leave, run_leave]
  show Except.map _ (s.tree.remove s.solution a) = _
  cases s.tree.remove s.solution a <;> rfl

variable [Amount F]

theorem findEntering : Ignores (adapt i l) (findEntering : SolverM F (Option (Candidate F))) := by
  intro s
  rw [run_findEntering, run_findEntering]
  show Except.map _ s.price = _
  cases s.price <;> rfl

theorem exchange (cycle : List Step) (delta : F) (a : ArcId) : Ignores (adapt i l) (exchange cycle delta a) := by
  intro s
  rw [run_exchange, run_exchange]
  show Except.map _ (s.solution.push delta cycle >>= (s.tree.remove · a)) = _
  cases s.solution.push delta cycle >>= (s.tree.remove · a) <;> rfl

theorem updatePotentials : Ignores (adapt i l) (updatePotentials : SolverM F Unit) := by
  intro s
  rw [run_updatePotentials, run_updatePotentials]
  show Except.map _ (s.tree.computePotentials s.solution s.root) = _
  cases s.tree.computePotentials s.solution s.root <;> rfl

/-- No part of a pivot reads the instance or the limit. -/
theorem pivotSimulation : PivotSimulation (fun _ => False) (fun s t : Simplex F => t = s.adapt i l) Eq where
  phase h := by rw [h]; rfl
  findEntering := ignores_iff.1 (findEntering i l)
  enter a := ignores_iff.1 (enter i l a)
  leave a := ignores_iff.1 (leave i l a)
  findCycle? h a := by rw [h]; rfl
  blocking? h c := by
    subst h
    refine (Agree.of_eq rfl).mono fun o _ ho => ?_
    subst ho
    cases o with
    | none => exact .none
    | some b => exact .some ⟨rfl, rfl⟩
  exchange c d _ a hd := by
    subst hd
    exact ignores_iff.1 (exchange i l c d a)
  updatePotentials := ignores_iff.1 (updatePotentials i l)

theorem pivot : Ignores (adapt i l) (pivot : SolverM F (Option (Pivot F))) := by
  refine ignores_iff.2 fun s t hst => ((pivotSimulation i l).pivot s t hst).mono fun p q hpq => ⟨?_, hpq.2⟩
  refine hpq.1.mono fun o o' ho => ?_
  cases ho with
  | none => rfl
  | @some p q hpq =>
    obtain ⟨hentering, hleaving, hreduced, hdelta⟩ := hpq
    cases p
    cases q
    simp_all

end Ignores

/-! ## The instance -/

/-- The solver as it is, with another instance. -/
def withInput (s : Simplex F) (g : Network F) : Simplex F :=
  { s with input := g }

/-- The operation does the same whatever the instance is. -/
def IgnoresInput (op : SolverM F α) : Prop :=
  ∀ (s : Simplex F) (g : Network F), (s.withInput g).run op = (s.run op).map fun p => (p.1, p.2.withInput g)

theorem ignoresInput_iff {op : SolverM F α} : IgnoresInput op ↔ ∀ g : Network F, Ignores (withInput · g) op :=
  ⟨fun h g s => h s g, fun h s g => h g s⟩

namespace IgnoresInput

variable [Amount F]

theorem updatePotentials : IgnoresInput (updatePotentials : SolverM F Unit) :=
  ignoresInput_iff.2 fun g => Ignores.updatePotentials (fun _ => g) id

/-- No part of a phase reads the instance. -/
theorem simulation (g : Network F) : Simulation (fun _ => False) (fun s t => t = s.withInput g) Eq where
  toPivotSimulation := Ignores.pivotSimulation (fun _ => g) id
  pivotLimit h := by rw [h]; rfl
  artificialLoads h := .of_eq (by rw [h]; rfl)

theorem optimize : IgnoresInput (optimize : SolverM F Nat) :=
  ignoresInput_iff.2 fun g => ignores_iff.2 (simulation g).optimize

theorem checkStart : IgnoresInput (checkStart : SolverM F SolutionState) :=
  ignoresInput_iff.2 fun g => ignores_iff.2 (simulation g).checkStart

end IgnoresInput

/-! ## The beginning of a phase -/

variable [Amount F]

/-- The potentials of the star are of no account. -/
theorem startWith_unpriced (s : Simplex F) (k : Network F) : s.startWith k.unpriced = s.startWith k := by
  have e : k.unpriced.unpriced = k.unpriced := by simp [unpriced, Function.comp_def]
  have hn : k.unpriced.numArcs = k.numArcs := rfl
  simp only [startWith, run_updatePotentials, begun, (sameArcs_of_unpriced e).ofNetwork_eq,
    computePotentials_of_unpriced e, firstSupplier_unpriced, hn]

theorem startWith_withInput (s : Simplex F) (k g : Network F) :
    (s.withInput g).startWith k = (s.startWith k).map fun p => (p.1, p.2.withInput g) := by
  unfold startWith
  cases Incidence.ofNetwork k with
  | error => rfl
  | ok t => exact IgnoresInput.updatePotentials (s.begun k t) g

/-- The first phase begins in the same way with every instance of the same base. -/
theorem run_start_withInput (hb : g.base = s.input.base) :
    (s.withInput g).run start = (s.run start).map fun p => (p.1, p.2.withInput g) := by
  rw [run_start, run_start]
  show g.isBalancedWithin s.options.zero >>= _ = _
  rw [isBalancedWithin_of_base hb]
  cases s.input.isBalancedWithin s.options.zero with
  | error => rfl
  | ok balanced =>
    cases balanced with
    | false => rfl
    | true =>
      calc g.star >>= (s.withInput g).startWith
          = g.star >>= fun k => (s.startWith k).map fun p => (p.1, p.2.withInput g) := by
            congr 1
            exact funext fun k => startWith_withInput s k g
        _ = s.input.star >>= fun k => (s.startWith k).map fun p => (p.1, p.2.withInput g) :=
            Checked.bind_congr_of_map (m := fun k => (s.startWith k).map fun p => (p.1, p.2.withInput g))
              (star_of_base hb) fun k => by rw [startWith_unpriced]
        _ = (s.input.star >>= s.startWith).map fun p => (p.1, p.2.withInput g) := by
            cases s.input.star <;> rfl

end Transportation.Simplex
