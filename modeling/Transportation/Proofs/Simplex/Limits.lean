import Transportation.Proofs.Amount
import Transportation.Proofs.Simplex.Entering
import Transportation.Proofs.Simplex.Input
/-!
# Limits

With a limit of `n` pivots, `optimize` does what at most `n` single pivots do, one after the other (`PivotsUpTo`).
Whether the tree is optimal after the last of them is found by pricing alone. Pivots do not read the limit, and complete
pricing does not move the cursor, so a phase that was stopped by its limit can be resumed (`run_within_withLimit`).
-/

namespace Transportation

namespace Simplex

open Checked

variable {F : Type} [Amount F] {s t u : Simplex F} {k n limit count : Nat}

/-! ## Single pivots -/

/-- The state `t` is `s` after `k` pivots, each of which has exchanged arcs. -/
inductive Exchanges (s : Simplex F) : Nat → Simplex F → Prop
  | refl : Exchanges s 0 s
  | step {k t u p} (ht : Exchanges s k t) (h : t.run pivot = .ok (.ok (some p), u)) : Exchanges s (k + 1) u

theorem Exchanges.pivots (h : Exchanges s k t) : Pivots s t := by
  induction h with
  | refl => exact .refl
  | step _ h ih => exact ih.step (pivotRun_of_run h)

theorem Exchanges.phase_eq (h : Exchanges s k t) : t.phase = s.phase :=
  h.pivots.constants.2.2.1

/-- Pivots that succeed use up the limit one by one. -/
theorem Exchanges.run_within (h : Exchanges s k t) (n : Nat) :
    s.run (optimizeWithin limit (k + n) count) = t.run (optimizeWithin limit n (count + k)) := by
  induction h generalizing n with
  | refl => rw [Nat.zero_add, Nat.add_zero]
  | @step k t u p _ h ih =>
    rw [Nat.add_assoc, Nat.add_comm 1 n, ih, optimizeWithin, run_bind, h]
    rfl

theorem run_optimize (hs : s.phase ≠ .setup) :
    s.run optimize = s.run (optimizeWithin s.pivotLimit s.pivotLimit 0) := by
  rw [optimize, run_requireTree_bind, if_neg hs, run_get_bind]

omit [Amount F] in
theorem pivotLimit_eq (hn : s.options.maxPivots = some n) : s.pivotLimit = n := by
  rw [pivotLimit, hn, Option.getD_some]

theorem Exchanges.run_optimize (h : Exchanges s k t) (hs : s.phase ≠ .setup) (hn : s.options.maxPivots = some (k + n)) :
    s.run optimize = t.run (optimizeWithin (k + n) n k) := by
  rw [Simplex.run_optimize hs, pivotLimit_eq hn, h.run_within, Nat.zero_add]

theorem run_pivot_of_price_error {f : Fault} (hs : s.phase ≠ .setup) (h : s.price = .error f) :
    s.run pivot = .error f := by
  rw [pivot, run_requireTree_bind, if_neg hs, run_bind, run_findEntering, h]
  rfl

theorem run_pivot_of_price_none {cursor : Nat} (hs : s.phase ≠ .setup) (h : s.price = .ok (none, cursor)) :
    s.run pivot = .ok (.ok none, { s with cursor }) := by
  rw [pivot, run_requireTree_bind, if_neg hs, run_bind, run_findEntering, h]
  rfl

/-! ## What follows the last pivot -/

theorem run_within_zero : s.run (optimizeWithin limit 0 count) = s.price.map fun (c, cursor) =>
    (if c.isSome then .error (.iterationLimit limit) else .ok count, { s with cursor }) := by
  rw [optimizeWithin, run_bind, run_findEntering]
  cases s.price with
  | error f => rfl
  | ok p =>
    obtain ⟨c, cursor⟩ := p
    cases c <;> rfl

theorem run_within_succ_of_error {f : Fault} (h : s.run pivot = .error f) :
    s.run (optimizeWithin limit (n + 1) count) = .error f := by
  rw [optimizeWithin, run_bind, h]
  rfl

theorem run_within_succ_of_failed {e : SolveError} (h : s.run pivot = .ok (.error e, t)) :
    s.run (optimizeWithin limit (n + 1) count) = .ok (.error e, t) := by
  rw [optimizeWithin, run_bind, h]
  rfl

/-- If no arc may enter, it does not matter how many pivots are left. -/
theorem run_within_of_none (h : s.run pivot = .ok (.ok none, t)) :
    s.run (optimizeWithin limit n count) = .ok (.ok count, t) := by
  cases n with
  | zero =>
    obtain ⟨cursor, hprice, rfl⟩ := (pivotRun_of_run h).of_none
    rw [run_within_zero, hprice]
    rfl
  | succ n =>
    rw [optimizeWithin, run_bind, h]
    rfl

/-- If no pivot before the `n`-th finds no arc, fails or faults, there are `n` of them. -/
theorem exists_exchanges (hnone : ∀ k t u, k < n → Exchanges s k t → t.run pivot ≠ .ok (.ok none, u))
    (herror : ∀ k t e u, k < n → Exchanges s k t → t.run pivot ≠ .ok (.error e, u))
    (hfault : ∀ k t f, k < n → Exchanges s k t → t.run pivot ≠ .error f) : ∀ k ≤ n, ∃ t, Exchanges s k t := by
  intro k hk
  induction k with
  | zero => exact ⟨s, .refl⟩
  | succ k ih =>
    obtain ⟨t, ht⟩ := ih (Nat.le_of_succ_le hk)
    cases hr : t.run pivot with
    | error f => exact absurd hr (hfault k t f hk ht)
    | ok r =>
      obtain ⟨r, u⟩ := r
      cases r with
      | error e => exact absurd hr (herror k t e u hk ht)
      | ok o =>
        cases o with
        | none => exact absurd hr (hnone k t u hk ht)
        | some p => exact ⟨u, ht.step hr⟩

/-- With a limit of `n` pivots the phase takes the course of single pivots. -/
structure PivotsUpTo (s : Simplex F) (n : Nat) : Prop where
  /-- After `k` pivots there is nothing to do: `k` is the result, and the state is the one they have led to, but for the
  cursor. -/
  optimal : ∀ {k t u}, k ≤ n → Exchanges s k t → t.run pivot = .ok (.ok none, u) →
    s.run optimize = .ok (.ok k, u) ∧ u = { t with cursor := u.cursor }
  /-- A pivot below the limit fails. -/
  failed : ∀ {k t e u}, k < n → Exchanges s k t → t.run pivot = .ok (.error e, u) → s.run optimize = .ok (.error e, u)
  /-- A pivot below the limit faults. -/
  faulted : ∀ {k t f}, k < n → Exchanges s k t → t.run pivot = .error f → s.run optimize = .error f
  /-- At the limit the search for another arc faults. -/
  unpriced : ∀ {t f}, Exchanges s n t → t.price = .error f → t.run pivot = .error f ∧ s.run optimize = .error f
  /-- In all other cases `n` pivots are made, and there is an arc that goes below minus the tolerance. -/
  limited : (∀ k t u, k ≤ n → Exchanges s k t → t.run pivot ≠ .ok (.ok none, u)) →
    (∀ k t e u, k < n → Exchanges s k t → t.run pivot ≠ .ok (.error e, u)) →
    (∀ k t f, k < n → Exchanges s k t → t.run pivot ≠ .error f) → (∀ t f, Exchanges s n t → t.price ≠ .error f) →
    ∃ t cursor, Exchanges s n t ∧ s.run optimize = .ok (.error (.iterationLimit n), { t with cursor }) ∧
      (∃ c, t.price = .ok (some c, cursor)) ∧
      ∃ a r bound, t.solution.reducedCost? t.phase a = .ok (some r) ∧ Amount.neg t.options.zero = .ok bound ∧
        Amount.lt r bound = true

theorem pivotsUpTo_of_limit [OrderedAmount F] (hs : s.phase ≠ .setup) (hn : s.options.maxPivots = some n) :
    s.PivotsUpTo n where
  optimal {k t u} hk ht h := by
    obtain ⟨m, rfl⟩ := Nat.exists_eq_add_of_le hk
    obtain ⟨cursor, -, hu⟩ := (pivotRun_of_run h).of_none
    exact ⟨(ht.run_optimize hs hn).trans (run_within_of_none h), by rw [hu]⟩
  failed {k t e u} hk ht h := by
    obtain ⟨m, rfl⟩ := Nat.exists_eq_add_of_lt hk
    exact (ht.run_optimize hs hn).trans (run_within_succ_of_failed h)
  faulted {k t f} hk ht h := by
    obtain ⟨m, rfl⟩ := Nat.exists_eq_add_of_lt hk
    exact (ht.run_optimize hs hn).trans (run_within_succ_of_error h)
  unpriced {t f} ht h := by
    refine ⟨run_pivot_of_price_error (ht.phase_eq.symm ▸ hs) h, ?_⟩
    rw [ht.run_optimize (n := 0) hs hn, run_within_zero, h]
    rfl
  limited hnone herror hfault hprice := by
    obtain ⟨t, ht⟩ := exists_exchanges (fun k t u hk => hnone k t u hk.le) herror hfault n (le_refl n)
    have hphase : t.phase ≠ .setup := ht.phase_eq.symm ▸ hs
    cases hp : t.price with
    | error f => exact absurd hp (hprice t f ht)
    | ok p =>
      obtain ⟨c, cursor⟩ := p
      cases c with
      | none => exact absurd (run_pivot_of_price_none hphase hp) (hnone n t _ (le_refl n) ht)
      | some c =>
        obtain ⟨hr, bound, hb, hlt⟩ := attractive_of_price
          (Q := fun r => ∃ bound, Amount.neg t.options.zero = .ok bound ∧ Amount.lt r bound = true)
          (fun hb hlt => ⟨_, hb, hlt⟩) (fun ⟨_, hb, hlt⟩ hlt' => ⟨_, hb, OrderedAmount.lt_trans hlt' hlt⟩) hp
        refine ⟨t, cursor, ht, ?_, ⟨c, hp⟩, c.arc, c.reducedCost, bound, hr, hb, hlt⟩
        rw [ht.run_optimize (n := 0) hs hn, run_within_zero, hp]
        rfl

/-! ## Going on after the limit -/

omit [Amount F] in
/-- The solver as it is, with another limit of pivots. -/
def withLimit (s : Simplex F) (n : Nat) : Simplex F :=
  { s with options := { s.options with maxPivots := some n } }

/-- The result of a phase of which `n` pivots were made before, and may `b` more be made. -/
def resumed (n b : Nat) : Except SolveError Nat → Except SolveError Nat
  | .ok k => .ok (n + k)
  | .error (.iterationLimit _) => .error (.iterationLimit (n + b))
  | .error e => .error e

theorem run_pivot_withLimit (s : Simplex F) (n : Nat) :
    (s.withLimit n).run pivot = (s.run pivot).map fun p => (p.1, p.2.withLimit n) :=
  Ignores.pivot id (fun _ => some n) s

theorem Exchanges.withLimit (h : Exchanges s k t) (n : Nat) : Exchanges (s.withLimit n) k (t.withLimit n) := by
  induction h with
  | refl => exact .refl
  | @step k t u p _ h ih =>
    refine ih.step (p := p) ?_
    rw [run_pivot_withLimit, h]
    rfl

/-- A pivot does not fail for its limit. -/
theorem resumed_of_pivot {b : Nat} {e : SolveError} (h : s.run pivot = .ok (.error e, t)) :
    resumed n b (.error e) = .error e := by
  obtain rfl | rfl := (pivotRun_of_run h).error_eq <;> rfl

/-- Pivots under another limit, of which `m` have been made before. -/
theorem run_within_withLimit (s : Simplex F) (l m b n count : Nat) :
    (s.withLimit l).run (optimizeWithin (m + b) n (m + count)) =
      (s.run (optimizeWithin b n count)).map fun p => (resumed m b p.1, p.2.withLimit l) := by
  induction n generalizing s count with
  | zero =>
    rw [run_within_zero, run_within_zero]
    show Except.map _ s.price = _
    cases s.price with
    | error f => rfl
    | ok p =>
      obtain ⟨c, cursor⟩ := p
      cases c <;> rfl
  | succ n ih =>
    rw [optimizeWithin, optimizeWithin, run_bind, run_bind, run_pivot_withLimit]
    cases h : s.run pivot with
    | error f => rfl
    | ok p =>
      obtain ⟨r, t⟩ := p
      cases r with
      | error e => exact congrArg (fun r => Except.ok (r, t.withLimit l)) (resumed_of_pivot h).symm
      | ok o =>
        cases o with
        | none => rfl
        | some p => exact ih t (count + 1)

/-- A phase that was stopped by its limit has made as many pivots as it may. -/
theorem exchanges_of_limit [OrderedAmount F] (hs : s.phase ≠ .setup) (hn : s.options.maxPivots = some n)
    (h : s.run optimize = .ok (.error (.iterationLimit n), t)) :
    ∃ u cursor c, Exchanges s n u ∧ u.price = .ok (some c, cursor) ∧ t = { u with cursor } := by
  have hpivots := pivotsUpTo_of_limit hs hn
  obtain ⟨u, cursor, hu, hrun, ⟨c, hprice⟩, -⟩ := hpivots.limited
    (fun k u u' hk hu hp => by
      rw [(hpivots.optimal hk hu hp).1] at h
      cases h)
    (fun k u e u' hk hu hp => by
      rw [hpivots.failed hk hu hp] at h
      obtain he | he := (pivotRun_of_run hp).error_eq <;> rw [he] at h <;> cases h)
    (fun k u f hk hu hp => by
      rw [hpivots.faulted hk hu hp] at h
      cases h)
    fun u f hu hp => by
      rw [(hpivots.unpriced hu hp).2] at h
      cases h
  rw [hrun] at h
  cases h
  exact ⟨u, cursor, c, hu, hprice, rfl⟩

/-- Outside the setup, with a limit of `n` pivots, the phase does what single pivots do, up to `n` of them. With complete
pricing, if the limit stops it and `b` more pivots are then allowed, it ends as it does when `n + b` pivots are allowed at
once, in the same state. -/
theorem optimize_of_limit [OrderedAmount F] (hs : s.phase ≠ .setup) (hn : s.options.maxPivots = some n) :
    s.PivotsUpTo n ∧ (s.options.pricing = .complete → ∀ t b, s.run optimize = .ok (.error (.iterationLimit n), t) →
      (s.withLimit (n + b)).run optimize =
        ((t.withLimit b).run optimize).map fun p => (resumed n b p.1, p.2.withLimit (n + b))) := by
  refine ⟨pivotsUpTo_of_limit hs hn, fun hc t b h => ?_⟩
  obtain ⟨u, cursor, c, hu, hprice, rfl⟩ := exchanges_of_limit hs hn h
  have hphase : u.phase ≠ .setup := hu.phase_eq.symm ▸ hs
  obtain rfl : cursor = u.cursor := cursor_of_price (hu.pivots.constants.2.2.2 ▸ hc) hprice
  calc (s.withLimit (n + b)).run optimize
      = (u.withLimit (n + b)).run (optimizeWithin (n + b) b (n + 0)) := (hu.withLimit (n + b)).run_optimize hs rfl
    _ = ((u.withLimit b).run (optimizeWithin b b 0)).map fun p => (resumed n b p.1, p.2.withLimit (n + b)) :=
        run_within_withLimit (u.withLimit b) (n + b) n b b 0
    _ = ((u.withLimit b).run optimize).map fun p => (resumed n b p.1, p.2.withLimit (n + b)) := by
        rw [run_optimize (s := u.withLimit b) hphase]
        rfl

theorem optimize_of_relay : ∃ s t : Simplex Signed8, Reachable (fun _ => True) Builder.relay.network s ∧
    s.phase ≠ .setup ∧ s.options.maxPivots = some 1 ∧ s.options.pricing = .complete ∧
    s.run optimize = .ok (.error (.iterationLimit 1), t) ∧ s.PivotsUpTo 1 ∧
    ∀ b, (s.withLimit (1 + b)).run optimize =
      ((t.withLimit b).run optimize).map fun p => (resumed 1 b p.1, p.2.withLimit (1 + b)) := by
  let s := ((new Builder.relay.network).after start).withLimit 1
  have hreach : Reachable (fun _ => True) Builder.relay.network s := .setOptions (.start .new run_start_relay) trivial
  have hphase : s.phase ≠ .setup := by decide +kernel
  have hcomplete : s.options.pricing = .complete := by decide +kernel
  have hoptimize : s.run optimize = .ok (.error (.iterationLimit 1), s.after optimize) := by decide +kernel
  obtain ⟨hpivots, hresumed⟩ := optimize_of_limit hphase rfl
  exact ⟨s, _, hreach, hphase, rfl, hcomplete, hoptimize, hpivots, fun b => hresumed hcomplete _ b hoptimize⟩

end Simplex

/-- A builder of an instance in which the way back costs as much as the way there. -/
def Builder.rebound : Builder Signed8 where
  name := "rebound"
  weights := #[.minusOne, .one]
  links := #[⟨⟨0⟩, ⟨1⟩, .ofNat 100 (by decide)⟩, ⟨⟨1⟩, ⟨0⟩, .ofNat 100 (by decide)⟩]
  joins l hl := by
    obtain rfl | rfl : l = _ ∨ l = _ := by simpa using hl
    all_goals exact ⟨by decide, by decide, by decide⟩

namespace Simplex

/-- A solver of the rebound in the second phase. -/
def ofRebound : Simplex Signed8 :=
  ((new Builder.rebound.network).after start).after restoreCosts

theorem reachable_ofRebound : Reachable (fun _ => True) Builder.rebound.network ofRebound ∧
    ofRebound.phase = .optimal ∧ ofRebound.options.zero.val = 0 := by
  have hstart : (new Builder.rebound.network).run start = .ok (.ok (), (new Builder.rebound.network).after start) := by
    decide +kernel
  have hrestore : ((new Builder.rebound.network).after start).run restoreCosts = .ok (.ok (), ofRebound) := by
    decide +kernel
  exact ⟨.restoreCosts (.start .new hstart) hrestore, by decide +kernel⟩

/-- No arc of the rebound goes below zero. -/
theorem reducedCost_ofRebound : ∀ x ∈ ofRebound.solution.arcs.toList, x.Eligible ofRebound.phase →
    0 ≤ x.reducedCost ofRebound.solution.potential := by
  simp only [Arc.eligible_iff]
  decide +kernel

/-- Where it is not known whether the tree is optimal, the phase does not end at its limit, but with the same fault as a
pivot: no arc goes below minus the tolerance, but the reduced cost of one overflows. -/
theorem unpriced_of_rebound : ∃ s : Simplex Signed8, Reachable (fun _ => True) Builder.rebound.network s ∧
    s.phase ≠ .setup ∧ s.options.maxPivots = some 0 ∧ Exchanges s 0 s ∧ s.options.zero.val = 0 ∧
    (∀ x ∈ s.solution.arcs.toList, x.Eligible s.phase → 0 ≤ x.reducedCost s.solution.potential) ∧
    s.run pivot = .error (.overflow .add) ∧ s.run optimize = .error (.overflow .add) := by
  obtain ⟨hreach, hphase, hzero⟩ := reachable_ofRebound
  have hcosts := reducedCost_ofRebound
  have hpivot : (ofRebound.withLimit 0).run pivot = .error (.overflow .add) := by decide +kernel
  have hoptimize : (ofRebound.withLimit 0).run optimize = .error (.overflow .add) := by decide +kernel
  refine ⟨ofRebound.withLimit 0, .setOptions hreach trivial, ?_, rfl, .refl, hzero, hcosts, hpivot, hoptimize⟩
  rw [show (ofRebound.withLimit 0).phase = .optimal from hphase]
  decide

end Simplex

end Transportation
