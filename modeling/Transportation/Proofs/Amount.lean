import Transportation.Amount.Double
import Transportation.Proofs.Faults
/-!
# Laws of number types

What the solver relies on whatever its amounts are: no step of arithmetic faults but by an overflow
(`LawfulAmount`), and adding or taking away a cost of the first phase, which is zero or one, respects the order
(`OrderedAmount`).
-/

namespace Transportation

open Checked

def Fault.IsOverflow (e : Fault) : Prop :=
  ∃ op, e = .overflow op

/-- The amount of a positive count. -/
inductive Amount.Positive {F : Type} [Amount F] : F → Prop
  | count {k : Nat} {n : F} (hk : 0 < k) (h : ofCount? k = some n) : Positive n
  | one : Positive one
  | succ {n m : F} (hn : Positive n) (h : add n one = .ok m) : Positive m

/-- No step of arithmetic faults but by an overflow, as long as nothing is divided by zero. -/
class LawfulAmount (F : Type) [Amount F] : Prop where
  add : ∀ a b : F, FaultsOnly Fault.IsOverflow (Amount.add a b)
  sub : ∀ a b : F, FaultsOnly Fault.IsOverflow (Amount.sub a b)
  mul : ∀ a b : F, FaultsOnly Fault.IsOverflow (Amount.mul a b)
  div : ∀ a b : F, Amount.Positive b → FaultsOnly Fault.IsOverflow (Amount.div a b)
  neg : ∀ a : F, FaultsOnly Fault.IsOverflow (Amount.neg a)
  abs : ∀ a : F, FaultsOnly Fault.IsOverflow (Amount.abs a)

/-- Along an arc that costs nothing or one amounts do not decrease, and a difference of amounts in order is not below
minus a tolerance. An amount that is not at most itself is not ordered at all. -/
class OrderedAmount (F : Type) [Amount F] : Prop where
  le_refl_left : ∀ {a b : F}, Amount.le a b = true → Amount.le a a = true
  le_refl_right : ∀ {a b : F}, Amount.le a b = true → Amount.le b b = true
  le_trans : ∀ {a b c : F}, Amount.le a b = true → Amount.le b c = true → Amount.le a c = true
  lt_trans : ∀ {a b c : F}, Amount.lt a b = true → Amount.lt b c = true → Amount.lt a c = true
  zero_le_zero : Amount.le (Amount.zero : F) Amount.zero = true
  le_add_left : ∀ {a c d : F}, c = Amount.zero ∨ c = Amount.one → Amount.le a a = true → Amount.add c a = .ok d →
    Amount.le a d = true
  le_add_right : ∀ {a c d : F}, c = Amount.zero ∨ c = Amount.one → Amount.le a a = true → Amount.add a c = .ok d →
    Amount.le a d = true
  sub_le : ∀ {a c d : F}, c = Amount.zero ∨ c = Amount.one → Amount.le a a = true → Amount.sub a c = .ok d →
    Amount.le d a = true
  not_lt_neg : ∀ {a b c z w : F}, Amount.le a b = true → Amount.sub b a = .ok c → Amount.le Amount.zero z = true →
    Amount.neg z = .ok w → Amount.lt c w = false

/-! ## Bounded integers -/

namespace Signed

variable {max : Nat}

theorem faultsOnly_checked_overflow (op : Operation) (x : Int) :
    FaultsOnly Fault.IsOverflow (checked op x : Checked (Signed max)) := by
  unfold checked
  split
  · exact .pure _
  · rintro e he
    cases he
    exact ⟨op, rfl⟩

variable [NeZero max]

theorem val_pos_of_positive {n : Signed max} (h : Amount.Positive n) : 0 < n.val := by
  induction h with
  | count hk h =>
    rw [ofCount?_eq_some_iff.1 h]
    exact_mod_cast hk
  | one =>
    rw [one_val]
    decide
  | succ _ h ih =>
    rw [add_eq_ok_iff.1 h, one_val]
    omega

instance : LawfulAmount (Signed max) where
  add _ _ := faultsOnly_checked_overflow _ _
  sub _ _ := faultsOnly_checked_overflow _ _
  mul _ _ := faultsOnly_checked_overflow _ _
  div a b hb := by
    have hpos := val_pos_of_positive hb
    show FaultsOnly Fault.IsOverflow (div a b)
    rw [div, if_neg (by omega)]
    exact faultsOnly_checked_overflow _ _
  neg _ := faultsOnly_checked_overflow _ _
  abs a := by
    show FaultsOnly Fault.IsOverflow (if a.val < 0 then checked .neg (-a.val) else Pure.pure a)
    split
    · exact faultsOnly_checked_overflow _ _
    · exact .pure a

theorem val_nonneg_of_cost {c : Signed max} (h : c = Amount.zero ∨ c = Amount.one) : 0 ≤ c.val := by
  rcases h with rfl | rfl
  · exact Int.le_refl 0
  · rw [one_val]
    decide

instance : OrderedAmount (Signed max) where
  le_refl_left _ := le_iff.2 (Int.le_refl _)
  le_refl_right _ := le_iff.2 (Int.le_refl _)
  le_trans h h' := le_iff.2 (Int.le_trans (le_iff.1 h) (le_iff.1 h'))
  lt_trans h h' := lt_iff.2 (Int.lt_trans (lt_iff.1 h) (lt_iff.1 h'))
  zero_le_zero := le_iff.2 (Int.le_refl _)
  le_add_left hc _ h := by
    have := val_nonneg_of_cost hc
    have := add_eq_ok_iff.1 h
    exact le_iff.2 (by omega)
  le_add_right hc _ h := by
    have := val_nonneg_of_cost hc
    have := add_eq_ok_iff.1 h
    exact le_iff.2 (by omega)
  sub_le hc _ h := by
    have := val_nonneg_of_cost hc
    have := sub_eq_ok_iff.1 h
    exact le_iff.2 (by omega)
  not_lt_neg hab hc hz hw := by
    have := le_iff.1 hab
    have := sub_eq_ok_iff.1 hc
    have := le_iff.1 hz
    have := neg_eq_ok_iff.1 hw
    rw [zero_val] at *
    rw [← Bool.not_eq_true, lt_iff]
    omega

end Signed

/-! ## Doubles -/

instance : LawfulAmount Float where
  add a b := .pure (a + b)
  sub a b := .pure (a - b)
  mul a b := .pure (a * b)
  div a b _ := .pure (a / b)
  neg a := .pure (-a)
  abs a := .pure a.abs

end Transportation
