import Mathlib.Algebra.Group.Nat.Defs
import Transportation.Numeral.Integer
/-!
# The grammar of integer numerals

A natural number is decimal digits, with a plus sign or without; an integer may have a minus sign instead. Leading zeros
do not matter, and there is nothing else in a numeral. Reading takes exactly the numerals whose number is in range.
-/

namespace Transportation.Numeral

/-- The text is digits, at least one, and they are those of `n`. -/
def Decimal (cs : List Char) (n : Nat) : Prop :=
  cs ≠ [] ∧ (∀ c ∈ cs, c.isDigit = true) ∧ n = Nat.ofDigitChars 10 cs 0

/-- The text is the natural number `n`. -/
def Natural (cs : List Char) (n : Nat) : Prop :=
  Decimal cs n ∨ ∃ ds, cs = '+' :: ds ∧ Decimal ds n

/-- The text is the natural number `n` of 64 bits. -/
def Count (cs : List Char) (n : Nat) : Prop :=
  Natural cs n ∧ n < 2 ^ 64

/-- The text is the integer `x`. -/
def Integral (cs : List Char) (x : Int) : Prop :=
  (∃ n : Nat, Natural cs n ∧ x = n) ∨ ∃ ds, ∃ n : Nat, cs = '-' :: ds ∧ Decimal ds n ∧ x = -n

variable {bound : Nat} {c : Char} {cs : List Char}

theorem readDigits_cons_eq_ok_iff {e : NumeralError} {n : Nat} :
    readDigits bound e (c :: cs) 0 = .ok n ↔ Decimal (c :: cs) n ∧ n ≤ bound := by
  rw [readDigits_eq_ok_iff (Nat.zero_le _), Decimal]
  simp [and_assoc]

theorem not_decimal_of_head {n : Nat} (hc : c.isDigit = false) : ¬ Decimal (c :: cs) n := by
  rintro ⟨-, hdigits, -⟩
  have := hdigits c List.mem_cons_self
  simp [hc] at this

theorem readNat_eq_ok_iff {n : Nat} : readNat bound cs = .ok n ↔ Natural cs n ∧ n ≤ bound := by
  unfold readNat Natural
  split
  · simp [Decimal, throw, throwThe, MonadExceptOf.throw]
  · simp [Decimal, throw, throwThe, MonadExceptOf.throw]
  · next ds hds =>
    cases ds with
    | nil => exact absurd rfl hds
    | cons d ds => rw [readDigits_cons_eq_ok_iff]; simp [not_decimal_of_head]
  · next hnil _ hplus =>
    cases cs with
    | nil => exact absurd rfl hnil
    | cons c cs =>
      rw [readDigits_cons_eq_ok_iff]
      have hc : c ≠ '+' := fun h => hplus cs (by rw [h])
      simp [hc]

theorem readCount_eq_ok_iff {n : Nat} : readCount cs = .ok n ↔ Count cs n := by
  rw [readCount, readNat_eq_ok_iff]
  exact and_congr_right fun _ => Nat.le_sub_one_iff_lt (by decide)

theorem bind_pure_eq_ok_iff {α β : Type} {x : Except NumeralError α} {f : α → β} {y : β} :
    (x >>= fun a => pure (f a)) = .ok y ↔ ∃ a, x = .ok a ∧ f a = y := by
  cases x <;> simp [bind, Except.bind, pure, Except.pure]

theorem integral_minus_iff {x : Int} : Integral ('-' :: cs) x ↔ ∃ n : Nat, Decimal cs n ∧ x = -n := by
  have hnat : ∀ n, ¬ Natural ('-' :: cs) n := by
    rintro n (h | ⟨ds, h, -⟩)
    · exact not_decimal_of_head (by decide) h
    · exact absurd (List.cons.inj h).1 (by decide)
  simp [Integral, hnat]

theorem readInt_eq_ok_iff {max : Nat} {x : Int} :
    readInt max cs = .ok x ↔ Integral cs x ∧ -(max + 1 : Int) ≤ x ∧ x ≤ max := by
  unfold readInt
  split
  · rw [integral_minus_iff]
    simp [Decimal, throw, throwThe, MonadExceptOf.throw]
  · next ds hds =>
    cases ds with
    | nil => exact absurd rfl hds
    | cons d ds =>
      rw [bind_pure_eq_ok_iff, integral_minus_iff]
      simp only [readDigits_cons_eq_ok_iff]
      constructor
      · rintro ⟨n, ⟨hn, hle⟩, rfl⟩
        exact ⟨⟨n, hn, rfl⟩, by omega, by omega⟩
      · rintro ⟨⟨n, hn, rfl⟩, hlower, -⟩
        exact ⟨n, ⟨hn, by omega⟩, rfl⟩
  · next _ hminus =>
    have hno : ¬ ∃ ds, ∃ n : Nat, cs = '-' :: ds ∧ Decimal ds n ∧ x = -n := by
      rintro ⟨ds, n, rfl, -⟩
      exact hminus ds rfl
    simp only [bind_pure_eq_ok_iff, readNat_eq_ok_iff, Integral, or_iff_left hno]
    constructor
    · rintro ⟨n, ⟨hn, hle⟩, rfl⟩
      exact ⟨⟨n, hn, rfl⟩, by omega, by omega⟩
    · rintro ⟨⟨n, hn, rfl⟩, -, hupper⟩
      exact ⟨n, ⟨hn, by omega⟩, rfl⟩

/-- A value is an integer in range. -/
theorem read_eq_ok_iff {max : Nat} {a : Signed max} : Numeral.read cs = .ok a ↔ Integral cs a.val := by
  have hrange : readInt max cs = .ok a.val ↔ Integral cs a.val := by
    rw [readInt_eq_ok_iff]
    exact and_iff_left ⟨a.lower, a.upper⟩
  rw [← hrange]
  simp only [Numeral.read]
  cases hx : readInt max cs with
  | error e => simp [bind, Except.bind]
  | ok x =>
    have hx' := (readInt_eq_ok_iff.1 hx).2
    have hsome : Signed.ofInt? x = some (⟨x, hx'.1, hx'.2⟩ : Signed max) := Signed.ofInt?_eq_some_iff.2 rfl
    simp only [bind, Except.bind, hsome, pure, Except.pure, Except.ok.injEq]
    exact ⟨fun h => congrArg Signed.val h, fun h => Signed.ext h⟩

end Transportation.Numeral
