import Transportation.Amount.Signed
import Transportation.Numeral

/-!
# Integer numerals

An integer is an optional sign and decimal digits; leading zeros are allowed. Digits are read from the left, and
the first digit that leads out of range ends the reading, so what comes after it does not matter.
-/

namespace Transportation.Numeral

/-- The number whose digits are those of `n` and then the text, if it is at most `bound`. -/
def readDigits (bound : Nat) (outOfRange : NumeralError) : List Char → Nat → Except NumeralError Nat
  | [], n => pure n
  | c :: cs, n =>
    match digit? c with
    | none => throw .invalidDigit
    | some d => if bound < 10 * n + d then throw outOfRange else readDigits bound outOfRange cs (10 * n + d)

theorem digit?_eq_some_iff {c : Char} {d : Nat} :
    digit? c = some d ↔ c.isDigit = true ∧ d = c.toNat - '0'.toNat := by
  unfold digit?
  split
  · next h => rw [Option.some.injEq, eq_comm]; exact (and_iff_right h).symm
  · next h => exact ⟨nofun, fun h' => absurd h'.1 h⟩

theorem le_ofDigitChars (cs : List Char) (n : Nat) : n ≤ Nat.ofDigitChars 10 cs n := by
  induction cs generalizing n with
  | nil => simp
  | cons c cs ih =>
    rw [Nat.ofDigitChars_cons]
    exact Nat.le_trans (by omega) (ih _)

/-- Digits are read if their number is in range; that of each part is then, too. -/
theorem readDigits_eq_ok_iff {bound : Nat} {e : NumeralError} {cs : List Char} {m n : Nat} (hn : n ≤ bound) :
    readDigits bound e cs n = .ok m ↔
      (∀ c ∈ cs, c.isDigit = true) ∧ m = Nat.ofDigitChars 10 cs n ∧ m ≤ bound := by
  induction cs generalizing n with
  | nil =>
    simp only [readDigits, pure, Except.pure, Except.ok.injEq, Nat.ofDigitChars_nil]
    constructor
    · rintro rfl; exact ⟨by simp, rfl, hn⟩
    · exact fun h => h.2.1.symm
  | cons c cs ih =>
    simp only [readDigits, Nat.ofDigitChars_cons, List.forall_mem_cons]
    cases hd : digit? c with
    | none =>
      have hc : c.isDigit ≠ true := fun h => by
        rw [digit?_eq_some_iff.2 ⟨h, rfl⟩] at hd; cases hd
      simp [hc, throw, throwThe, MonadExceptOf.throw]
    | some d =>
      obtain ⟨hc, rfl⟩ := digit?_eq_some_iff.1 hd
      dsimp only
      split
      · next h =>
        have := le_ofDigitChars cs (10 * n + (c.toNat - '0'.toNat))
        simp only [throw, throwThe, MonadExceptOf.throw, reduceCtorEq, false_iff]
        rintro ⟨-, rfl, hm⟩
        omega
      · next h => rw [ih (Nat.le_of_not_lt h)]; simp [hc]

/-- Reads a natural number up to `bound`. The sign may be a plus. -/
def readNat (bound : Nat) : List Char → Except NumeralError Nat
  | [] => throw .emptyInteger
  | ['+'] => throw .invalidDigit
  | '+' :: cs => readDigits bound .tooLarge cs 0
  | cs => readDigits bound .tooLarge cs 0

/-- Reads an integer from `-(max + 1)` to `max`. -/
def readInt (max : Nat) : List Char → Except NumeralError Int
  | ['-'] => throw .invalidDigit
  | '-' :: cs => do return -(← readDigits (max + 1) .tooSmall cs 0)
  | cs => do return ← readNat max cs

theorem readDigits_toDigits {bound : Nat} {e : NumeralError} {n : Nat} (h : n ≤ bound) :
    readDigits bound e (Nat.toDigits 10 n) 0 = .ok n :=
  (readDigits_eq_ok_iff (Nat.zero_le _)).2
    ⟨fun _ => Nat.isDigit_of_mem_toDigits (by omega) (by omega), by simp, h⟩

/-- A text of digits is read as it is. -/
theorem readNat_of_isDigit {bound : Nat} {c : Char} {cs : List Char} (h : c.isDigit = true) :
    readNat bound (c :: cs) = readDigits bound .tooLarge (c :: cs) 0 := by
  have hc : c ≠ '+' := by rintro rfl; cases h
  unfold readNat
  split <;> simp_all

theorem readNat_toString {bound n : Nat} (h : n ≤ bound) : readNat bound (toString n).toList = .ok n := by
  rw [Nat.toString_eq_repr, Nat.repr_eq_ofList_toDigits, String.toList_ofList]
  have hd := readDigits_toDigits (e := .tooLarge) h
  cases hs : Nat.toDigits 10 n with
  | nil => exact absurd hs Nat.toDigits_ne_nil
  | cons c cs =>
    have hc : c.isDigit = true := Nat.isDigit_of_mem_toDigits (b := 10) (n := n) (by omega) (by omega) (by simp [hs])
    rw [readNat_of_isDigit hc, ← hs, hd]

/-- Reads a natural number of 64 bits. -/
def readCount : List Char → Except NumeralError Nat :=
  readNat (Nat.pow 2 64 - 1)

/-- A text that starts with a digit is read as a natural number. -/
theorem readInt_of_isDigit {max : Nat} {c : Char} {cs : List Char} (h : c.isDigit = true) :
    readInt max (c :: cs) = (readNat max (c :: cs)).map Int.ofNat := by
  have hc : c ≠ '-' := by rintro rfl; cases h
  unfold readInt
  split
  · simp_all
  · simp_all
  · cases readNat max (c :: cs) <;> rfl

theorem readInt_minus {max : Nat} {c : Char} {cs : List Char} :
    readInt max ('-' :: c :: cs) = (readDigits (max + 1) .tooSmall (c :: cs) 0).map fun n => -(n : Int) := by
  show (readDigits (max + 1) .tooSmall (c :: cs) 0 >>= fun n => pure (-(n : Int))) = _
  cases readDigits (max + 1) .tooSmall (c :: cs) 0 <;> rfl

theorem readInt_toString {max : Nat} {x : Int} (lower : -(max + 1 : Int) ≤ x) (upper : x ≤ max) :
    readInt max (toString x).toList = .ok x := by
  rw [Int.toString_eq_repr]
  cases x with
  | ofNat n =>
    have hd : Nat.toDigits 10 n ≠ [] := Nat.toDigits_ne_nil
    show readInt max n.repr.toList = _
    have hr : readNat max n.repr.toList = .ok n := readNat_toString (by simpa using upper)
    rw [Nat.repr_eq_ofList_toDigits, String.toList_ofList] at hr ⊢
    obtain ⟨c, cs, hs⟩ := List.exists_cons_of_ne_nil hd
    have hc : c.isDigit = true := Nat.isDigit_of_mem_toDigits (b := 10) (n := n) (by omega) (by omega) (by simp [hs])
    rw [hs] at hr ⊢
    rw [readInt_of_isDigit hc, hr]
    rfl
  | negSucc n =>
    have hd : Nat.toDigits 10 (n + 1) ≠ [] := Nat.toDigits_ne_nil
    show readInt max ("-" ++ (n + 1).repr).toList = _
    simp only [Nat.repr_eq_ofList_toDigits, String.toList_append, String.toList_ofList]
    show readInt max ('-' :: Nat.toDigits 10 (n + 1)) = _
    obtain ⟨c, cs, hs⟩ := List.exists_cons_of_ne_nil hd
    have hr : readDigits (max + 1) .tooSmall (Nat.toDigits 10 (n + 1)) 0 = .ok (n + 1) :=
      readDigits_toDigits (by omega)
    rw [hs] at hr ⊢
    rw [readInt_minus, hr]
    rfl

instance {max : Nat} : Numeral (Signed max) where
  read cs := do
    match Signed.ofInt? (← readInt max cs) with
    | some a => return a
    | none => throw .tooLarge
  write a := toString a.val

/-- What is written is read back. -/
theorem read_write {max : Nat} (a : Signed max) : Numeral.read (Numeral.write a).toList = .ok a := by
  simp only [Numeral.read, Numeral.write, readInt_toString a.lower a.upper, bind, Except.bind,
    Signed.ofInt?_eq_some_iff.2 rfl]
  rfl

end Transportation.Numeral
