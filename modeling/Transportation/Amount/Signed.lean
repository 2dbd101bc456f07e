import Transportation.Amount

/-!
# Signed integers of bounded size

`Signed max` holds the integers from `-(max + 1)` to `max`. Arithmetic is that of the integers: an operation
succeeds exactly if its result is in range (`checked_eq_ok_iff`), and faults as an overflow otherwise.
-/

namespace Transportation

/-- The integers from `-(max + 1)` to `max`. -/
structure Signed (max : Nat) where
  val : Int
  lower : -(max + 1 : Int) ≤ val
  upper : val ≤ max
  deriving DecidableEq, Repr

namespace Signed

variable {max : Nat}

theorem ext {a b : Signed max} (h : a.val = b.val) : a = b := by
  cases a; cases b; simp_all

def ofInt? (x : Int) : Option (Signed max) :=
  if h : -(max + 1 : Int) ≤ x ∧ x ≤ max then some ⟨x, h.1, h.2⟩ else none

/-- The result `x` of the step `op`, which must be in range. -/
def checked (op : Operation) (x : Int) : Checked (Signed max) :=
  if h : -(max + 1 : Int) ≤ x ∧ x ≤ max then pure ⟨x, h.1, h.2⟩ else throw (.overflow op)

def ofNat (n : Nat) (h : n ≤ max) : Signed max :=
  ⟨n, by omega, by omega⟩

theorem ofInt?_eq_some_iff {x : Int} {a : Signed max} : ofInt? x = some a ↔ a.val = x := by
  unfold ofInt?
  constructor
  · intro h
    split at h
    · cases h; rfl
    · cases h
  · rintro rfl
    exact dif_pos ⟨a.lower, a.upper⟩

theorem checked_eq_ok_iff {op : Operation} {x : Int} {a : Signed max} : checked op x = .ok a ↔ a.val = x := by
  unfold checked
  constructor
  · intro h
    split at h
    · cases h; rfl
    · cases h
  · rintro rfl
    exact dif_pos ⟨a.lower, a.upper⟩

/-- Division rounds toward zero. -/
def div (a b : Signed max) : Checked (Signed max) :=
  if b.val = 0 then throw .divisionByZero else checked .div (a.val.tdiv b.val)

/-- A type that holds more than zero holds one. The zero is named, so that it is the same one in every module. -/
instance [@NeZero Nat Zero.ofOfNat0 max] : Amount (Signed max) where
  zero := ofNat 0 (Nat.zero_le _)
  one := ofNat 1 (Nat.one_le_iff_ne_zero.2 (@NeZero.ne Nat Zero.ofOfNat0 max _))
  largest := ofNat max (Nat.le_refl _)
  ofCount? n := ofInt? n
  lt a b := decide (a.val < b.val)
  le a b := decide (a.val ≤ b.val)
  isZero a := decide (a.val = 0)
  add a b := checked .add (a.val + b.val)
  sub a b := checked .sub (a.val - b.val)
  mul a b := checked .mul (a.val * b.val)
  div := div
  neg a := checked .neg (-a.val)
  abs a := if a.val < 0 then checked .neg (-a.val) else pure a

/-! ## Steps of arithmetic -/

section
variable [@NeZero Nat Zero.ofOfNat0 max] {a b c : Signed max}

theorem zero_val : (Amount.zero : Signed max).val = 0 := rfl

theorem one_val : (Amount.one : Signed max).val = 1 := rfl

theorem largest_val : (Amount.largest : Signed max).val = max := rfl

theorem ofCount?_eq_some_iff {n : Nat} : Amount.ofCount? n = some a ↔ a.val = n :=
  ofInt?_eq_some_iff

theorem lt_iff : Amount.lt a b = true ↔ a.val < b.val :=
  decide_eq_true_iff

theorem le_iff : Amount.le a b = true ↔ a.val ≤ b.val :=
  decide_eq_true_iff

theorem isZero_iff : Amount.isZero a = true ↔ a.val = 0 :=
  decide_eq_true_iff

theorem add_eq_ok_iff : Amount.add a b = .ok c ↔ c.val = a.val + b.val :=
  checked_eq_ok_iff

theorem sub_eq_ok_iff : Amount.sub a b = .ok c ↔ c.val = a.val - b.val :=
  checked_eq_ok_iff

theorem mul_eq_ok_iff : Amount.mul a b = .ok c ↔ c.val = a.val * b.val :=
  checked_eq_ok_iff

theorem div_eq_ok_iff : Amount.div a b = .ok c ↔ b.val ≠ 0 ∧ c.val = a.val.tdiv b.val := by
  show div a b = .ok c ↔ _
  unfold div
  split
  · next h => simp [h, throw, throwThe, MonadExceptOf.throw]
  · next h => simp [h, checked_eq_ok_iff]

theorem neg_eq_ok_iff : Amount.neg a = .ok c ↔ c.val = -a.val :=
  checked_eq_ok_iff

theorem abs_eq_ok_iff : Amount.abs a = .ok c ↔ c.val = a.val.natAbs := by
  show (if a.val < 0 then checked .neg (-a.val) else pure a) = .ok c ↔ _
  split
  · next h => rw [checked_eq_ok_iff]; omega
  · next h =>
    rw [Checked.pure_eq_ok_iff]
    constructor
    · rintro rfl; omega
    · intro hc; exact ext (by omega)

end

end Signed

/-- The integers of 8 bits. -/
abbrev Signed8 := Signed 127

/-- Named, so that the arithmetic of 8 bits is the same one in every module. -/
instance (priority := 2000) Signed8.neZero : @NeZero Nat Zero.ofOfNat0 127 := ⟨by decide⟩

/-- The integers of 32 bits. -/
abbrev Signed32 := Signed 2147483647

/-- The integers of 64 bits. -/
abbrev Signed64 := Signed 9223372036854775807

end Transportation
