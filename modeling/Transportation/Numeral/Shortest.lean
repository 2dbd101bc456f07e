import Transportation.Numeral.Dyadic

/-!
# The shortest decimal of a double

Among the decimals that round to a double, one with the fewest digits is taken, and of these the nearest to it; of
two equally near the larger. It is found by trying one digit, two digits and so on: on each grid of decimals only
the two neighbours of the double matter.
-/

namespace Transportation

/-- The number `digits * 10 ^ exponent`. -/
structure Decimal where
  digits : Nat
  exponent : Int
  deriving DecidableEq, Repr

namespace Decimal

/-- The number of decimal digits of `n`, which is one for zero. -/
def length (n : Nat) : Nat :=
  (Nat.toDigits 10 n).length

/-- Moves zeros at the end of the digits into the exponent, at most `n` of them. -/
def strip : Nat → Decimal → Decimal
  | 0, d => d
  | n + 1, d => if d.digits ≠ 0 ∧ d.digits % 10 = 0 then strip n ⟨d.digits / 10, d.exponent + 1⟩ else d

/-- The text of the digits of `d` in positional notation, without superfluous zeros or point. -/
def positional (d : Decimal) : String :=
  let digits := toString d.digits
  let places := (-d.exponent).toNat
  if 0 ≤ d.exponent then
    digits ++ String.ofList (List.replicate d.exponent.toNat '0')
  else
    let padded := List.replicate (places + 1 - digits.length) '0' ++ digits.toList
    let whole := padded.length - places
    String.ofList (padded.take whole) ++ "." ++ String.ofList (padded.drop whole)

end Decimal

namespace Dyadic

/-- The number `k` with `10 ^ (k - 1) ≤ d < 10 ^ k`, for a positive `d` that is not a power of ten below one. -/
def scale (d : Dyadic) : Int :=
  let (num, den) := d.scaled 0
  if den ≤ num then Decimal.length (num / den) else 1 - Decimal.length (den / num)

/-- The decimal with the exponent `p` nearest to `d` among those that round to `d`. -/
def nearest? (d : Dyadic) (p : Int) : Option Decimal :=
  let (num, den) := d.scaled (-p)
  let below := num / den
  let above := below + 1
  match d.isRoundedFrom below p, d.isRoundedFrom above p with
  | false, false => none
  | true, false => some ⟨below, p⟩
  | false, true => some ⟨above, p⟩
  | true, true => some ⟨if 2 * (num % den) < den then below else above, p⟩

/-- A shortest decimal that rounds to `d`. Seventeen digits always suffice; the digits of `d` itself are there for
totality. -/
def shortest (d : Dyadic) : Decimal :=
  if d.mantissa = 0 then
    ⟨0, 0⟩
  else
    let k := d.scale
    match (List.range 17).findSome? fun (i : Nat) => d.nearest? (k - (i + 1)) with
    | some r => r.strip 17
    | none => ⟨d.mantissa * Nat.pow 2 d.exponent.toNat * Nat.pow 5 (-d.exponent).toNat, min d.exponent 0⟩

end Dyadic

end Transportation
