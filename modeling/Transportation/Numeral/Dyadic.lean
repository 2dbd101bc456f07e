/-!
# Doubles as dyadic fractions

The magnitude of a finite double is an integer times a power of two. The numbers that round to it are those
between the midpoints to its neighbours, where a midpoint belongs to the double with the even integer.
-/

namespace Transportation

/-- The number `mantissa * 2 ^ exponent`. -/
structure Dyadic where
  mantissa : Nat
  exponent : Int
  deriving DecidableEq, Repr

inductive Magnitude where
  | nan
  | infinite
  | finite (d : Dyadic)
  deriving DecidableEq, Repr

namespace Dyadic

/-- The least exponent of a double, and the mantissa of the least normal double at each exponent. -/
def leastExponent : Int := -1074

def leastNormal : Nat := Nat.pow 2 52

/-- A numerator and a denominator of `d * 10 ^ k`. -/
def scaled (d : Dyadic) (k : Int) : Nat × Nat :=
  (d.mantissa * Nat.pow 2 d.exponent.toNat * Nat.pow 10 k.toNat, Nat.pow 2 (-d.exponent).toNat * Nat.pow 10 (-k).toNat)

/-- The midpoint between `d` and the next double below. The gap below the least mantissa is half as wide, except
at the least exponent. -/
def lowerEnd (d : Dyadic) : Dyadic :=
  if d.mantissa = leastNormal ∧ leastExponent < d.exponent then
    ⟨4 * d.mantissa - 1, d.exponent - 2⟩
  else
    ⟨4 * d.mantissa - 2, d.exponent - 2⟩

/-- The midpoint between `d` and the next double above. -/
def upperEnd (d : Dyadic) : Dyadic :=
  ⟨4 * d.mantissa + 2, d.exponent - 2⟩

/-- Whether `c * 10 ^ p` rounds to the double `d`. -/
def isRoundedFrom (d : Dyadic) (c : Nat) (p : Int) : Bool :=
  let (lo, loDen) := d.lowerEnd.scaled (-p)
  let (hi, hiDen) := d.upperEnd.scaled (-p)
  if d.mantissa % 2 = 0 then
    lo ≤ c * loDen && c * hiDen ≤ hi
  else
    lo < c * loDen && c * hiDen < hi

end Dyadic

/-- Whether the sign bit of `x` is set. -/
def Double.isNegative (x : Float) : Bool :=
  Nat.pow 2 63 ≤ x.toBits.toNat

def Double.magnitude (x : Float) : Magnitude :=
  let bits : Nat := x.toBits.toNat % Nat.pow 2 63
  let e : Nat := bits / Dyadic.leastNormal
  let m : Nat := bits % Dyadic.leastNormal
  if e = 0 then
    .finite ⟨m, Dyadic.leastExponent⟩
  else if e < 2047 then
    .finite ⟨Dyadic.leastNormal + m, Dyadic.leastExponent + (e - 1 : Nat)⟩
  else if m = 0 then
    .infinite
  else
    .nan

end Transportation
