import Transportation.Numeral.Shortest

/-!
# Doubles with a fixed number of decimal places

The exact value is rounded to the given number of places, and a value halfway between two decimals goes to the
one with an even last digit. Other than in the shortest form, all places are written.
-/

namespace Transportation

/-- The quotient rounded to the nearest integer, a half to the even one. -/
def roundDiv (num den : Nat) : Nat :=
  let q := num / den
  match compare (2 * (num % den)) den with
  | .lt => q
  | .gt => q + 1
  | .eq => q + q % 2

namespace Dyadic

/-- The decimal with the given number of places nearest to `d`. -/
def toPlaces (d : Dyadic) (places : Nat) : Decimal :=
  let (num, den) := d.scaled places
  ⟨roundDiv num den, -places⟩

end Dyadic

end Transportation
