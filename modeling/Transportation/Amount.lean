import Transportation.Fault

/-!
# Amounts

Weights, costs, flows and potentials are amounts of one number type. The type says which results it can hold:
each step of arithmetic yields the exact amount its type defines or a fault.
-/

namespace Transportation

/-- A number type for weights, costs, flows and potentials. Comparisons are Booleans, since a number type may
hold values that are not ordered. -/
class Amount (F : Type) where
  zero : F
  one : F
  /-- The largest finite amount. -/
  largest : F
  /-- The amount of a count, if the type holds it. -/
  ofCount? : Nat → Option F
  lt : F → F → Bool
  le : F → F → Bool
  isZero : F → Bool
  add : F → F → Checked F
  sub : F → F → Checked F
  mul : F → F → Checked F
  div : F → F → Checked F
  neg : F → Checked F
  abs : F → Checked F

end Transportation
