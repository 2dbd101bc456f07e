import Transportation.Amount

/-!
# Doubles as amounts

Arithmetic on doubles is total: a result out of range is infinite and never a fault.
-/

namespace Transportation

instance : Amount Float where
  zero := 0
  one := 1
  largest := Float.ofBits 0x7FEFFFFFFFFFFFFF
  ofCount? n := some (Float.ofNat n)
  lt a b := decide (a < b)
  le a b := decide (a ≤ b)
  isZero a := a == 0
  add a b := pure (a + b)
  sub a b := pure (a - b)
  mul a b := pure (a * b)
  div a b := pure (a / b)
  neg a := pure (-a)
  abs a := pure a.abs

end Transportation
