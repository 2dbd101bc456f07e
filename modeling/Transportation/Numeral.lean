/-!
# Numerals

A numeral is the text of a number, without blanks. Reading is strict: the whole text must be a number of the type
and in its range.
-/

namespace Transportation

/-- Why a text is not a numeral. -/
inductive NumeralError where
  | emptyInteger
  | invalidDigit
  | tooLarge
  | tooSmall
  | emptyDecimal
  | invalidDecimal
  deriving DecidableEq, Repr

def NumeralError.message : NumeralError → String
  | emptyInteger => "cannot parse integer from empty string"
  | invalidDigit => "invalid digit found in string"
  | tooLarge => "number too large to fit in target type"
  | tooSmall => "number too small to fit in target type"
  | emptyDecimal => "cannot parse float from empty string"
  | invalidDecimal => "invalid float literal"

/-- A type whose values are written as numerals. -/
class Numeral (F : Type) where
  read : List Char → Except NumeralError F
  write : F → String

namespace Numeral

/-- The value of a decimal digit. -/
def digit? (c : Char) : Option Nat :=
  if c.isDigit then some (c.toNat - '0'.toNat) else none

end Numeral

end Transportation
