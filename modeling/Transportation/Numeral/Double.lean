import Transportation.Numeral
import Transportation.Numeral.Fixed

/-!
# Numerals of doubles

A double is read from an optional sign and a decimal, with an optional point and an optional exponent, rounded to
the nearest double, or from the words for infinity and for no number. It is written with the fewest digits that
read back, always in positional notation.
-/

namespace Transportation

namespace Double

/-! ## Reading -/

/-- The number of the digits of an exponent. A number of five digits or more that has reached `65536` is not read
on, since it is out of every range. -/
def exponentDigits? : List Char → Nat → Option Nat
  | [], n => some n
  | c :: cs, n => do
    let d ← Numeral.digit? c
    exponentDigits? cs (if n < 65536 then 10 * n + d else n)

/-- The exponent, which may be missing altogether. -/
def exponent? : List Char → Option Int
  | [] => some 0
  | e :: cs =>
    if e = 'e' ∨ e = 'E' then
      match cs with
      | [] | ['+'] | ['-'] => none
      | '-' :: cs => (exponentDigits? cs 0).map fun n => -n
      | '+' :: cs => (exponentDigits? cs 0).map Int.ofNat
      | cs => (exponentDigits? cs 0).map Int.ofNat
    else
      none

/-- A decimal without a sign: digits with a point somewhere among them, and an exponent. -/
def decimal? (cs : List Char) : Option Decimal := do
  let (whole, rest) := cs.span Char.isDigit
  let (places, rest) :=
    match rest with
    | '.' :: rest => rest.span Char.isDigit
    | rest => ([], rest)
  guard (whole ++ places ≠ [])
  let e ← exponent? rest
  return ⟨Nat.ofDigitChars 10 (whole ++ places) 0, e - places.length⟩

/-- The double nearest to `d`. Numbers that are surely too large or too small are told apart first. -/
def ofDecimal (d : Decimal) : Float :=
  let k := Decimal.length d.digits + d.exponent
  if d.digits = 0 ∨ k < -400 then 0
  else if 400 < k then 1 / 0
  else Float.ofScientific d.digits (d.exponent < 0) d.exponent.natAbs

/-- The words that stand for values which are no decimals. -/
def word? (cs : List Char) : Option Float :=
  let w := String.ofList (cs.map Char.toLower)
  if w = "inf" ∨ w = "infinity" then some (1 / 0)
  else if w = "nan" then some (0 / 0)
  else none

def unsigned? (cs : List Char) : Option Float :=
  match decimal? cs with
  | some d => some (ofDecimal d)
  | none => word? cs

def read : List Char → Except NumeralError Float
  | [] => throw .emptyDecimal
  | c :: cs =>
    let x? :=
      if c = '-' then (unsigned? cs).map fun x => -x
      else if c = '+' then unsigned? cs
      else unsigned? (c :: cs)
    match x? with
    | some x => pure x
    | none => throw .invalidDecimal

/-! ## Writing -/

/-- The text of `x`, where `finite` gives the text of a finite magnitude. -/
def writeWith (finite : Dyadic → String) (x : Float) : String :=
  let sign := if isNegative x then "-" else ""
  match magnitude x with
  | .nan => "NaN"
  | .infinite => sign ++ "inf"
  | .finite d => sign ++ finite d

def write : Float → String :=
  writeWith fun d => d.shortest.positional

/-- The text with the given number of decimal places. -/
def writeFixed (places : Nat) : Float → String :=
  writeWith fun d => (d.toPlaces places).positional

end Double

instance : Numeral Float where
  read := Double.read
  write := Double.write

end Transportation
