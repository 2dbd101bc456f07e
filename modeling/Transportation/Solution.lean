import Transportation.Network.Flow
import Transportation.Numeral.Integer
import Transportation.Text.ReadError

/-!
# Solution files

A solution file has one line `s` with the total cost, and a line `f` for each arc that carries flow, with its
source, its sink and its flow. The line `s` may stand anywhere; when written it comes first.
-/

namespace Transportation

open Text

/-- What a solution file says. -/
structure Solution (F : Type) where
  value : F
  flows : List (Nat × Nat × F)
  deriving DecidableEq, Repr

namespace Solution

variable {F : Type}

/-! ## Reading -/

section
variable [Numeral F]

/-- Reads the lines after those that gave `value?` and, latest first, `flows`. -/
def ofLinesAfter : List Line → Option F → List (Nat × Nat × F) → Except ReadError (Solution F)
  | [], none, _ => .error (.format 0 .missingValue)
  | [], some value, flows => .ok ⟨value, flows.reverse⟩
  | .malformed :: _, _, _ => .error (.access .invalidUtf8)
  | .words line w ws :: ls, value?, flows => do
    if w = ['f'] then
      let (u, ws) ← nextNumber Numeral.readCount line ws
      let (v, ws) ← nextNumber Numeral.readCount line ws
      let (flow, ws) ← nextNumber Numeral.read line ws
      endOfLine line ws
      ofLinesAfter ls value? ((u, v, flow) :: flows)
    else if w = ['s'] then
      if value?.isSome then throw (.format line .repeatedValue)
      let (value, ws) ← nextNumber Numeral.read line ws
      endOfLine line ws
      ofLinesAfter ls (some value) flows
    else
      throw (.format line (.unknownLine w))

/-- Reads a solution from the bytes of a solution file. -/
def read (bytes : List UInt8) : Except ReadError (Solution F) :=
  ofLinesAfter (lines bytes) none []

end

/-! ## Writing -/

section
variable [Amount F] [Numeral F]

def flowLine (a : Arc F) : String :=
  s!"f {a.src.index} {a.snk.index} {Numeral.write a.flow}"

/-- The real arcs of a network that carry flow. -/
def usedArcs (g : Network F) : List (Arc F) :=
  g.realArcs.filter fun a => !Amount.isZero a.flow

/-- Writes the flow of a network. -/
def write (g : Network F) : Checked String := do
  let value ← g.value
  return unlines (("s " ++ Numeral.write value) :: (usedArcs g).map flowLine)

end

end Solution

end Transportation
