import Transportation.Numeral
import Transportation.Text.Line

/-!
# Errors of readers

A reader stops at the first line that it cannot accept. The line may not be readable at all, break the format, or
be well formed and contradict what came before it.
-/

namespace Transportation.Text

/-- Why no text could be read. -/
inductive AccessError where
  | notFound
  | invalidUtf8
  deriving DecidableEq, Repr

/-- How a line breaks the format. -/
inductive FormatError where
  | endOfFile (expected : String)
  | missingNumber
  | invalidNumber (word : Word) (cause : NumeralError)
  | surplusWord (word : Word)
  | unknownLine (word : Word)
  | repeatedValue
  | missingValue
  deriving DecidableEq, Repr

/-- How a line contradicts the lines before it. -/
inductive DataError where
  | weightCount (expected got : Nat)
  | unknownVertex (vertex numVertices : Nat)
  | loop (vertex : Nat)
  deriving DecidableEq, Repr

inductive ReadError where
  | access (cause : AccessError)
  | format (line : Nat) (cause : FormatError)
  | data (line : Nat) (cause : DataError)
  deriving DecidableEq, Repr

def AccessError.message : AccessError → String
  | notFound => "No such file or directory (os error 2)"
  | invalidUtf8 => "stream did not contain valid UTF-8"

def FormatError.message : FormatError → String
  | endOfFile expected => s!"unexpected end of file, expected {expected}"
  | missingNumber => "expected number"
  | invalidNumber word cause => s!"invalid number '{String.ofList word}': {cause.message}"
  | surplusWord word => s!"unexpected token '{String.ofList word}' at end of line"
  | unknownLine word => s!"unexpected line, expected one of 's', 'f', got '{String.ofList word}'"
  | repeatedValue => "The solution value must be specified exactly once"
  | missingValue => "Missing solution value"

def DataError.message : DataError → String
  | weightCount expected got => s!"expected {expected} vertex weights, got {got}"
  | unknownVertex vertex numVertices => s!"invalid vertex {vertex} (must be in 0..{numVertices})"
  | loop vertex => s!"invalid loop ({vertex},{vertex})"

def ReadError.message : ReadError → String
  | access cause => cause.message
  | format line cause => s!"Format error on line {line}: {cause.message}"
  | data line cause => s!"Data error on line {line}: {cause.message}"

/-! ## Reading the words of a line -/

/-- Reads `word`, on the given line, as a number. -/
def readNumber {α : Type} (read : Word → Except NumeralError α) (line : Nat) (word : Word) :
    Except ReadError α :=
  match read word with
  | .ok x => .ok x
  | .error cause => .error (.format line (.invalidNumber word cause))

/-- Reads the next word as a number. -/
def nextNumber {α : Type} (read : Word → Except NumeralError α) (line : Nat) :
    List Word → Except ReadError (α × List Word)
  | [] => .error (.format line .missingNumber)
  | w :: ws => do return (← readNumber read line w, ws)

/-- Accepts the end of a line. -/
def endOfLine (line : Nat) : List Word → Except ReadError Unit
  | [] => .ok ()
  | w :: _ => .error (.format line (.surplusWord w))

end Transportation.Text
