import Transportation.Numeral

/-!
# JSON

A JSON text is read into a value that keeps the order of the entries of objects, repeated keys included, and the
literals of numbers, so that nothing is lost before it is known what is expected. A string with an unpaired
surrogate is no text, but it may stand where it is not looked at.
-/

namespace Transportation

inductive Json where
  | null
  | bool (b : Bool)
  | number (literal : List Char)
  /-- A string, or none for one with an unpaired surrogate. -/
  | string (s : Option String)
  | array (xs : List Json)
  | object (entries : List (Option String × Json))

namespace Json

/-! ## Strings -/

def hexDigit? (c : Char) : Option Nat :=
  if c.isDigit then some (c.toNat - '0'.toNat)
  else if 'a' ≤ c ∧ c ≤ 'f' then some (c.toNat - 'a'.toNat + 10)
  else if 'A' ≤ c ∧ c ≤ 'F' then some (c.toNat - 'A'.toNat + 10)
  else none

/-- The number written with four hexadecimal digits, and the rest of the text. -/
def hex4? : List Char → Option (Nat × List Char)
  | a :: b :: c :: d :: cs => do
    let ds ← [a, b, c, d].mapM hexDigit?
    return (ds.foldl (fun n d => 16 * n + d) 0, cs)
  | _ => none

/-- The character after a backslash, for those that stand for one character. -/
def escaped? : Char → Option Char
  | '"' => some '"'
  | '\\' => some '\\'
  | '/' => some '/'
  | 'b' => some '\x08'
  | 'f' => some '\x0c'
  | 'n' => some '\n'
  | 'r' => some '\r'
  | 't' => some '\t'
  | _ => none

def isHighSurrogate (n : Nat) : Bool :=
  0xD800 ≤ n && n < 0xDC00

def isLowSurrogate (n : Nat) : Bool :=
  0xDC00 ≤ n && n < 0xE000

/-- A piece of a string: a character, or a code unit that is half of one. -/
inductive Unit16 where
  | char (c : Char)
  | surrogate (n : Nat)

/-- The pieces of a string up to its closing quote, and the rest of the text. -/
def stringUnits : Nat → List Char → Option (List Unit16 × List Char)
  | 0, _ => none
  | _ + 1, [] => none
  | fuel + 1, c :: cs =>
    if c = '"' then
      some ([], cs)
    else if c = '\\' then
      match cs with
      | 'u' :: cs => do
        let (n, cs) ← hex4? cs
        let (us, cs) ← stringUnits fuel cs
        let u := if isHighSurrogate n || isLowSurrogate n then .surrogate n else .char (Char.ofNat n)
        return (u :: us, cs)
      | e :: cs => do
        let c ← escaped? e
        let (us, cs) ← stringUnits fuel cs
        return (.char c :: us, cs)
      | [] => none
    else if c.toNat < 0x20 then
      none
    else do
      let (us, cs) ← stringUnits fuel cs
      return (.char c :: us, cs)

/-- Joins the halves of characters, which must come in pairs. -/
def joinUnits : List Unit16 → Option (List Char)
  | [] => some []
  | .char c :: us => (joinUnits us).map (c :: ·)
  | .surrogate hi :: .surrogate lo :: us =>
    if isHighSurrogate hi && isLowSurrogate lo then
      (joinUnits us).map (Char.ofNat (0x10000 + (hi - 0xD800) * 0x400 + (lo - 0xDC00)) :: ·)
    else
      none
  | .surrogate _ :: _ => none

/-- The string that `cs` continues after its opening quote. -/
def stringBody (cs : List Char) : Option (Option String × List Char) := do
  let (us, cs) ← stringUnits (cs.length + 1) cs
  return ((joinUnits us).map String.ofList, cs)

/-! ## Numbers -/

/-- One or more digits. -/
def digits1 (cs : List Char) : Option (List Char × List Char) :=
  match cs.span Char.isDigit with
  | ([], _) => none
  | r => some r

/-- Digits without a superfluous leading zero. -/
def wholePart (cs : List Char) : Option (List Char × List Char) := do
  let (ds, rest) ← digits1 cs
  guard (ds.head? ≠ some '0' ∨ ds = ['0'])
  return (ds, rest)

def fractionPart : List Char → Option (List Char × List Char)
  | '.' :: cs => do
    let (ds, rest) ← digits1 cs
    return ('.' :: ds, rest)
  | cs => some ([], cs)

def exponentPart : List Char → Option (List Char × List Char)
  | [] => some ([], [])
  | e :: cs =>
    if e = 'e' ∨ e = 'E' then do
      let (sign, cs) :=
        match cs with
        | '+' :: cs => (['+'], cs)
        | '-' :: cs => (['-'], cs)
        | cs => ([], cs)
      let (ds, rest) ← digits1 cs
      return (e :: (sign ++ ds), rest)
    else
      some ([], e :: cs)

/-- The literal of the number that `cs` starts with. -/
def numberLiteral (cs : List Char) : Option (List Char × List Char) := do
  let (sign, cs) :=
    match cs with
    | '-' :: cs => (['-'], cs)
    | cs => ([], cs)
  let (whole, cs) ← wholePart cs
  let (fraction, cs) ← fractionPart cs
  let (exponent, cs) ← exponentPart cs
  return (sign ++ whole ++ fraction ++ exponent, cs)

/-! ## Values -/

def isSpace (c : Char) : Bool :=
  c = ' ' || c = '\t' || c = '\n' || c = '\r'

def skipSpace (cs : List Char) : List Char :=
  cs.dropWhile isSpace

/-- The text after the word `w`, if it starts with it. -/
def word? (w : String) (cs : List Char) : Option (List Char) :=
  if w.toList.isPrefixOf cs then some (cs.drop w.length) else none

mutual

/-- The value that the text starts with, and the rest. -/
def value : Nat → List Char → Option (Json × List Char)
  | 0, _ => none
  | fuel + 1, cs =>
    match skipSpace cs with
    | [] => none
    | c :: cs =>
      match c with
      | 'n' => (word? "ull" cs).map (null, ·)
      | 't' => (word? "rue" cs).map (bool true, ·)
      | 'f' => (word? "alse" cs).map (bool false, ·)
      | '"' => (stringBody cs).map fun (s, cs) => (string s, cs)
      | '[' =>
        match skipSpace cs with
        | ']' :: cs => some (array [], cs)
        | cs => (elements fuel cs).map fun (xs, cs) => (array xs, cs)
      | '{' =>
        match skipSpace cs with
        | '}' :: cs => some (object [], cs)
        | cs => (entries fuel cs).map fun (es, cs) => (object es, cs)
      | c => (numberLiteral (c :: cs)).map fun (n, cs) => (number n, cs)

/-- The elements of an array up to its end. -/
def elements : Nat → List Char → Option (List Json × List Char)
  | 0, _ => none
  | fuel + 1, cs => do
    let (x, cs) ← value fuel cs
    match skipSpace cs with
    | ',' :: cs =>
      let (xs, cs) ← elements fuel cs
      return (x :: xs, cs)
    | ']' :: cs => return ([x], cs)
    | _ => none

/-- The entries of an object up to its end. -/
def entries : Nat → List Char → Option (List (Option String × Json) × List Char)
  | 0, _ => none
  | fuel + 1, cs => do
    match skipSpace cs with
    | '"' :: cs =>
      let (key, cs) ← stringBody cs
      match skipSpace cs with
      | ':' :: cs =>
        let (x, cs) ← value fuel cs
        match skipSpace cs with
        | ',' :: cs =>
          let (es, cs) ← entries fuel cs
          return ((key, x) :: es, cs)
        | '}' :: cs => return ([(key, x)], cs)
        | _ => none
      | _ => none
    | _ => none

end

/-- The value of a JSON text. -/
def parse? (text : String) : Option Json := do
  let (x, rest) ← value (text.length + 1) text.toList
  guard (skipSpace rest = [])
  return x

/-! ## What is expected of a value -/

/-- The integer written without fraction and exponent. Zero has no sign. -/
def int? : Json → Option Int
  | number ('-' :: ds) => if ds.all Char.isDigit && ds != ['0'] then some (-Nat.ofDigitChars 10 ds 0) else none
  | number ds => if ds.all Char.isDigit then some (Nat.ofDigitChars 10 ds 0) else none
  | _ => none

/-- The natural number below `bound`. -/
def nat? (bound : Nat) (x : Json) : Option Nat := do
  let n ← x.int?
  guard (0 ≤ n ∧ n < bound)
  return n.toNat

def bool? : Json → Option Bool
  | bool b => some b
  | _ => none

def string? : Json → Option String
  | string s => s
  | _ => none

def array? : Json → Option (List Json)
  | array xs => some xs
  | _ => none

/-- The values of the fields of a record. In an object each field stands once, in any order, beside others; in an
array the fields stand in order. -/
def fields? (names : List String) : Json → Option (List Json)
  | array xs => if xs.length = names.length then some xs else none
  | object es => do
    let es ← es.mapM fun (key, x) => key.map (·, x)
    names.mapM fun name =>
      match es.filter fun (key, _) => key = name with
      | [(_, x)] => some x
      | _ => none
  | _ => none

/-- The name of an alternative without content, by itself or as the key of null. -/
def alternative? : Json → Option String
  | string s => s
  | object [(key, null)] => key
  | _ => none

/-! ## Writing -/

/-- The lower case digits of a code below 32, as two places. -/
def controlDigits (n : Nat) : List Char :=
  [Nat.digitChar (n / 16), Nat.digitChar (n % 16)]

def escapeChar (c : Char) : List Char :=
  match c with
  | '"' => ['\\', '"']
  | '\\' => ['\\', '\\']
  | '\x08' => ['\\', 'b']
  | '\t' => ['\\', 't']
  | '\n' => ['\\', 'n']
  | '\x0c' => ['\\', 'f']
  | '\r' => ['\\', 'r']
  | c => if c.toNat < 0x20 then "\\u00".toList ++ controlDigits c.toNat else [c]

def quote (s : String) : String :=
  String.ofList ('"' :: (s.toList.flatMap escapeChar ++ ['"']))

/-- The text of an array with elements of the given texts. -/
def writeArray (xs : List String) : String :=
  "[" ++ ",".intercalate xs ++ "]"

/-- The text of an object with values of the given texts. -/
def writeObject (entries : List (String × String)) : String :=
  "\x7b" ++ ",".intercalate (entries.map fun (key, x) => quote key ++ ":" ++ x) ++ "\x7d"

end Json

end Transportation
