import Transportation.Text.Visible

/-!
# Quoted text

A text is quoted to show exactly what it holds: quotes, backslashes and the usual control characters are written
with a backslash, and other invisible characters by their code.
-/

namespace Transportation.Text

/-- The escape of `c` by its code. -/
def codeEscape (c : Char) : List Char :=
  "\\u\x7b".toList ++ Nat.toDigits 16 c.toNat ++ ['\x7d']

def quoteChar (c : Char) : List Char :=
  match c with
  | '"' => ['\\', '"']
  | '\\' => ['\\', '\\']
  | '\x00' => ['\\', '0']
  | '\t' => ['\\', 't']
  | '\n' => ['\\', 'n']
  | '\r' => ['\\', 'r']
  | c => if isVisible c then [c] else codeEscape c

def quote (s : String) : String :=
  String.ofList ('"' :: (s.toList.flatMap quoteChar ++ ['"']))

end Transportation.Text
