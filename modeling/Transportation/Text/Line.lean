import Transportation.Text.Blank

/-!
# Lines and words

A text is a sequence of bytes in lines that end at line feeds. A line is cut at its first `//`, and what is left
is a sequence of words between blanks. Lines without words do not count, but lines are numbered before they are
dropped. Each line is decoded by itself, so a line that is not UTF-8 spoils only what comes after it.
-/

namespace Transportation.Text

abbrev Word := List Char

/-- The lines of a text, without the line feeds. Nothing follows a line feed at the end. -/
def splitLines : List UInt8 → List (List UInt8)
  | [] => []
  | b :: bs =>
    if b = 10 then
      [] :: splitLines bs
    else
      match splitLines bs with
      | [] => [[b]]
      | l :: ls => (b :: l) :: ls

theorem splitLines_append {p q l : List UInt8} {ls : List (List UInt8)} (hp : 10 ∉ p)
    (hq : splitLines q = l :: ls) : splitLines (p ++ q) = (p ++ l) :: ls := by
  induction p with
  | nil => exact hq
  | cons b p ih =>
    have hb : b ≠ 10 := fun e => hp (e ▸ List.mem_cons_self)
    simp [splitLines, hb, ih fun h => hp (List.mem_cons_of_mem _ h)]

/-- The characters of a line, if it is UTF-8. -/
def decode? (bytes : List UInt8) : Option (List Char) :=
  (String.fromUTF8? ⟨bytes.toArray⟩).map String.toList

/-- The line up to a comment. -/
def dropComment : List Char → List Char
  | [] => []
  | '/' :: '/' :: _ => []
  | c :: cs => c :: dropComment cs

/-- The longest pieces without blanks. -/
def words : List Char → List Word
  | [] => []
  | c :: cs =>
    if isBlank c then
      words cs
    else
      match cs with
      | [] => [[c]]
      | d :: _ =>
        if isBlank d then
          [c] :: words cs
        else
          match words cs with
          | [] => [[c]]
          | w :: ws => (c :: w) :: ws

theorem words_cons_blank {c : Char} (h : isBlank c = true) (cs : List Char) : words (c :: cs) = words cs := by
  simp [words, h]

/-- A blank ends a word. -/
theorem words_append_blank (w : Word) {c : Char} (cs : List Char) (hw : ∀ d ∈ w, isBlank d = false)
    (hne : w ≠ []) (hc : isBlank c = true) : words (w ++ c :: cs) = w :: words cs := by
  induction w with
  | nil => exact absurd rfl hne
  | cons d w ih =>
    have hd := hw d List.mem_cons_self
    cases w with
    | nil => simp [words, hd, hc]
    | cons e w =>
      have he := hw e (by simp)
      simp only [List.cons_append] at ih ⊢
      rw [words, ih (fun d h => hw d (List.mem_cons_of_mem _ h)) (by simp)]
      simp [hd, he]

/-- A text without blanks is one word. -/
theorem words_of_forall_not_isBlank (w : Word) (hw : ∀ d ∈ w, isBlank d = false) (hne : w ≠ []) :
    words w = [w] := by
  induction w with
  | nil => exact absurd rfl hne
  | cons d w ih =>
    have hd := hw d List.mem_cons_self
    cases w with
    | nil => simp [words, hd]
    | cons e w =>
      have he := hw e (by simp)
      rw [words, ih (fun d h => hw d (List.mem_cons_of_mem _ h)) (by simp)]
      simp [hd, he]

/-- A line that counts. -/
inductive Line where
  /-- A line that is not UTF-8. -/
  | malformed
  /-- The line of the given number, counted from one, with its words. -/
  | words (number : Nat) (first : Word) (rest : List Word)
  deriving DecidableEq, Repr

/-- The lines that count among `ls`, where `count` lines come before them. -/
def numberLines : List (List UInt8) → Nat → List Line
  | [], _ => []
  | l :: ls, count =>
    match decode? l with
    | none => .malformed :: numberLines ls (count + 1)
    | some cs =>
      match words (dropComment cs) with
      | [] => numberLines ls (count + 1)
      | w :: ws => .words (count + 1) w ws :: numberLines ls (count + 1)

/-- The lines of a text that count. -/
def lines (bytes : List UInt8) : List Line :=
  numberLines (splitLines bytes) 0

/-- The text with the given lines. -/
def unlines (ls : List String) : String :=
  String.join (ls.map (· ++ "\n"))

end Transportation.Text
