import Mathlib.Algebra.BigOperators.Group.List.Basic
import Mathlib.Algebra.Order.Ring.Nat
import Mathlib.Data.List.Infix
import Transportation.Proofs.Text.Encoding
/-!
# What counts in a text

The lines of a text that count, said with splits of lists (`lines_eq`): the text is split at line feeds, each line is cut
at its first `//` and split at blanks, and lines without words are dropped after all lines are numbered. They have no
more words than the text has bytes (`sum_numWords_le`).
-/

namespace Transportation.Text

/-- The pieces of a text between its line feeds. After a line feed at the end of the text no further line begins. -/
def rows (bytes : List UInt8) : List (List UInt8) :=
  if (bytes.splitOn 10).getLast? = some [] then (bytes.splitOn 10).dropLast else bytes.splitOn 10

/-- The part of a line before its first `//`. -/
def uncommented (cs : List Char) : List Char :=
  cs.take (cs.tails.findIdx fun rest => ['/', '/'].isPrefixOf rest)

/-- The pieces of a line between its blanks. -/
def tokens (cs : List Char) : List Word :=
  (cs.splitOnP isBlank).filter (· ≠ [])

/-- What the line `l` at position `k` says, unless it has no words. -/
def lineOf? (l : List UInt8) (k : Nat) : Option Line :=
  match decode? l with
  | none => some .malformed
  | some cs =>
    match tokens (uncommented cs) with
    | [] => none
    | w :: ws => some (.words k w ws)

/-- The lines of a text that count, numbered from one. -/
def contents (bytes : List UInt8) : List Line :=
  ((rows bytes).zipIdx 1).filterMap fun row => lineOf? row.1 row.2

theorem rows_line_feed (bs : List UInt8) : rows (10 :: bs) = [] :: rows bs := by
  obtain ⟨l, ls, hsplit⟩ := List.exists_cons_of_ne_nil (List.splitOn_ne_nil 10 bs)
  have hcons : (10 :: bs).splitOn 10 = [] :: l :: ls := by
    rw [List.splitOn_cons_eq_if_modifyHead, if_pos (by decide), hsplit]
  rw [rows, rows, hcons, hsplit]
  by_cases hlast : (l :: ls).getLast? = some []
  · rw [if_pos hlast, if_pos (by simpa using hlast), List.dropLast_cons_cons]
  · rw [if_neg hlast, if_neg (by simpa using hlast)]

theorem rows_of_ne {b : UInt8} (hb : b ≠ 10) (bs : List UInt8) :
    rows (b :: bs) = (b :: (rows bs).headD []) :: (rows bs).tail := by
  obtain ⟨l, ls, hsplit⟩ := List.exists_cons_of_ne_nil (List.splitOn_ne_nil 10 bs)
  have hcons : (b :: bs).splitOn 10 = (b :: l) :: ls := by
    rw [List.splitOn_cons_eq_if_modifyHead, if_neg (by simpa using hb), hsplit, List.modifyHead_cons]
  rw [rows, rows, hcons, hsplit]
  cases ls with
  | nil => cases l <;> simp
  | cons m ms =>
    by_cases hlast : (m :: ms).getLast? = some []
    · rw [if_pos (by simpa using hlast), if_pos (by simpa using hlast), List.dropLast_cons_cons, List.dropLast_cons_cons]
      rfl
    · rw [if_neg (by simpa using hlast), if_neg (by simpa using hlast)]
      rfl

theorem splitLines_eq (bytes : List UInt8) : splitLines bytes = rows bytes := by
  induction bytes with
  | nil => rfl
  | cons b bs ih =>
    rw [splitLines, ih]
    by_cases hb : b = 10
    · rw [if_pos hb, hb, rows_line_feed]
    · rw [if_neg hb, rows_of_ne hb]
      cases rows bs <;> rfl

theorem dropComment_eq (cs : List Char) : dropComment cs = uncommented cs := by
  fun_induction dropComment cs with
  | case1 => rfl
  | case2 cs => simp [uncommented, List.findIdx_cons]
  | case3 c cs hno ih =>
    have hnot : ['/', '/'].isPrefixOf (c :: cs) = false := by
      rw [← Bool.not_eq_true, List.isPrefixOf_iff_prefix]
      rintro ⟨rest, hrest⟩
      cases hrest
      exact hno rest rfl rfl
    rw [ih, uncommented, uncommented, List.tails_cons, List.findIdx_cons, hnot, cond_false, List.take_succ_cons]

theorem tokens_blank {c : Char} (h : isBlank c = true) (cs : List Char) : tokens (c :: cs) = tokens cs := by
  simp [tokens, List.splitOnP_cons_eq_if_modifyHead, h]

theorem words_eq (cs : List Char) : words cs = tokens cs := by
  induction cs with
  | nil => rfl
  | cons c cs ih =>
    by_cases hc : isBlank c = true
    · rw [words_cons_blank hc, ih, tokens_blank hc]
    · have hcons : tokens (c :: cs) = ((cs.splitOnP isBlank).modifyHead (c :: ·)).filter (· ≠ []) := by
        rw [tokens, List.splitOnP_cons_eq_if_modifyHead, if_neg hc]
      rw [hcons]
      cases cs with
      | nil => simp [words, hc]
      | cons d cs =>
        rw [words, if_neg hc]
        obtain ⟨l, ls, hsplit⟩ := List.exists_cons_of_ne_nil (List.splitOnP_ne_nil isBlank cs)
        by_cases hd : isBlank d = true
        · simp only [hd, if_true, ih, tokens]
          simp [List.splitOnP_cons_eq_if_modifyHead, hd]
        · simp only [hd, ih, tokens]
          simp [List.splitOnP_cons_eq_if_modifyHead, hd, hsplit]

theorem numberLines_cons (l : List UInt8) (ls : List (List UInt8)) (count : Nat) :
    numberLines (l :: ls) count = (lineOf? l (count + 1)).toList ++ numberLines ls (count + 1) := by
  rw [numberLines]
  cases hl : decode? l with
  | none => simp only [lineOf?, hl]; rfl
  | some cs =>
    simp only [lineOf?, hl, words_eq, dropComment_eq]
    cases tokens (uncommented cs) <;> rfl

theorem numberLines_eq (ls : List (List UInt8)) (count : Nat) :
    numberLines ls count = (ls.zipIdx (count + 1)).filterMap fun row => lineOf? row.1 row.2 := by
  induction ls generalizing count with
  | nil => rfl
  | cons l ls ih =>
    rw [numberLines_cons, ih, List.zipIdx_cons, List.filterMap_cons]
    cases lineOf? l (count + 1) <;> simp

theorem lines_eq (bytes : List UInt8) : lines bytes = contents bytes := by
  rw [lines, numberLines_eq, splitLines_eq, contents]

/-! ## Size -/

/-- How many words a line has. -/
def Line.numWords : Line → Nat
  | .malformed => 0
  | .words _ _ ws => ws.length + 1

theorem length_words_le (cs : List Char) : (words cs).length ≤ cs.length := by
  fun_induction words cs <;> simp_all <;> omega

theorem numWords_le {l : List UInt8} {k : Nat} {line : Line} (h : lineOf? l k = some line) :
    line.numWords ≤ l.length := by
  unfold lineOf? at h
  split at h
  · cases h
    exact Nat.zero_le _
  · next cs hcs =>
    split at h
    · cases h
    · next w ws htokens =>
      cases h
      calc (w :: ws).length = (words (uncommented cs)).length := by rw [words_eq, htokens]
        _ ≤ (uncommented cs).length := length_words_le _
        _ ≤ cs.length := List.length_take_le' _ _
        _ ≤ (encode cs).length := length_le_length_encode cs
        _ = l.length := by rw [encode_of_decode? hcs]

theorem sum_length_rows_le (bytes : List UInt8) : ((rows bytes).map List.length).sum ≤ bytes.length := by
  induction bytes with
  | nil => exact Nat.le_refl _
  | cons b bs ih =>
    by_cases hb : b = 10
    · rw [hb, rows_line_feed]
      simp only [List.map_cons, List.sum_cons, List.length_nil, List.length_cons]
      omega
    · rw [rows_of_ne hb]
      cases hrows : rows bs with
      | nil => simp
      | cons l ls =>
        rw [hrows] at ih
        simp only [List.map_cons, List.sum_cons, List.headD_cons, List.tail_cons, List.length_cons] at ih ⊢
        omega

theorem sum_numWords_le (bytes : List UInt8) : ((contents bytes).map Line.numWords).sum ≤ bytes.length := by
  have main : ∀ (ls : List (List UInt8)) (k : Nat),
      (((ls.zipIdx k).filterMap fun row => lineOf? row.1 row.2).map Line.numWords).sum ≤ (ls.map List.length).sum := by
    intro ls
    induction ls with
    | nil => exact fun _ => Nat.le_refl _
    | cons l ls ih =>
      intro k
      have hls := ih (k + 1)
      rw [List.zipIdx_cons, List.filterMap_cons, List.map_cons, List.sum_cons]
      cases hl : lineOf? l k with
      | none => exact Nat.le_trans hls (Nat.le_add_left _ _)
      | some line => exact Nat.add_le_add (numWords_le hl) hls
  exact Nat.le_trans (main _ 1) (sum_length_rows_le bytes)

end Transportation.Text
