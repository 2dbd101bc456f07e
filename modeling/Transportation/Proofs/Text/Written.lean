import Transportation.Proofs.Numeral
import Transportation.Proofs.Text.Lines
/-!
# Lines that are written

A line that is written as words with single blanks between them is read as these words, if they are plain: nothing in
them ends a word, a line or what counts of it. The numerals that are written are plain. A line that starts with two
slashes does not count.
-/

namespace Transportation.Text

/-- A word that can stand in a line as it is. -/
def Plain (w : Word) : Prop :=
  w ≠ [] ∧ ∀ c ∈ w, isBlank c = false ∧ c ≠ '/'

/-- The line is the words `w :: ws`, all plain. -/
def Spells (l : String) (w : Word) (ws : List Word) : Prop :=
  l.toList = [' '].intercalate (w :: ws) ∧ ∀ v ∈ w :: ws, Plain v

variable {l : String} {w : Word} {ws : List Word}

theorem plain_singleton {c : Char} (hblank : isBlank c = false) (hslash : c ≠ '/') : Plain [c] :=
  ⟨List.cons_ne_nil _ _, List.forall_mem_singleton.2 ⟨hblank, hslash⟩⟩

theorem words_intercalate (h : ∀ v ∈ ws, Plain v) : words ([' '].intercalate ws) = ws := by
  induction ws with
  | nil => rfl
  | cons w ws ih =>
    obtain ⟨hne, hw⟩ := h w List.mem_cons_self
    cases ws with
    | nil =>
      rw [List.intercalate_singleton]
      exact words_of_forall_not_isBlank w (fun c hc => (hw c hc).1) hne
    | cons v ws =>
      rw [List.intercalate_cons_cons, List.append_assoc, List.singleton_append,
        words_append_blank w _ (fun c hc => (hw c hc).1) hne (by decide),
        ih fun u hu => h u (List.mem_cons_of_mem _ hu)]

theorem dropComment_of_slash_not_mem {cs : List Char} (h : '/' ∉ cs) : dropComment cs = cs := by
  fun_induction dropComment cs with
  | case1 => rfl
  | case2 cs => exact absurd List.mem_cons_self h
  | case3 c cs _ ih => rw [ih fun hcs => h (List.mem_cons_of_mem _ hcs)]

/-- Only the words and blanks are in a line of words. -/
theorem mem_intercalate {c : Char} (h : c ∈ [' '].intercalate ws) : c = ' ' ∨ ∃ w ∈ ws, c ∈ w := by
  induction ws with
  | nil => cases h
  | cons w ws ih =>
    cases ws with
    | nil =>
      rw [List.intercalate_singleton] at h
      exact .inr ⟨w, List.mem_cons_self, h⟩
    | cons v ws =>
      rw [List.intercalate_cons_cons, List.append_assoc, List.singleton_append, List.mem_append, List.mem_cons] at h
      rcases h with h | h | h
      · exact .inr ⟨w, List.mem_cons_self, h⟩
      · exact .inl h
      · rcases ih h with rfl | ⟨u, hu, hc⟩
        · exact .inl rfl
        · exact .inr ⟨u, List.mem_cons_of_mem _ hu, hc⟩

theorem Spells.slash_not_mem (h : Spells l w ws) : '/' ∉ l.toList := by
  rw [h.1]
  intro hc
  rcases mem_intercalate hc with hc | ⟨v, hv, hc⟩
  · exact absurd hc (by decide)
  · exact ((h.2 v hv).2 _ hc).2 rfl

theorem Spells.line_feed_not_mem (h : Spells l w ws) : '\n' ∉ l.toList := by
  rw [h.1]
  intro hc
  rcases mem_intercalate hc with hc | ⟨v, hv, hc⟩
  · exact absurd hc (by decide)
  · exact absurd ((h.2 v hv).2 _ hc).1 (by decide)

theorem lineOf?_of_spells (h : Spells l w ws) (k : Nat) : lineOf? (encode l.toList) k = some (.words k w ws) := by
  have htokens : tokens (uncommented l.toList) = w :: ws := by
    rw [← dropComment_eq, dropComment_of_slash_not_mem h.slash_not_mem, h.1, ← words_eq, words_intercalate h.2]
  simp only [lineOf?, decode?_encode, htokens]

theorem numberLines_of_spells {l : String} {w : Word} {ws : List Word} (h : Spells l w ws) (ls : List (List UInt8))
    (count : Nat) : numberLines (encode l.toList :: ls) count = .words (count + 1) w ws :: numberLines ls (count + 1) := by
  rw [numberLines_cons, lineOf?_of_spells h]
  rfl

theorem lineOf?_comment (cs : List Char) (k : Nat) : lineOf? (encode ('/' :: '/' :: cs)) k = none := by
  have htokens : tokens (uncommented ('/' :: '/' :: cs)) = [] := by
    rw [← dropComment_eq, dropComment]
    rfl
  simp only [lineOf?, decode?_encode, htokens]

/-! ## Lines of a text -/

theorem splitOn_line_feed_cons (cs : List Char) : ('\n' :: cs).splitOn '\n' = [] :: cs.splitOn '\n' := by
  rw [List.splitOn_cons_eq_if_modifyHead, if_pos (beq_self_eq_true _)]

theorem splitOn_cons_of_ne {c : Char} (hc : c ≠ '\n') (cs : List Char) :
    (c :: cs).splitOn '\n' = (cs.splitOn '\n').modifyHead (c :: ·) := by
  rw [List.splitOn_cons_eq_if_modifyHead, if_neg (by simpa using hc)]

theorem splitOn_of_not_mem {cs : List Char} (h : '\n' ∉ cs) : cs.splitOn '\n' = [cs] := by
  refine List.splitOnP_eq_singleton fun c hc => ?_
  rw [beq_eq_false_iff_ne]
  rintro rfl
  exact h hc

/-- The lines of encoded characters are what stands between their line feeds. -/
theorem splitLines_encode_append (cs : List Char) (rest : List UInt8) :
    splitLines (encode cs ++ 10 :: rest) = (cs.splitOn '\n').map encode ++ splitLines rest := by
  induction cs with
  | nil => rfl
  | cons c cs ih =>
    have hcons : encode (c :: cs) ++ 10 :: rest = String.utf8EncodeChar c ++ (encode cs ++ 10 :: rest) :=
      List.append_assoc _ _ _
    rw [hcons]
    by_cases hc : c = '\n'
    · rw [hc, splitOn_line_feed_cons, List.map_cons, List.cons_append, ← ih]
      rfl
    · have hnot : 10 ∉ String.utf8EncodeChar c := fun h => hc (mem_utf8EncodeChar_line_feed.1 h)
      obtain ⟨l, ls, hsplit⟩ := List.exists_cons_of_ne_nil (List.splitOn_ne_nil '\n' cs)
      rw [hsplit] at ih
      rw [splitOn_cons_of_ne hc, hsplit, List.modifyHead_cons, splitLines_append hnot ih]
      rfl

/-- A text is made of the lines of its lines. -/
theorem splitLines_unlines (ls : List String) :
    splitLines (encode (unlines ls).toList) = ls.flatMap fun l => (l.toList.splitOn '\n').map encode := by
  induction ls with
  | nil => rfl
  | cons l ls ih =>
    have hbytes : encode (unlines (l :: ls)).toList = encode l.toList ++ 10 :: encode (unlines ls).toList := by
      rw [unlines, List.map_cons, String.join_cons, String.toList_append, String.toList_append, encode_append,
        encode_append, List.append_assoc]
      rfl
    rw [hbytes, splitLines_encode_append, ih, List.flatMap_cons]

theorem splitLines_unlines_of_not_mem {ls : List String} (h : ∀ l ∈ ls, '\n' ∉ l.toList) :
    splitLines (encode (unlines ls).toList) = ls.map fun l => encode l.toList := by
  rw [splitLines_unlines, List.map_eq_flatMap]
  exact List.flatMap_congr fun l hl => by rw [splitOn_of_not_mem (h l hl), List.map_singleton]

end Transportation.Text

/-! ## Numerals are plain -/

namespace Transportation.Numeral

open Text

theorem not_isBlank_of_isDigit {c : Char} (h : c.isDigit = true) : isBlank c = false := by
  have hc : 48 ≤ c.toNat ∧ c.toNat ≤ 57 := by
    simpa [Char.isDigit, UInt32.le_iff_toNat_le] using h
  simp only [isBlank, blankRanges, List.any_cons, List.any_nil, Bool.or_false, Bool.or_eq_false_iff,
    Bool.and_eq_false_iff, decide_eq_false_iff_not]
  omega

theorem plain_of_isDigit {w : Word} (hne : w ≠ []) (h : ∀ c ∈ w, c.isDigit = true ∨ c = '-') : Plain w := by
  refine ⟨hne, fun c hc => ?_⟩
  rcases h c hc with hd | rfl
  · refine ⟨not_isBlank_of_isDigit hd, ?_⟩
    rintro rfl
    cases hd
  · exact ⟨by decide, by decide⟩

theorem isDigit_of_mem_toDigits {n : Nat} {c : Char} (h : c ∈ Nat.toDigits 10 n) : c.isDigit = true :=
  Nat.isDigit_of_mem_toDigits (by decide) (by decide) h

theorem toList_toString_nat (n : Nat) : (toString n).toList = Nat.toDigits 10 n := by
  rw [Nat.toString_eq_repr, Nat.repr_eq_ofList_toDigits, String.toList_ofList]

theorem plain_toString_nat (n : Nat) : Plain (toString n).toList := by
  rw [toList_toString_nat]
  exact plain_of_isDigit Nat.toDigits_ne_nil fun c hc => .inl (isDigit_of_mem_toDigits hc)

theorem plain_write {max : Nat} (a : Signed max) : Plain (Numeral.write a).toList := by
  have main : ∀ x : Int, Plain (toString x).toList := by
    intro x
    cases x with
    | ofNat n => exact plain_toString_nat n
    | negSucc n =>
      have hneg : (toString (Int.negSucc n)).toList = '-' :: Nat.toDigits 10 (n + 1) := by
        rw [Int.toString_eq_repr]
        show ("-" ++ (n + 1).repr).toList = _
        simp only [Nat.repr_eq_ofList_toDigits, String.toList_append, String.toList_ofList]
        rfl
      rw [hneg]
      refine plain_of_isDigit (List.cons_ne_nil _ _) fun c hc => ?_
      rcases List.mem_cons.1 hc with rfl | hc
      · exact .inr rfl
      · exact .inl (isDigit_of_mem_toDigits hc)
  exact main a.val

theorem spells_toString (n : Nat) : Spells (toString n) (toString n).toList [] :=
  ⟨List.intercalate_singleton.symm, List.forall_mem_singleton.2 (plain_toString_nat n)⟩

theorem count_toString {n : Nat} (h : n < 2 ^ 64) : Count (toString n).toList n :=
  readCount_eq_ok_iff.1 (readNat_toString (Nat.le_sub_one_of_lt h))

end Transportation.Numeral
