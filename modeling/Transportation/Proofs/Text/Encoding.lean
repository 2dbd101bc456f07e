import Mathlib.Tactic.SplitIfs
import Transportation.Text.Line
/-!
# Text as bytes

Decoding undoes encoding (`decode?_encode`) and decodes nothing else (`encode_of_decode?`). A line feed is encoded by
its own byte, and no other character has that byte in it.
-/

namespace Transportation.Text

/-- The characters in UTF-8. -/
def encode (cs : List Char) : List UInt8 :=
  cs.flatMap String.utf8EncodeChar

theorem encode_append (cs ds : List Char) : encode (cs ++ ds) = encode cs ++ encode ds :=
  List.flatMap_append

theorem toUTF8_eq_encode (s : String) : s.toUTF8 = ⟨(encode s.toList).toArray⟩ := by
  have h : s.toUTF8 = (encode s.toList).toByteArray := String.utf8Encode_toList.symm
  rw [h]
  exact ByteArray.ext List.data_toByteArray

theorem toList_toUTF8 (s : String) : s.toUTF8.data.toList = encode s.toList := by
  rw [toUTF8_eq_encode, List.toList_toArray]

theorem decode?_encode (cs : List Char) : decode? (encode cs) = some cs := by
  have hs : String.fromUTF8? (String.ofList cs).toUTF8 = some (String.ofList cs) := by
    unfold String.fromUTF8?
    rw [String.toUTF8_eq_toByteArray, dif_pos (String.ofList cs).isValidUTF8]
    rfl
  rw [decode?, ← String.toList_ofList (l := cs), ← toUTF8_eq_encode, String.toList_ofList, hs, Option.map_some,
    String.toList_ofList]

theorem encode_of_decode? {l : List UInt8} {cs : List Char} (h : decode? l = some cs) : encode cs = l := by
  obtain ⟨s, hs, rfl⟩ := Option.map_eq_some_iff.1 h
  unfold String.fromUTF8? at hs
  split at hs
  · next hvalid =>
    cases hs
    exact (toList_toUTF8 (String.fromUTF8 ⟨l.toArray⟩ hvalid)).symm
  · cases hs

theorem length_le_length_encode (cs : List Char) : cs.length ≤ (encode cs).length := by
  induction cs with
  | nil => exact Nat.le_refl _
  | cons c cs ih =>
    have hc : 0 < (String.utf8EncodeChar c).length := by
      rw [String.length_utf8EncodeChar]
      exact Char.utf8Size_pos c
    simp only [encode, List.flatMap_cons, List.length_append, List.length_cons] at ih ⊢
    omega

/-- All bytes of a character that takes more than one have their high bit set. -/
theorem mem_utf8EncodeChar_line_feed {c : Char} : 10 ∈ String.utf8EncodeChar c ↔ c = '\n' := by
  have hbyte : ∀ v : Nat, (10 : UInt8) = UInt8.ofNat v ↔ v % 256 = 10 := by
    intro v
    rw [← UInt8.toNat_inj, UInt8.toNat_ofNat']
    exact eq_comm
  have hc : c = '\n' ↔ c.val.toNat = 10 := by
    rw [← Char.val_inj, ← UInt32.toNat_inj]
    rfl
  rw [hc]
  rw [String.utf8EncodeChar]
  split_ifs <;>
  · simp only [List.mem_cons, List.not_mem_nil, or_false, hbyte]
    omega

end Transportation.Text
