import Mathlib
import Transportation.Proofs.Double.Rounding
/-!
# What doubles stand for

A double that is a number stands for an integer, the multiple of the least positive double that it is; an infinity
stands for the power of two after all finite doubles (`units`). Doubles are ordered as these integers
(`exists_compare`), and storing one loses nothing, but that a number that is too large becomes an infinity
(`units_repack`).
-/

namespace Transportation.Double

open Float.Model Float.Model.UnpackedFloat

/-- The mantissa `m` at the place `E`. -/
def scaled (m E : Nat) : Nat :=
  m * 2 ^ E

/-- The integer that stands for an infinity. -/
def infinite : Nat :=
  scaled (2 ^ 52) 2046

def units : UnpackedFloat → Int
  | .notANumber => 0
  | .infinity s => s.apply infinite
  | .zero _ => 0
  | .finite s m e _ => s.apply (scaled m (e + 1074).toNat : Nat)

/-- The double could have been read from its bits. -/
def Stored : UnpackedFloat → Prop
  | .finite _ m e _ => -1074 ≤ e ∧ e ≤ 971 ∧ Canonical m (e + 1074).toNat
  | _ => True

/-! ## Bits -/

theorem toNat_implicit_bit (mv : BitVec 52) : (1#1 ++ mv).toNat = 2 ^ 52 + mv.toNat := by
  rw [BitVec.toNat_append, ← Nat.shiftLeft_add_eq_or_of_lt mv.isLt]
  simp [Nat.shiftLeft_eq]

/-- The double of a sign, an exponent and a mantissa. -/
def decode (s : Sign) (ev : BitVec 11) (mv : BitVec 52) : UnpackedFloat :=
  if ev = -1#11 then
    if mv = 0#52 then .infinity s else .notANumber
  else if ev = 0#11 then
    if h : mv = 0#52 then .zero s
    else .finite s mv.toNat (ev.toNat - 1075 + 1) (by simpa [BitVec.toNat_pos, BitVec.pos_iff_ne_zero])
  else .finite s (1#1 ++ mv).toNat (ev.toNat - 1075) (by rw [toNat_implicit_bit]; omega)

theorem unpack_eq_decode (b : BitVec Format.binary64.numBits) :
    UnpackedFloat.unpack .binary64 b =
      decode (Sign.ofBitVec (unpackSign b)) (unpackExponent b) (unpackMantissa b) := rfl

theorem unpack_packComponents {s : Sign} {ev : BitVec 11} {mv : BitVec 52} :
    UnpackedFloat.unpack .binary64 (packComponents .binary64 s ev mv) = decode s ev mv := by
  rw [unpack_eq_decode, unpackSign_packComponents, Sign.ofBitVec_toBitVec, unpackExponent_packComponents,
    unpackMantissa_packComponents]

theorem stored_decode (s : Sign) (ev : BitVec 11) (mv : BitVec 52) : Stored (decode s ev mv) := by
  have hm := mv.isLt
  have he := ev.isLt
  unfold decode
  split_ifs with hinf hmant hzero hmant
  · trivial
  · trivial
  · trivial
  · have hzero' : ev.toNat = 0 := congrArg BitVec.toNat hzero
    exact ⟨by omega, by omega, by omega, .inl (by omega)⟩
  · have hinf' : ev.toNat ≠ 2047 := fun h => hinf (BitVec.eq_of_toNat_eq h)
    have hzero' : ev.toNat ≠ 0 := fun h => hzero (BitVec.eq_of_toNat_eq h)
    have hbit := toNat_implicit_bit mv
    exact ⟨by omega, by omega, by omega, .inr (by omega)⟩

theorem decode_of_normal {s : Sign} {m E : Nat} {hm : 0 < m} (hlo : 2 ^ 52 ≤ m) (hlt : m < 2 ^ 53) (hE : E ≤ 2045) :
    decode s (BitVec.ofNat 11 (E + 1)) (BitVec.ofNat 52 m) = .finite s m ((E : Int) - 1074) hm := by
  have hev : (BitVec.ofNat 11 (E + 1)).toNat = E + 1 := by
    rw [BitVec.toNat_ofNat]
    omega
  have hinf : BitVec.ofNat 11 (E + 1) ≠ -1#11 := fun h => by
    rw [h] at hev
    have : (-1#11).toNat = 2047 := rfl
    omega
  have hzero : BitVec.ofNat 11 (E + 1) ≠ 0#11 := fun h => by
    rw [h] at hev
    cases hev
  rw [decode, if_neg hinf, if_neg hzero]
  congr 1
  · rw [toNat_implicit_bit, BitVec.toNat_ofNat]
    omega
  · omega

theorem decode_of_subnormal {s : Sign} {m : Nat} {hm : 0 < m} (hlt : m < 2 ^ 52) :
    decode s 0#11 (BitVec.ofNat 52 m) = .finite s m (-1074) hm := by
  have hmv : (BitVec.ofNat 52 m).toNat = m := by
    rw [BitVec.toNat_ofNat]
    omega
  have hzero : BitVec.ofNat 52 m ≠ 0#52 := fun h => by
    rw [h, BitVec.toNat_zero] at hmv
    omega
  rw [decode, if_neg (by decide), if_pos rfl, dif_neg hzero]
  congr 1

/-! ## Storing -/

/-- The double as it is read after it has been stored. -/
def repack (u : UnpackedFloat) : UnpackedFloat :=
  UnpackedFloat.unpack .binary64 (UnpackedFloat.pack .binary64 u)

theorem stored_unpack (b : BitVec Format.binary64.numBits) : Stored (UnpackedFloat.unpack .binary64 b) :=
  unpack_eq_decode b ▸ stored_decode ..

theorem pack_finite {s : Sign} {m E : Nat} {hm : 0 < m} :
    UnpackedFloat.pack .binary64 (.finite s m ((E : Int) - 1074) hm) =
      if 2 ^ 11 ≤ E + 1 + 1 then packedInfinity .binary64 s
      else if m.log2 + 1 = 53 then packComponents .binary64 s (BitVec.ofNat 11 (E + 1)) (BitVec.ofNat 52 m)
      else packComponents .binary64 s 0#11 (BitVec.ofNat 52 m) := by
  have hbiased : ((E : Int) - 1074 + 1023 + 52).toNat = E + 1 := by omega
  rw [← hbiased]
  rfl

theorem repack_finite {s : Sign} {m E : Nat} {hm : 0 < m} (h : Canonical m E) :
    repack (.finite s m ((E : Int) - 1074) hm) =
      if E ≤ 2045 then .finite s m ((E : Int) - 1074) hm else .infinity s := by
  have hbits : m.log2 + 1 = 53 ↔ 2 ^ 52 ≤ m := by
    have := Nat.log2_lt (n := m) (k := 53) (by omega)
    have := Nat.log2_lt (n := m) (k := 52) (by omega)
    have := h.lt
    omega
  rw [repack, pack_finite]
  by_cases hE : E ≤ 2045
  · rw [if_pos hE, if_neg (by omega)]
    by_cases hlo : 2 ^ 52 ≤ m
    · rw [if_pos (hbits.2 hlo), unpack_packComponents, decode_of_normal hlo h.lt hE]
    · obtain rfl : E = 0 := h.normal.resolve_right hlo
      rw [if_neg (mt hbits.1 hlo), unpack_packComponents]
      exact decode_of_subnormal (Nat.lt_of_not_le hlo)
  · rw [if_neg hE, if_pos (by omega)]
    exact unpack_packComponents

theorem repack_infinity (s : Sign) : repack (.infinity s) = .infinity s :=
  unpack_packComponents

theorem repack_zero (s : Sign) : repack (.zero s) = .zero s :=
  unpack_packedZero

theorem repack_notANumber : repack .notANumber = .notANumber :=
  unpack_packedNaN

theorem repack_of_stored {u : UnpackedFloat} (h : Stored u) : repack u = u := by
  cases u with
  | infinity s => exact repack_infinity s
  | notANumber => exact repack_notANumber
  | zero s => exact repack_zero s
  | finite s m e hm =>
    obtain ⟨hle, hge, hc⟩ := h
    obtain ⟨E, rfl⟩ : ∃ E : Nat, e = (E : Int) - 1074 := ⟨(e + 1074).toNat, by omega⟩
    rw [Int.sub_add_cancel, Int.toNat_natCast] at hc
    rw [repack_finite hc, if_pos (by omega)]

/-! ## Size -/

theorem units_finite (s : Sign) (m E : Nat) (hm : 0 < m) :
    units (.finite s m ((E : Int) - 1074) hm) = s.apply (scaled m E : Nat) := by
  rw [units, Int.sub_add_cancel, Int.toNat_natCast]

theorem scaled_pos {m : Nat} (hm : 0 < m) (E : Nat) : 0 < scaled m E :=
  Nat.mul_pos hm (Nat.two_pow_pos E)

theorem scaled_mono {m m' E E' : Nat} (hm : m ≤ m') (hE : E ≤ E') : scaled m E ≤ scaled m' E' :=
  Nat.mul_le_mul hm (Nat.pow_le_pow_right (by decide) hE)

theorem scaled_lt_of_lt {m m' E E' : Nat} (h : Canonical m E) (h' : Canonical m' E') (hE : E < E') :
    scaled m E < scaled m' E' :=
  h.lt_of_lt h' hE

theorem representable_scaled {m E : Nat} (h : Canonical m E) : Representable (scaled m E) :=
  h.representable

theorem canonical_infinite : Canonical (2 ^ 52) 2046 :=
  ⟨by decide, .inr (Nat.le_refl _)⟩

theorem scaled_lt_infinite {m E : Nat} (h : Canonical m E) (hE : E ≤ 2045) : scaled m E < infinite :=
  scaled_lt_of_lt h canonical_infinite (by omega)

theorem infinite_le_scaled {m E : Nat} (h : Canonical m E) (hE : 2046 ≤ E) : infinite ≤ scaled m E :=
  scaled_mono (h.normal.resolve_left (by omega)) hE

theorem units_repack {s : Sign} {m E : Nat} {hm : 0 < m} (h : Canonical m E) :
    units (repack (.finite s m ((E : Int) - 1074) hm)) = s.apply (min (scaled m E) infinite : Nat) := by
  rw [repack_finite h]
  split_ifs with hE
  · rw [units_finite, Nat.min_eq_left (Nat.le_of_lt (scaled_lt_infinite h hE))]
  · rw [units, Nat.min_eq_right (infinite_le_scaled h (by omega))]

theorem Stored.bounds {s : Sign} {m : Nat} {e : Int} {hm : 0 < m} (h : Stored (.finite s m e hm)) :
    0 < scaled m (e + 1074).toNat ∧ scaled m (e + 1074).toNat < infinite := by
  obtain ⟨-, hge, hc⟩ := h
  exact ⟨scaled_pos hm _, scaled_lt_infinite hc (by omega)⟩

/-! ## Order -/

theorem compares_then {m m' : Nat} {e e' : Int} (he : -1074 ≤ e) (he' : -1074 ≤ e')
    (h : Canonical m (e + 1074).toNat) (h' : Canonical m' (e' + 1074).toNat) :
    ((compare e e').then (compare m m')).Compares (scaled m (e + 1074).toNat : Int)
      (scaled m' (e' + 1074).toNat : Int) := by
  have hmono : ∀ {m m' E : Nat}, m < m' → scaled m E < scaled m' E := fun h =>
    Nat.mul_lt_mul_of_pos_right h (Nat.two_pow_pos _)
  rcases Int.lt_trichotomy e e' with hlt | rfl | hgt
  · rw [Int.compare_eq_lt.2 hlt]
    exact Int.ofNat_lt.2 (scaled_lt_of_lt h h' (by omega))
  · rw [Int.compare_eq_eq.2 rfl, Ordering.then]
    rcases Nat.lt_trichotomy m m' with hlt | rfl | hgt
    · rw [Nat.compare_eq_lt.2 hlt]
      exact Int.ofNat_lt.2 (hmono hlt)
    · rw [Nat.compare_eq_eq.2 rfl]
      exact rfl
    · rw [Nat.compare_eq_gt.2 hgt]
      exact Int.ofNat_lt.2 (hmono hgt)
  · rw [Int.compare_eq_gt.2 hgt]
    exact Int.ofNat_lt.2 (scaled_lt_of_lt h' h (by omega))

theorem compares_neg {o : Ordering} {x y : Int} (h : o.Compares x y) : o.swap.Compares (-x) (-y) := by
  cases o with
  | lt => exact Int.neg_lt_neg h
  | eq => exact congrArg Neg.neg h
  | gt => exact Int.neg_lt_neg h

/-- But for finite doubles of one sign, which `compares_then` is about, the signs decide. -/
theorem exists_compare {a b : UnpackedFloat} (ha : Stored a) (hb : Stored b) (ha' : a ≠ .notANumber)
    (hb' : b ≠ .notANumber) : ∃ o, a.compare b = some o ∧ o.Compares (units a) (units b) := by
  have hinf : 0 < infinite := scaled_pos (by decide) _
  cases a with
  | notANumber => exact absurd rfl ha'
  | infinity s =>
    cases b with
    | notANumber => exact absurd rfl hb'
    | infinity t =>
      cases s <;> cases t
      · exact ⟨.eq, rfl, rfl⟩
      · exact ⟨.lt, rfl, by simp only [Ordering.Compares, units, Sign.apply]; omega⟩
      · exact ⟨.gt, rfl, by simp only [Ordering.Compares, units, Sign.apply]; omega⟩
      · exact ⟨.eq, rfl, rfl⟩
    | zero t =>
      cases s <;> refine ⟨_, rfl, ?_⟩ <;> simp only [Ordering.Compares, units, Sign.apply] <;> omega
    | finite t n f hn =>
      have := hb.bounds
      cases s <;> refine ⟨_, rfl, ?_⟩ <;> cases t <;> simp only [Ordering.Compares, units, Sign.apply] <;> omega
  | zero s =>
    cases b with
    | notANumber => exact absurd rfl hb'
    | infinity t =>
      cases t <;> refine ⟨_, rfl, ?_⟩ <;> simp only [Ordering.Compares, units, Sign.apply] <;> omega
    | zero t => exact ⟨.eq, rfl, rfl⟩
    | finite t n f hn =>
      have := hb.bounds
      cases t <;> refine ⟨_, rfl, ?_⟩ <;> simp only [Ordering.Compares, units, Sign.apply] <;> omega
  | finite s m e hm =>
    have := ha.bounds
    cases b with
    | notANumber => exact absurd rfl hb'
    | infinity t =>
      cases t <;> refine ⟨_, rfl, ?_⟩ <;> cases s <;> simp only [Ordering.Compares, units, Sign.apply] <;> omega
    | zero t =>
      cases s <;> refine ⟨_, rfl, ?_⟩ <;> simp only [Ordering.Compares, units, Sign.apply] <;> omega
    | finite t n f hn =>
      have := hb.bounds
      have hcmp := compares_then ha.1 hb.1 ha.2.2 hb.2.2
      cases s <;> cases t
      · exact ⟨_, rfl, compares_neg hcmp⟩
      · exact ⟨.lt, rfl, by simp only [Ordering.Compares, units, Sign.apply]; omega⟩
      · exact ⟨.gt, rfl, by simp only [Ordering.Compares, units, Sign.apply]; omega⟩
      · exact ⟨_, rfl, hcmp⟩

theorem compare_eq_none {a b : UnpackedFloat} (h : a = .notANumber ∨ b = .notANumber) : a.compare b = none := by
  rcases h with rfl | rfl
  · rfl
  · cases a <;> rfl

theorem le_iff {a b : UnpackedFloat} (ha : Stored a) (hb : Stored b) :
    a.le b = true ↔ a ≠ .notANumber ∧ b ≠ .notANumber ∧ units a ≤ units b := by
  by_cases h : a = .notANumber ∨ b = .notANumber
  · rw [UnpackedFloat.le, compare_eq_none h]
    rcases h with h | h <;> simp [h]
  · rw [not_or] at h
    obtain ⟨o, ho, hcmp⟩ := exists_compare ha hb h.1 h.2
    rw [UnpackedFloat.le, ho, ← hcmp.ne_gt]
    cases o <;> simp [h]

theorem lt_iff {a b : UnpackedFloat} (ha : Stored a) (hb : Stored b) :
    a.lt b = true ↔ a ≠ .notANumber ∧ b ≠ .notANumber ∧ units a < units b := by
  by_cases h : a = .notANumber ∨ b = .notANumber
  · rw [UnpackedFloat.lt, compare_eq_none h]
    rcases h with h | h <;> simp [h]
  · rw [not_or] at h
    obtain ⟨o, ho, hcmp⟩ := exists_compare ha hb h.1 h.2
    rw [UnpackedFloat.lt, ho, ← hcmp.eq_lt]
    cases o <;> simp [h]

end Transportation.Double
