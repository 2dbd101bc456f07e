import Transportation.Proofs.Amount
import Transportation.Proofs.Double.Packing
/-!
# Sums of doubles and their order

A sum of finite doubles lies on the same side of every double as the exact sum (`nearest_add`). With what an infinity
adds, that gives the laws by which doubles are ordered amounts.
-/

namespace Transportation.Double

open Float.Model Float.Model.UnpackedFloat

/-! ## Nearest doubles -/

/-- No double lies between the integer `x` and the double `u`. -/
structure Nearest (x : Int) (u : UnpackedFloat) : Prop where
  number : u ≠ .notANumber
  ge : ∀ {v}, Stored v → units v ≤ x → units v ≤ units u
  le : ∀ {v}, Stored v → x ≤ units v → units u ≤ units v

theorem number_of_isFinite {u : UnpackedFloat} (h : u.isFinite = true) : u ≠ .notANumber := by
  rintro rfl
  cases h

theorem nearest_units {u : UnpackedFloat} (h : u.isFinite = true) : Nearest (units u) u :=
  ⟨number_of_isFinite h, fun _ hv => hv, fun _ hv => hv⟩

theorem nearest_zero (s : Sign) : Nearest 0 (.zero s) :=
  nearest_units (u := .zero s) rfl

theorem exists_units_eq {u : UnpackedFloat} (h : Stored u) :
    ∃ (s : Sign) (n : Nat), units u = s.apply n ∧ Representable n ∧ n ≤ infinite := by
  cases u with
  | notANumber => exact ⟨.positive, 0, rfl, Nat.dvd_zero _, Nat.zero_le _⟩
  | infinity s => exact ⟨s, infinite, rfl, representable_scaled canonical_infinite, Nat.le_refl _⟩
  | zero s => exact ⟨.positive, 0, rfl, Nat.dvd_zero _, Nat.zero_le _⟩
  | finite s m e hm => exact ⟨s, _, rfl, representable_scaled h.2.2, Nat.le_of_lt h.bounds.2⟩

theorem repack_finite_ne {s : Sign} {m E : Nat} {hm : 0 < m} (h : Canonical m E) :
    repack (.finite s m ((E : Int) - 1074) hm) ≠ .notANumber := by
  rw [repack_finite h]
  split_ifs <;> simp

theorem nearest_rounded {v m E : Nat} (s : Sign) (h : Rounded v m E) :
    Nearest (s.apply v) (repack (.finite s m ((E : Int) - 1074) h.pos)) := by
  have hside : ∀ {u}, Stored u → (units u ≤ s.apply v → units u ≤ s.apply (min (scaled m E) infinite : Nat)) ∧
      (s.apply v ≤ units u → s.apply (min (scaled m E) infinite : Nat) ≤ units u) := by
    intro u hu
    obtain ⟨t, n, hunits, hn, hle⟩ := exists_units_eq hu
    have hlo : n ≤ v → n ≤ scaled m E := h.le_of_le hn
    have hhi : v ≤ n → scaled m E ≤ n := h.ge_of_ge hn
    rw [hunits]
    cases s <;> cases t <;> simp only [Sign.apply] <;> omega
  refine ⟨repack_finite_ne h.canonical, fun hu => ?_, fun hu => ?_⟩ <;> rw [units_repack h.canonical]
  · exact (hside hu).1
  · exact (hside hu).2

theorem nearest_normalize (M : Int) (E : Nat) :
    Nearest (M * 2 ^ E) (repack (UnpackedFloat.normalize .binary64 M ((E : Int) - 1074) .positive)) := by
  rcases Int.lt_trichotomy M 0 with hlt | rfl | hgt
  · obtain ⟨n, rfl⟩ : ∃ n : Nat, M = -(n : Int) := ⟨M.natAbs, by omega⟩
    obtain ⟨m, E', hm, heq, h⟩ := exists_round .negative (m := n) (E := E) (by omega)
    rw [UnpackedFloat.normalize, Int.compare_eq_lt.2 hlt]
    simp only [Int.neg_neg, Int.toNat_natCast, heq]
    convert nearest_rounded .negative h using 1
    simp [Sign.apply]
  · rw [Int.zero_mul]
    show Nearest 0 (repack (.zero .positive))
    rw [repack_zero]
    exact nearest_zero .positive
  · obtain ⟨n, rfl⟩ : ∃ n : Nat, M = (n : Int) := ⟨M.natAbs, by omega⟩
    obtain ⟨m, E', hm, heq, h⟩ := exists_round .positive (m := n) (E := E) (by omega)
    rw [UnpackedFloat.normalize, Int.compare_eq_gt.2 hgt]
    simp only [Int.toNat_natCast, heq]
    convert nearest_rounded .positive h using 1
    simp [Sign.apply]

/-! ## Sums -/

theorem apply_mul_two_pow (s : Sign) (m k E : Nat) :
    s.apply (m * 2 ^ k : Nat) * 2 ^ E = s.apply (scaled m (k + E) : Nat) := by
  have hpow : m * 2 ^ k * 2 ^ E = scaled m (k + E) := by rw [scaled, Nat.mul_assoc, Nat.pow_add]
  cases s <;> simp only [Sign.apply, ← hpow] <;> push_cast <;> ring

theorem nearest_add_finite {s t : Sign} {m n E F : Nat} {hm : 0 < m} {hn : 0 < n} :
    Nearest (s.apply (scaled m E : Nat) + t.apply (scaled n F : Nat))
      (repack (UnpackedFloat.add .binary64 (.finite s m ((E : Int) - 1074) hm)
        (.finite t n ((F : Int) - 1074) hn))) := by
  have hmin : min ((E : Int) - 1074) ((F : Int) - 1074) = ((min E F : Nat) : Int) - 1074 := by omega
  have hE : ((E : Int) - 1074 - (((min E F : Nat) : Int) - 1074)).toNat = E - min E F := by omega
  have hF : ((F : Int) - 1074 - (((min E F : Nat) : Int) - 1074)).toNat = F - min E F := by omega
  have h := nearest_normalize (s.apply (m * 2 ^ (E - min E F) : Nat) + t.apply (n * 2 ^ (F - min E F) : Nat)) (min E F)
  simp only [UnpackedFloat.add, decreaseExponent, hmin, hE, hF, Nat.shiftLeft_eq]
  rwa [Int.add_mul, apply_mul_two_pow, apply_mul_two_pow, Nat.sub_add_cancel (Nat.min_le_left ..),
    Nat.sub_add_cancel (Nat.min_le_right ..)] at h

theorem nearest_add {a b : UnpackedFloat} (ha : Stored a) (hb : Stored b) (ha' : a.isFinite = true)
    (hb' : b.isFinite = true) : Nearest (units a + units b) (repack (a.add .binary64 b)) := by
  cases a with
  | notANumber | infinity => cases ha'
  | zero s =>
    rw [units, Int.zero_add]
    cases b with
    | notANumber | infinity => cases hb'
    | zero t =>
      cases s <;> cases t <;> exact (repack_zero _).symm ▸ nearest_zero _
    | finite t n f hn =>
      exact (repack_of_stored hb).symm ▸ nearest_units hb'
  | finite s m e hm =>
    cases b with
    | notANumber | infinity => cases hb'
    | zero t =>
      rw [show units (.zero t) = 0 from rfl, Int.add_zero]
      exact (repack_of_stored ha).symm ▸ nearest_units ha'
    | finite t n f hn =>
      obtain ⟨E, rfl⟩ : ∃ E : Nat, e = (E : Int) - 1074 := ⟨(e + 1074).toNat, by have := ha.1; omega⟩
      obtain ⟨F, rfl⟩ : ∃ F : Nat, f = (F : Int) - 1074 := ⟨(f + 1074).toNat, by have := hb.1; omega⟩
      rw [units_finite, units_finite]
      exact nearest_add_finite

theorem add_comm (a b : UnpackedFloat) : a.add .binary64 b = b.add .binary64 a := by
  cases a with
  | notANumber => cases b <;> rfl
  | infinity s | zero s =>
    cases b with
    | notANumber | finite => rfl
    | infinity t | zero t => cases s <;> cases t <;> rfl
  | finite s m e hm =>
    cases b with
    | notANumber | infinity | zero => rfl
    | finite t n f hn => simp only [UnpackedFloat.add, Int.min_comm e f, Int.add_comm]

theorem apply_neg (s : Sign) (n : Int) : (-s).apply n = -s.apply n := by
  cases s
  · exact (Int.neg_neg n).symm
  · rfl

theorem stored_neg {a : UnpackedFloat} (h : Stored a) : Stored a.neg := by
  cases a <;> exact h

theorem units_neg (a : UnpackedFloat) : units a.neg = -units a := by
  cases a with
  | notANumber | zero => rfl
  | infinity s => exact apply_neg s _
  | finite s m e hm => exact apply_neg s _

theorem isFinite_neg (a : UnpackedFloat) : a.neg.isFinite = a.isFinite := by
  cases a <;> rfl

theorem sub_eq_add_neg (a b : UnpackedFloat) : a.sub .binary64 b = a.add .binary64 b.neg := by
  cases a with
  | notANumber => cases b <;> rfl
  | infinity s | zero s =>
    cases b with
    | notANumber | finite => rfl
    | infinity t | zero t => cases s <;> cases t <;> rfl
  | finite s m e hm =>
    cases b with
    | notANumber | infinity | zero => rfl
    | finite t n f hn =>
      simp only [UnpackedFloat.sub, UnpackedFloat.add, UnpackedFloat.neg, apply_neg, Int.sub_eq_add_neg]

/-! ## Sums in order -/

theorem units_lt_infinite {a : UnpackedFloat} (h : Stored a) (h' : a.isFinite = true) : units a < infinite := by
  have hinf : 0 < infinite := scaled_pos (by decide) _
  cases a with
  | notANumber | infinity => cases h'
  | zero s => exact Int.ofNat_lt.2 hinf
  | finite s m e hm =>
    have := h.bounds
    cases s <;> simp only [units, Sign.apply] <;> omega

theorem infinity_add {s : Sign} {b : UnpackedFloat} (h : b.isFinite = true) :
    (UnpackedFloat.infinity s).add .binary64 b = .infinity s := by
  cases b with
  | notANumber | infinity => cases h
  | zero | finite => rfl

theorem le_repack_add {a b : UnpackedFloat} (ha : Stored a) (hb : Stored b) (ha' : a ≠ .notANumber)
    (hb' : b.isFinite = true) (h : 0 ≤ units b) :
    repack (a.add .binary64 b) ≠ .notANumber ∧ units a ≤ units (repack (a.add .binary64 b)) := by
  cases a with
  | notANumber => exact absurd rfl ha'
  | infinity s =>
    rw [infinity_add hb', repack_infinity]
    exact ⟨by simp, Int.le_refl _⟩
  | zero | finite =>
    have hsum := nearest_add ha hb rfl hb'
    exact ⟨hsum.number, hsum.ge ha (by omega)⟩

theorem repack_add_le {a b : UnpackedFloat} (ha : Stored a) (hb : Stored b) (ha' : a ≠ .notANumber)
    (hb' : b.isFinite = true) (h : units b ≤ 0) :
    repack (a.add .binary64 b) ≠ .notANumber ∧ units (repack (a.add .binary64 b)) ≤ units a := by
  cases a with
  | notANumber => exact absurd rfl ha'
  | infinity s =>
    rw [infinity_add hb', repack_infinity]
    exact ⟨by simp, Int.le_refl _⟩
  | zero | finite =>
    have hsum := nearest_add ha hb rfl hb'
    exact ⟨hsum.number, hsum.le ha (by omega)⟩

theorem units_add_notANumber (a : UnpackedFloat) : units (repack (a.add .binary64 .notANumber)) = 0 := by
  have h : a.add .binary64 .notANumber = .notANumber := by cases a <;> rfl
  rw [h, repack_notANumber]
  rfl

theorem infinity_add_nonneg {s : Sign} {b : UnpackedFloat} (hb : Stored b)
    (h : 0 ≤ units (.infinity s) + units b) : 0 ≤ units (repack ((UnpackedFloat.infinity s).add .binary64 b)) := by
  have hinf : 0 < infinite := scaled_pos (by decide) _
  cases b with
  | notANumber => rw [units_add_notANumber]
  | zero | finite =>
    have := units_lt_infinite hb rfl
    rw [infinity_add rfl, repack_infinity]
    cases s
    · simp only [show units (.infinity .negative) = -infinite from rfl] at h ⊢
      omega
    · exact Int.natCast_nonneg _
  | infinity t =>
    cases s <;> cases t
    · simp only [units, Sign.apply] at h
      omega
    · exact Int.le_refl 0
    · exact Int.le_refl 0
    · exact Int.natCast_nonneg _

/-- Where the sum is no number, it stands for zero. -/
theorem units_add_nonneg {a b : UnpackedFloat} (ha : Stored a) (hb : Stored b) (h : 0 ≤ units a + units b) :
    0 ≤ units (repack (a.add .binary64 b)) := by
  by_cases ha' : a.isFinite = true
  · by_cases hb' : b.isFinite = true
    · exact (nearest_add ha hb ha' hb').ge (v := .zero .positive) trivial h
    · cases b with
      | zero | finite => exact absurd rfl hb'
      | notANumber => rw [units_add_notANumber]
      | infinity t =>
        rw [add_comm]
        exact infinity_add_nonneg ha (by omega)
  · cases a with
    | zero | finite => exact absurd rfl ha'
    | notANumber => rw [add_comm, units_add_notANumber]
    | infinity s => exact infinity_add_nonneg hb h

/-! ## Doubles as amounts -/

/-- The double, as it is read from its bits. -/
def unpacked (x : Float) : UnpackedFloat :=
  x.toModel.unpack

theorem stored_unpacked (x : Float) : Stored (unpacked x) :=
  stored_unpack _

theorem amount_le_iff {x y : Float} : Amount.le x y = true ↔
    unpacked x ≠ .notANumber ∧ unpacked y ≠ .notANumber ∧ units (unpacked x) ≤ units (unpacked y) := by
  rw [← le_iff (stored_unpacked x) (stored_unpacked y)]
  exact decide_eq_true_iff.trans decide_eq_true_iff

theorem amount_lt_iff {x y : Float} : Amount.lt x y = true ↔
    unpacked x ≠ .notANumber ∧ unpacked y ≠ .notANumber ∧ units (unpacked x) < units (unpacked y) := by
  rw [← lt_iff (stored_unpacked x) (stored_unpacked y)]
  exact decide_eq_true_iff.trans decide_eq_true_iff

theorem unpacked_add (x y : Float) : unpacked (x + y) = repack ((unpacked x).add .binary64 (unpacked y)) := rfl

theorem unpacked_sub (x y : Float) : unpacked (x - y) = repack ((unpacked x).add .binary64 (unpacked y).neg) := by
  rw [← sub_eq_add_neg]
  rfl

theorem unpacked_neg (x : Float) : unpacked (-x) = (unpacked x).neg :=
  repack_of_stored (stored_neg (stored_unpacked x))

/-- A cost of the first phase. -/
theorem unpacked_cost {c : Float} (h : c = Amount.zero ∨ c = Amount.one) :
    (unpacked c).isFinite = true ∧ 0 ≤ units (unpacked c) := by
  rcases h with rfl | rfl
  · exact ⟨rfl, Int.le_refl 0⟩
  · exact ⟨rfl, Int.natCast_nonneg _⟩

instance : OrderedAmount Float where
  le_refl_left h := amount_le_iff.2 ⟨(amount_le_iff.1 h).1, (amount_le_iff.1 h).1, Int.le_refl _⟩
  le_refl_right h := amount_le_iff.2 ⟨(amount_le_iff.1 h).2.1, (amount_le_iff.1 h).2.1, Int.le_refl _⟩
  le_trans h h' := by
    obtain ⟨hx, -, h⟩ := amount_le_iff.1 h
    obtain ⟨-, hz, h'⟩ := amount_le_iff.1 h'
    exact amount_le_iff.2 ⟨hx, hz, Int.le_trans h h'⟩
  lt_trans h h' := by
    obtain ⟨hx, -, h⟩ := amount_lt_iff.1 h
    obtain ⟨-, hz, h'⟩ := amount_lt_iff.1 h'
    exact amount_lt_iff.2 ⟨hx, hz, Int.lt_trans h h'⟩
  zero_le_zero := amount_le_iff.2 ⟨number_of_isFinite rfl, number_of_isFinite rfl, Int.le_refl _⟩
  le_add_left {a c d} hc ha h := by
    cases h
    obtain ⟨hfin, hcost⟩ := unpacked_cost hc
    have hnum := (amount_le_iff.1 ha).1
    refine amount_le_iff.2 ⟨hnum, ?_⟩
    rw [unpacked_add, add_comm]
    exact le_repack_add (stored_unpacked a) (stored_unpacked c) hnum hfin hcost
  le_add_right {a c d} hc ha h := by
    cases h
    obtain ⟨hfin, hcost⟩ := unpacked_cost hc
    have hnum := (amount_le_iff.1 ha).1
    exact amount_le_iff.2 ⟨hnum, le_repack_add (stored_unpacked a) (stored_unpacked c) hnum hfin hcost⟩
  sub_le {a c d} hc ha h := by
    cases h
    obtain ⟨hfin, hcost⟩ := unpacked_cost hc
    have hnum := (amount_le_iff.1 ha).1
    obtain ⟨hnum', hle⟩ := repack_add_le (stored_unpacked a) (stored_neg (stored_unpacked c)) hnum
      ((isFinite_neg _).trans hfin) (by rw [units_neg]; omega)
    exact amount_le_iff.2 ⟨unpacked_sub a c ▸ hnum', hnum, unpacked_sub a c ▸ hle⟩
  not_lt_neg {a b c z w} hab hc hz hw := by
    cases hc
    cases hw
    obtain ⟨-, -, hab⟩ := amount_le_iff.1 hab
    have hz : 0 ≤ units (unpacked z) := (amount_le_iff.1 hz).2.2
    have hdiff := units_add_nonneg (stored_unpacked b) (stored_neg (stored_unpacked a)) (by rw [units_neg]; omega)
    rw [← Bool.not_eq_true, amount_lt_iff, unpacked_sub, unpacked_neg, units_neg]
    omega

end Transportation.Double
