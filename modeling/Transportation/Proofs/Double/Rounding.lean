import Mathlib.Algebra.Order.Ring.Int
import Transportation.Amount.Double
/-!
# Rounding to doubles

All that is rounded here is a multiple `v` of the least positive double. It has a mantissa of 53 bits at the binary
place `place v`, and is rounded to one of the two multiples of that place next to it (`Neighbour`). The doubles are the
multiples that lie on their own place (`Representable`): rounding does not carry `v` past any of them
(`Rounded.le_of_le`, `Rounded.ge_of_ge`).
-/

namespace Transportation.Double

open Float.Model Float.Model.UnpackedFloat

theorem log2_mul_two_pow {m : Nat} (hm : 0 < m) (k : Nat) : (m * 2 ^ k).log2 = m.log2 + k := by
  induction k with
  | zero => rw [Nat.pow_zero, Nat.mul_one, Nat.add_zero]
  | succ k ih =>
    have hpos : 0 < m * 2 ^ k := Nat.mul_pos hm (Nat.two_pow_pos k)
    rw [Nat.pow_succ, ← Nat.mul_assoc, Nat.mul_comm _ 2, Nat.log2_two_mul (Nat.ne_of_gt hpos), ih, Nat.add_assoc]

/-! ## Places -/

/-- The place at which `v` has a mantissa of 53 bits. -/
def place (v : Nat) : Nat :=
  v.log2 - 52

/-- There is a double of this many units. -/
def Representable (x : Nat) : Prop :=
  2 ^ place x ∣ x

/-- The mantissa and the exponent by which a double is stored: a mantissa of less than 53 bits has no place to its
right. -/
structure Canonical (m E : Nat) : Prop where
  lt : m < 2 ^ 53
  normal : E = 0 ∨ 2 ^ 52 ≤ m

theorem place_mono {x v : Nat} (h : x ≤ v) : place x ≤ place v := by
  rcases Nat.eq_zero_or_pos x with rfl | hx
  · exact Nat.zero_le _
  · have : x.log2 ≤ v.log2 := (Nat.le_log2 (by omega)).2 (Nat.le_trans (Nat.log2_self_le (by omega)) h)
    simp only [place]
    omega

theorem div_two_pow_place_lt (v : Nat) : v / 2 ^ place v < 2 ^ 53 := by
  rw [Nat.div_lt_iff_lt_mul (Nat.two_pow_pos _), ← Nat.pow_add]
  exact Nat.lt_of_lt_of_le Nat.lt_log2_self (Nat.pow_le_pow_right (by decide) (by rw [place]; omega))

theorem le_div_two_pow_place {v : Nat} (h : 0 < place v) : 2 ^ 52 ≤ v / 2 ^ place v := by
  have hv : v ≠ 0 := by
    rintro rfl
    exact absurd h (by decide)
  rw [Nat.le_div_iff_mul_le (Nat.two_pow_pos _), ← Nat.pow_add, show 52 + place v = v.log2 by rw [place] at *; omega]
  exact Nat.log2_self_le hv

theorem Canonical.representable {m E : Nat} (h : Canonical m E) : Representable (m * 2 ^ E) := by
  rcases Nat.eq_zero_or_pos m with rfl | hm
  · simp [Representable]
  · have hlog : m.log2 < 53 := (Nat.log2_lt (by omega)).2 h.lt
    have hplace : place (m * 2 ^ E) ≤ E := by
      rw [place, log2_mul_two_pow hm]
      omega
    exact Nat.dvd_trans (Nat.pow_dvd_pow 2 hplace) (Nat.dvd_mul_left _ _)

/-- Of two doubles the one with the greater exponent is greater. -/
theorem Canonical.lt_of_lt {m m' E E' : Nat} (h : Canonical m E) (h' : Canonical m' E') (hE : E < E') :
    m * 2 ^ E < m' * 2 ^ E' := by
  have hm' := h'.normal.resolve_left (by omega)
  calc m * 2 ^ E < 2 ^ 53 * 2 ^ E := Nat.mul_lt_mul_of_pos_right h.lt (Nat.two_pow_pos E)
    _ = 2 ^ 52 * 2 ^ (E + 1) := by rw [Nat.pow_succ 2 E]; omega
    _ ≤ m' * 2 ^ E' := Nat.mul_le_mul hm' (Nat.pow_le_pow_right (by decide) hE)

/-! ## Neighbours -/

/-- `r` is an integer next to `v / 2 ^ k`. -/
structure Neighbour (v k r : Nat) : Prop where
  le : v / 2 ^ k ≤ r
  le_succ : r ≤ v / 2 ^ k + 1
  exact : 2 ^ k ∣ v → r = v / 2 ^ k

namespace Neighbour

variable {v r x : Nat}

theorem pos (h : Neighbour v (place v) r) (hv : 0 < v) : 0 < r := by
  have hle := h.le
  rcases Nat.eq_zero_or_pos (place v) with hp | hp
  · rw [hp, Nat.pow_zero, Nat.div_one] at hle
    omega
  · have := le_div_two_pow_place hp
    omega

theorem le_of_le (h : Neighbour v (place v) r) (hx : Representable x) (hle : x ≤ v) : x ≤ r * 2 ^ place v := by
  rcases Nat.eq_or_lt_of_le (place_mono hle) with heq | hlt
  · rw [Representable, heq] at hx
    obtain ⟨c, hc⟩ := hx
    rw [hc, Nat.mul_comm]
    refine Nat.mul_le_mul_right _ (Nat.le_trans ?_ h.le)
    rw [Nat.le_div_iff_mul_le (Nat.two_pow_pos _), Nat.mul_comm]
    exact hc ▸ hle
  · -- The power of two that begins the binary digits of `v` lies between `x` and `v`.
    have hlog : 52 + place v = v.log2 ∧ x.log2 + 1 ≤ v.log2 := by
      simp only [place] at hlt ⊢
      omega
    calc x ≤ 2 ^ (x.log2 + 1) := Nat.le_of_lt Nat.lt_log2_self
      _ ≤ 2 ^ (52 + place v) := Nat.pow_le_pow_right (by decide) (by omega)
      _ = 2 ^ 52 * 2 ^ place v := Nat.pow_add ..
      _ ≤ r * 2 ^ place v := Nat.mul_le_mul_right _ (Nat.le_trans (le_div_two_pow_place (by omega)) h.le)

theorem ge_of_ge (h : Neighbour v (place v) r) (hx : Representable x) (hle : v ≤ x) : r * 2 ^ place v ≤ x := by
  obtain ⟨c, hc⟩ := Nat.dvd_trans (Nat.pow_dvd_pow 2 (place_mono hle)) hx
  rw [hc, Nat.mul_comm]
  refine Nat.mul_le_mul_left _ ?_
  by_cases hdvd : 2 ^ place v ∣ v
  · rw [h.exact hdvd]
    exact Nat.div_le_of_le_mul (hc ▸ hle)
  · have hlt : v < 2 ^ place v * c := Nat.lt_of_le_of_ne (hc ▸ hle) fun heq => hdvd ⟨c, heq⟩
    exact Nat.le_trans h.le_succ (Nat.div_lt_of_lt_mul hlt)

end Neighbour

/-- `v` is rounded to the double of mantissa `m` and exponent `E`. -/
structure Rounded (v m E : Nat) : Prop where
  pos : 0 < m
  canonical : Canonical m E
  neighbour : ∃ r, Neighbour v (place v) r ∧ m * 2 ^ E = r * 2 ^ place v

namespace Rounded

variable {v m E x : Nat}

theorem le_of_le (h : Rounded v m E) (hx : Representable x) (hle : x ≤ v) : x ≤ m * 2 ^ E := by
  obtain ⟨r, hr, heq⟩ := h.neighbour
  exact heq ▸ hr.le_of_le hx hle

theorem ge_of_ge (h : Rounded v m E) (hx : Representable x) (hle : v ≤ x) : m * 2 ^ E ≤ x := by
  obtain ⟨r, hr, heq⟩ := h.neighbour
  exact heq ▸ hr.ge_of_ge hx hle

end Rounded

/-! ## Shifts -/

theorem shiftRight_succ (em : ExtendedMantissa) (k : Nat) : em >>> (k + 1) = (em >>> k).shiftRightOne := rfl

theorem mantissa_shiftRight (em : ExtendedMantissa) (k : Nat) : (em >>> k).mantissa = em.mantissa / 2 ^ k := by
  induction k with
  | zero => exact (Nat.div_one _).symm
  | succ k ih => rw [shiftRight_succ, ExtendedMantissa.shiftRightOne, ih, Nat.div_div_eq_div_mul, Nat.pow_succ]

/-- Nothing is lost when only zeros are shifted out. -/
theorem shiftRight_of_dvd {m k : Nat} (h : 2 ^ k ∣ m) :
    (⟨m, false, false⟩ : ExtendedMantissa) >>> k = ⟨m / 2 ^ k, false, false⟩ := by
  induction k with
  | zero =>
    rw [Nat.pow_zero, Nat.div_one]
    rfl
  | succ k ih =>
    have heven : m / 2 ^ k % 2 = 0 := by
      obtain ⟨c, rfl⟩ := h
      rw [Nat.pow_succ, Nat.mul_assoc, Nat.mul_div_cancel_left _ (Nat.two_pow_pos k)]
      exact Nat.mul_mod_right 2 c
    rw [shiftRight_succ, ih (Nat.dvd_trans (Nat.pow_dvd_pow 2 (Nat.le_succ k)) h), ExtendedMantissa.shiftRightOne,
      heven, Nat.div_div_eq_div_mul, ← Nat.pow_succ]
    rfl

theorem roundedMantissa_bounds (em : ExtendedMantissa) :
    em.mantissa ≤ em.roundedMantissa ∧ em.roundedMantissa ≤ em.mantissa + 1 := by
  obtain ⟨m, _ | _, _ | _⟩ := em <;>
    simp only [ExtendedMantissa.roundedMantissa, ExtendedMantissa.accuracy, Accuracy.roundToNearestEven] <;> omega

/-! ## Rounding -/

theorem targetExponent_eq {m E : Nat} (hm : 0 < m) :
    Format.binary64.targetExponent (totalExponent m ((E : Int) - 1074)) = (place (m * 2 ^ E) : Int) - 1074 := by
  rw [place, log2_mul_two_pow hm]
  show max ((m.log2 : Int) + 1 + ((E : Int) - 1074) - 53) (-1074) = _
  omega

theorem shiftToTargetExponent_eq {m E : Nat} (hm : 0 < m) :
    shiftToTargetExponent .binary64 m ((E : Int) - 1074) .exact =
      ((⟨m, false, false⟩ : ExtendedMantissa) >>> (place (m * 2 ^ E) - E),
        ((E + (place (m * 2 ^ E) - E) : Nat) : Int) - 1074) := by
  rw [shiftToTargetExponent, targetExponent_eq hm, shiftToExponent]
  have hshift : ((place (m * 2 ^ E) : Int) - 1074 - ((E : Int) - 1074)).toNat = place (m * 2 ^ E) - E := by omega
  simp only [hshift, ExtendedMantissa.ofMantissaAndAccuracy, Prod.mk.injEq, true_and]
  omega

theorem neighbour_roundedMantissa {m E : Nat} (hE : E ≤ place (m * 2 ^ E)) :
    Neighbour (m * 2 ^ E) (place (m * 2 ^ E))
      ((⟨m, false, false⟩ : ExtendedMantissa) >>> (place (m * 2 ^ E) - E)).roundedMantissa := by
  obtain ⟨k, hk⟩ := Nat.exists_eq_add_of_le hE
  have hpow : 2 ^ (E + k) = 2 ^ k * 2 ^ E := by rw [Nat.add_comm, Nat.pow_add]
  have hdiv : m * 2 ^ E / 2 ^ (E + k) = m / 2 ^ k := by
    rw [hpow, Nat.mul_div_mul_right _ _ (Nat.two_pow_pos E)]
  have hbounds := roundedMantissa_bounds ((⟨m, false, false⟩ : ExtendedMantissa) >>> k)
  rw [mantissa_shiftRight] at hbounds
  rw [hk, Nat.add_sub_cancel_left]
  refine ⟨hdiv ▸ hbounds.1, hdiv ▸ hbounds.2, fun hdvd => ?_⟩
  rw [hpow, Nat.mul_dvd_mul_iff_right (Nat.two_pow_pos E)] at hdvd
  rw [hdiv, shiftRight_of_dvd hdvd]
  rfl

/-- A mantissa that rounding has carried to 54 bits is a power of two, and is shifted without loss. -/
theorem exists_shiftToTargetExponent {r T : Nat} (hr : 0 < r) (hle : r ≤ 2 ^ 53) (hnormal : T = 0 ∨ 2 ^ 52 ≤ r) :
    ∃ m E : Nat, shiftToTargetExponent .binary64 r ((T : Int) - 1074) .exact = (⟨m, false, false⟩, (E : Int) - 1074) ∧
      0 < m ∧ Canonical m E ∧ m * 2 ^ E = r * 2 ^ T := by
  rw [shiftToTargetExponent_eq hr, place, log2_mul_two_pow hr]
  rcases Nat.lt_or_eq_of_le hle with hlt | rfl
  · have hlog : r.log2 < 53 := (Nat.log2_lt (by omega)).2 hlt
    rw [show r.log2 + T - 52 - T = 0 by omega]
    exact ⟨r, T, rfl, hr, ⟨hlt, hnormal⟩, rfl⟩
  · rw [Nat.log2_two_pow, show 53 + T - 52 - T = 1 by omega, shiftRight_of_dvd (by decide)]
    exact ⟨2 ^ 52, T + 1, rfl, by decide, ⟨by decide, .inr (Nat.le_refl _)⟩, by rw [Nat.pow_succ]; omega⟩

theorem exists_roundWithAccuracy (s : Sign) {m E : Nat} (hm : 0 < m) (hE : E ≤ place (m * 2 ^ E)) :
    ∃ (m' E' : Nat) (hm' : 0 < m'),
      roundWithAccuracy .binary64 s m ((E : Int) - 1074) .exact = .finite s m' ((E' : Int) - 1074) hm' ∧
      Rounded (m * 2 ^ E) m' E' := by
  have hr := neighbour_roundedMantissa hE
  have hpos := hr.pos (Nat.mul_pos hm (Nat.two_pow_pos E))
  obtain ⟨m', E', hshift, hm', hc, heq⟩ := exists_shiftToTargetExponent hpos
    (Nat.le_trans hr.le_succ (div_two_pow_place_lt _))
    ((Nat.eq_zero_or_pos _).imp_right fun hp => Nat.le_trans (le_div_two_pow_place hp) hr.le)
  refine ⟨m', E', hm', ?_, hm', hc, _, hr, heq⟩
  rw [roundWithAccuracy, shiftToTargetExponent_eq hm, Nat.add_sub_cancel' hE]
  dsimp only
  rw [hshift]
  exact dif_neg (Nat.ne_of_gt hm')

theorem exists_round (s : Sign) {m E : Nat} (hm : 0 < m) :
    ∃ (m' E' : Nat) (hm' : 0 < m'),
      UnpackedFloat.round .binary64 s m ((E : Int) - 1074) = .finite s m' ((E' : Int) - 1074) hm' ∧
      Rounded (m * 2 ^ E) m' E' := by
  -- A mantissa of few bits is first shifted to the left, by `k`.
  generalize hk : E - place (m * 2 ^ E) = k
  have hv : m * 2 ^ k * 2 ^ (E - k) = m * 2 ^ E := by
    rw [Nat.mul_assoc, ← Nat.pow_add, show k + (E - k) = E by omega]
  have h := exists_roundWithAccuracy s (m := m * 2 ^ k) (E := E - k) (Nat.mul_pos hm (Nat.two_pow_pos _))
    (by rw [hv]; omega)
  rw [hv] at h
  rwa [UnpackedFloat.round, targetExponent_eq hm, decreaseExponent, Nat.shiftLeft_eq,
    show ((E : Int) - 1074 - ((place (m * 2 ^ E) : Int) - 1074)).toNat = k by omega,
    show (E : Int) - 1074 - (k : Int) = ((E - k : Nat) : Int) - 1074 by omega]

end Transportation.Double
