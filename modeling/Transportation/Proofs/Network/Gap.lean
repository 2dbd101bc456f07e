import Mathlib.Data.Finset.Card
import Mathlib.Data.Int.ConditionallyCompleteOrder
import Mathlib.Data.Int.Interval
import Mathlib.Tactic.Linarith
import Transportation.Proofs.Network.Flow
import Transportation.Proofs.Tree.Forest
/-!
# Gaps between potentials

Potentials of `n` vertices that lie far enough apart leave a gap: if two of them differ by more than `(n - 1) * c`,
somewhere between the two there is a stretch longer than `c` without potentials (`exists_gap`). Arcs along which the
potential changes by at most `c` do not lead across a gap, so they connect vertices with a difference of at most
`(n - 1) * c` only (`abs_potential_sub_le`). Gaps longer than `c` may be narrowed to `c` (`exists_narrowed`).
-/

namespace Transportation

variable {V : Type} {S : Finset V} {p : V → Int} {u v : V} {a b c d : Int}

/-- Stretches of length `c`, one after the other, take as many vertices as there are stretches. -/
theorem le_card_of_stretches (hc : 0 ≤ c) {n : Nat}
    (h : ∀ k : Nat, k < n → ∃ w ∈ S, a + k * c < p w ∧ p w ≤ a + k * c + c) : n ≤ S.card := by
  rcases n.eq_zero_or_pos with rfl | hn
  · exact Nat.zero_le _
  have : Nonempty V := ⟨(h 0 hn).choose⟩
  choose! w hw hlower hupper using h
  have hlt : ∀ {j k : Nat}, j < k → j < n → k < n → w j ≠ w k := by
    intro j k hjk hj hk e
    have h₁ := hupper j hj
    have h₂ := hlower k hk
    rw [e] at h₁
    have : ((j : Int) + 1) * c ≤ k * c := Int.mul_le_mul_of_nonneg_right (by omega) hc
    linarith
  have hinj : Set.InjOn w (Finset.range n : Set Nat) := by
    intro j hj k hk e
    rw [Finset.mem_coe, Finset.mem_range] at hj hk
    rcases Nat.lt_trichotomy j k with hjk | hjk | hjk
    · exact absurd e (hlt hjk hj hk)
    · exact hjk
    · exact absurd e.symm (hlt hjk hk hj)
  have hmaps : Set.MapsTo w (Finset.range n : Set Nat) (S : Set V) := fun k hk =>
    hw k (Finset.mem_range.1 (Finset.mem_coe.1 hk))
  simpa using Finset.card_le_card_of_injOn w hmaps hinj

theorem exists_gap [DecidableEq V] (hu : u ∈ S) (hv : v ∈ S) (hc : 0 ≤ c)
    (h : ((S.card : Int) - 1) * c < p v - p u) :
    ∃ θ, p u ≤ θ ∧ θ + c < p v ∧ ∀ w ∈ S, p w ≤ θ ∨ θ + c < p w := by
  by_contra hno
  have hpos : 1 ≤ S.card := Finset.card_pos.2 ⟨u, hu⟩
  have hne : u ≠ v := by
    rintro rfl
    have : 0 ≤ ((S.card : Int) - 1) * c := Int.mul_nonneg (by omega) hc
    omega
  -- Each stretch after `p u + k * c` has a vertex other than `u` and `v`, and there are too few of these.
  have hle : S.card - 1 ≤ ((S.erase u).erase v).card := by
    refine le_card_of_stretches (p := p) (a := p u) hc fun k hk => ?_
    have hk0 : 0 ≤ (k : Int) * c := Int.mul_nonneg (by omega) hc
    have hend : p u + k * c + c < p v := by
      have : ((k : Int) + 1) * c ≤ ((S.card : Int) - 1) * c := Int.mul_le_mul_of_nonneg_right (by omega) hc
      linarith
    by_contra hnone
    refine hno ⟨p u + k * c, by omega, hend, fun w hw => ?_⟩
    by_contra hbetween
    have hwu : w ≠ u := by rintro rfl; omega
    have hwv : w ≠ v := by rintro rfl; omega
    exact hnone ⟨w, Finset.mem_erase.2 ⟨hwv, Finset.mem_erase.2 ⟨hwu, hw⟩⟩, by omega, by omega⟩
  rw [Finset.card_erase_of_mem (Finset.mem_erase.2 ⟨hne.symm, hv⟩), Finset.card_erase_of_mem hu] at hle
  have : 1 < S.card := Finset.one_lt_card.2 ⟨u, hu, v, hv, hne⟩
  omega

/-! ## Narrowing gaps -/

/-- The integers from `a` up to `b` that lie at a potential or less than `c` above one. -/
noncomputable def shaded (S : Finset V) (p : V → Int) (c a b : Int) : Finset Int :=
  (Finset.Ico a b).filter fun θ => ∃ w ∈ S, p w ≤ θ ∧ θ < p w + c

theorem card_shaded_add (hab : a ≤ b) (hbd : b ≤ d) :
    (shaded S p c a b).card + (shaded S p c b d).card = (shaded S p c a d).card := by
  have hdisjoint : Disjoint (shaded S p c a b) (shaded S p c b d) :=
    Finset.disjoint_filter_filter (Finset.Ico_disjoint_Ico_consecutive a b d)
  rw [← Finset.card_union_of_disjoint hdisjoint, shaded, shaded, ← Finset.filter_union,
    Finset.Ico_union_Ico_eq_Ico hab hbd, shaded]

theorem card_shaded_of_le (hu : u ∈ S) (hb : b ≤ p u + c) : (shaded S p c (p u) b).card = (b - p u).toNat := by
  rw [shaded, Finset.filter_true_of_mem, Int.card_Ico]
  intro θ hθ
  have hθ := Finset.mem_Ico.1 hθ
  exact ⟨u, hu, hθ.1, by omega⟩

/-- Below a potential every other one shades at most `c` integers. -/
theorem card_shaded_le [DecidableEq V] (hv : v ∈ S) (hc : 0 ≤ c) :
    ((shaded S p c a (p v)).card : Int) ≤ ((S.card : Int) - 1) * c := by
  have hsub : shaded S p c a (p v) ⊆ (S.erase v).biUnion fun w => Finset.Ico (p w) (p w + c) := by
    intro θ hθ
    obtain ⟨hθ, w, hw, hle, hlt⟩ := Finset.mem_filter.1 hθ
    have hne : w ≠ v := by
      rintro rfl
      have := (Finset.mem_Ico.1 hθ).2
      omega
    exact Finset.mem_biUnion.2 ⟨w, Finset.mem_erase.2 ⟨hne, hw⟩, Finset.mem_Ico.2 ⟨hle, hlt⟩⟩
  have hcard := (Finset.card_le_card hsub).trans
    (Finset.card_biUnion_le_card_mul (S.erase v) _ c.toNat fun w _ => by rw [Int.card_Ico]; omega)
  have hpos : 1 ≤ S.card := Finset.card_pos.2 ⟨v, hv⟩
  rw [Finset.card_erase_of_mem hv] at hcard
  calc ((shaded S p c a (p v)).card : Int) ≤ ((S.card - 1) * c.toNat : Nat) := by exact_mod_cast hcard
    _ = ((S.card : Int) - 1) * c := by rw [Nat.cast_mul, Nat.cast_sub hpos, Int.toNat_of_nonneg hc, Nat.cast_one]

/-- Gaps longer than `c` can be narrowed to `c`, and then no two potentials differ by more than `(n - 1) * c`. Potentials
that differ by at most `c` keep their difference. -/
theorem exists_narrowed [DecidableEq V] (S : Finset V) (p : V → Int) (hc : 0 ≤ c) :
    ∃ q : V → Int, ∀ u ∈ S, ∀ v ∈ S, p u ≤ p v → q v - q u ≤ ((S.card : Int) - 1) * c ∧
      (p v - p u ≤ c → q v - q u = p v - p u) ∧ (c < p v - p u → c ≤ q v - q u) := by
  obtain ⟨low, hlow⟩ := (S.image p).bddBelow
  have hlow : ∀ w ∈ S, low ≤ p w := fun w hw => hlow (Finset.mem_coe.2 (Finset.mem_image_of_mem p hw))
  refine ⟨fun v => (shaded S p c low (p v)).card, fun u hu v hv huv => ?_⟩
  have hq : ((shaded S p c low (p v)).card : Int) - (shaded S p c low (p u)).card = (shaded S p c (p u) (p v)).card := by
    rw [← card_shaded_add (hlow u hu) huv]
    push_cast
    ring
  simp only [hq]
  refine ⟨card_shaded_le hv hc, fun hle => ?_, fun hlt => ?_⟩
  · rw [card_shaded_of_le hu (by omega)]
    omega
  · have hstep := card_shaded_add (S := S) (p := p) (c := c) (a := p u) (b := p u + c) (d := p v) (by omega) (by omega)
    rw [card_shaded_of_le hu (le_refl _)] at hstep
    omega

namespace Network

variable {F : Type} {g : Network F} {T : ArcSet} {p : VertexId → Int} {u v : VertexId}

theorem card_vertexSet (g : Network F) : g.vertexSet.card = g.numVertices := by
  rw [vertexSet, List.toFinset_card_of_nodup (nodup_vertexIds g), vertexIds, List.length_map, List.length_range]

/-- Vertices are connected across no gap. -/
theorem potential_sub_le (hT : T.Within g.numVertices) (hc : 0 ≤ c)
    (hstep : ∀ {s x y}, T.Leads s x y → p y - p x ≤ c) (hu : u.index < g.numVertices) (hv : v.index < g.numVertices)
    (h : T.Connected u v) : p v - p u ≤ ((g.numVertices : Int) - 1) * c := by
  by_contra hlt
  rw [← card_vertexSet] at hlt
  obtain ⟨θ, hpu, hpv, hgap⟩ :=
    exists_gap (mem_vertexSet_iff.2 hu) (mem_vertexSet_iff.2 hv) hc (Int.not_le.1 hlt)
  have hle : p v ≤ θ := by
    refine h.induction (P := fun w => p w ≤ θ) hpu fun s x y hs hx => ?_
    have hy : y ∈ g.vertexSet := mem_vertexSet_iff.2 (hT hs.reverse)
    have := hstep hs
    rcases hgap y hy with hy | hy <;> omega
  omega

theorem abs_potential_sub_le (hT : T.Within g.numVertices) (hc : 0 ≤ c)
    (hstep : ∀ {s x y}, T.Leads s x y → |p y - p x| ≤ c) (hu : u.index < g.numVertices)
    (hv : v.index < g.numVertices) (h : T.Connected u v) : |p v - p u| ≤ ((g.numVertices : Int) - 1) * c := by
  have hstep' : ∀ {s x y}, T.Leads s x y → p y - p x ≤ c := fun hs => (abs_le.1 (hstep hs)).2
  have h₁ := potential_sub_le hT hc hstep' hu hv h
  have h₂ := potential_sub_le hT hc hstep' hv hu h.symm
  exact abs_le.2 ⟨by omega, h₁⟩

end Network

end Transportation
