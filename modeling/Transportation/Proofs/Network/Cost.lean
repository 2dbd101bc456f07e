import Mathlib.Tactic.Linarith
import Mathlib.Tactic.Ring
import Transportation.Amount.Signed
import Transportation.Proofs.Faults
import Transportation.Simplex.Solve
/-!
# The artificial cost

The default artificial cost is the number of vertices times one more than the largest cost, or the cap if that would
be more than the cap (`val_eq_min`). It makes up for all the costs of a path as long as the cap does
(`lt_defaultArtificialCost`). If costs are moderate, it is not capped and computing it does not overflow.
-/

namespace Transportation.Network

variable {max : Nat} {g : Network (Signed max)}

/-- The largest absolute cost, or zero if there are no arcs. -/
def maxAbsCost (g : Network (Signed max)) : Nat :=
  (g.arcs.toList.map fun a => a.cost.val.natAbs).max?.getD 0

theorem maxAbsCost_le_iff {k : Nat} : g.maxAbsCost ≤ k ↔ ∀ a ∈ g.arcs.toList, a.cost.val.natAbs ≤ k := by
  unfold maxAbsCost
  rw [← List.forall_mem_map (f := fun a : Arc (Signed max) => a.cost.val.natAbs) (P := fun c => c ≤ k)]
  cases h : (g.arcs.toList.map fun a => a.cost.val.natAbs).max? with
  | none => simp [List.max?_eq_none_iff.1 h]
  | some c => exact List.max?_le_iff h

theorem natAbs_le_maxAbsCost {a : Arc (Signed max)} (ha : a ∈ g.arcs.toList) : a.cost.val.natAbs ≤ g.maxAbsCost :=
  maxAbsCost_le_iff.1 (le_refl _) a ha

variable [NeZero max]

theorem val_of_largestCost {v : Signed max} (h : g.largestCost = .ok v) : v.val = g.maxAbsCost := by
  have hmain : 0 ≤ v.val ∧ ∀ k : Nat, v.val ≤ k ↔ ∀ a ∈ g.arcs.toList, a.cost.val.natAbs ≤ k := by
    refine Checked.foldlM_induction (fun done (v : Signed max) =>
      0 ≤ v.val ∧ ∀ k : Nat, v.val ≤ k ↔ ∀ a ∈ done, a.cost.val.natAbs ≤ k) h
      ⟨le_refl _, fun k => by simp [Signed.zero_val]⟩ ?_
    intro done a x y _ ⟨hx0, hx⟩ hy
    obtain ⟨c, hc, hy⟩ := Checked.bind_eq_ok_iff.1 hy
    have hc := Signed.abs_eq_ok_iff.1 hc
    obtain rfl := Checked.pure_eq_ok_iff.1 hy
    have hlt : Amount.lt x c = true ↔ x.val < c.val := Signed.lt_iff
    simp only [List.forall_mem_append, List.forall_mem_singleton, ← hx]
    by_cases hxc : x.val < c.val
    · rw [if_pos (hlt.2 hxc)]
      exact ⟨by omega, fun k => by omega⟩
    · rw [if_neg (hxc ∘ hlt.1)]
      exact ⟨hx0, fun k => by omega⟩
  have h₁ := (hmain.2 g.maxAbsCost).2 fun a ha => natAbs_le_maxAbsCost ha
  have h₂ := maxAbsCost_le_iff.2 ((hmain.2 v.val.toNat).1 (by omega))
  omega

omit [NeZero max] in
/-- The number of vertices that the artificial cost is computed from: one if there are none, and also if the number type
does not hold it. -/
def heldCount (g : Network (Signed max)) : Nat :=
  if g.numVertices ≤ max then Max.max g.numVertices 1 else 1

omit [NeZero max] in
theorem heldCount_pos (g : Network (Signed max)) : 0 < g.heldCount := by
  unfold heldCount
  split <;> omega

omit [NeZero max] in
theorem heldCount_eq (hn : 0 < g.numVertices) (hmax : g.numVertices ≤ max) : g.heldCount = g.numVertices := by
  rw [heldCount, if_pos hmax, Nat.max_eq_left hn]

theorem val_ofCount_getD (g : Network (Signed max)) :
    ((Amount.ofCount? (Max.max g.numVertices 1)).getD Amount.one : Signed max).val = g.heldCount := by
  have hmax := NeZero.pos max
  unfold heldCount
  cases hcount : Amount.ofCount? (F := Signed max) (Max.max g.numVertices 1) with
  | some n =>
    have hn := Signed.ofCount?_eq_some_iff.1 hcount
    have := n.upper
    rw [if_pos (by omega), Option.getD_some, hn]
  | none =>
    have hlt : ¬ g.numVertices ≤ max := by
      intro hle
      have hsome : Amount.ofCount? (Max.max g.numVertices 1) =
          some (Signed.ofNat (Max.max g.numVertices 1) (Nat.max_le.2 ⟨hle, hmax⟩)) :=
        Signed.ofCount?_eq_some_iff.2 rfl
      rw [hcount] at hsome
      cases hsome
    rw [if_neg hlt]
    rfl

/-- The artificial cost is the count of vertices times one more than the largest cost, up to the cap. -/
theorem val_of_heldCount {M : Signed max} (h : g.defaultArtificialCost = .ok M) :
    M.val = if max / (g.heldCount + 1) / g.heldCount ≤ g.maxAbsCost then ((max / (g.heldCount + 1) : Nat) : Int)
      else g.heldCount * (1 + g.maxAbsCost) := by
  unfold defaultArtificialCost at h
  obtain ⟨value, hvalue, h⟩ := Checked.bind_eq_ok_iff.1 h
  have hvalue := val_of_largestCost hvalue
  have hcount := val_ofCount_getD g
  simp only [Checked.bind_eq_ok_iff] at h
  obtain ⟨n', hn', cap, hcap, share, hshare, h⟩ := h
  have hn' := Signed.add_eq_ok_iff.1 hn'
  obtain ⟨-, hcap⟩ := Signed.div_eq_ok_iff.1 hcap
  obtain ⟨-, hshare⟩ := Signed.div_eq_ok_iff.1 hshare
  rw [Signed.one_val, hcount] at hn'
  have hcap : cap.val = ((max / (g.heldCount + 1) : Nat) : Int) := by
    rw [hcap, hn', Signed.largest_val]
    exact Int.ofNat_tdiv max (g.heldCount + 1)
  have hshare : share.val = ((max / (g.heldCount + 1) / g.heldCount : Nat) : Int) := by
    rw [hshare, hcap, hcount]
    exact Int.ofNat_tdiv _ _
  have hle : Amount.le share value = true ↔ max / (g.heldCount + 1) / g.heldCount ≤ g.maxAbsCost := by
    rw [Signed.le_iff, hshare, hvalue]
    omega
  by_cases hc : max / (g.heldCount + 1) / g.heldCount ≤ g.maxAbsCost
  · rw [if_pos (hle.2 hc)] at h
    rw [if_pos hc, ← Checked.pure_eq_ok_iff.1 h, hcap]
  · rw [if_neg (hc ∘ hle.1)] at h
    obtain ⟨more, hmore, h⟩ := Checked.bind_eq_ok_iff.1 h
    rw [if_neg hc, Signed.mul_eq_ok_iff.1 h, Signed.add_eq_ok_iff.1 hmore, hvalue, Signed.one_val, hcount]

/-- If the number type holds the number of vertices, the artificial cost is computed from it. -/
theorem val_of_defaultArtificialCost {M : Signed max} (hn : 0 < g.numVertices) (hmax : g.numVertices ≤ max)
    (h : g.defaultArtificialCost = .ok M) :
    M.val = if max / (g.numVertices + 1) / g.numVertices ≤ g.maxAbsCost then ((max / (g.numVertices + 1) : Nat) : Int)
      else g.numVertices * (1 + g.maxAbsCost) := by
  have hval := val_of_heldCount h
  rwa [heldCount_eq hn hmax] at hval

/-- If the cap makes up for all the costs of a path, so does the artificial cost. -/
theorem lt_defaultArtificialCost {M : Signed max} (hn : 0 < g.numVertices)
    (hcap : (g.numVertices - 1) * g.maxAbsCost < max / (g.numVertices + 1)) (h : g.defaultArtificialCost = .ok M) :
    ((g.numVertices : Int) - 1) * g.maxAbsCost < M.val := by
  have hmax : g.numVertices ≤ max := by
    have := Nat.div_pos_iff.1 (Nat.zero_lt_of_lt hcap)
    omega
  have hcap : ((g.numVertices : Int) - 1) * g.maxAbsCost < ((max / (g.numVertices + 1) : Nat) : Int) := by
    rw [← Nat.cast_pred hn]
    exact_mod_cast hcap
  rw [val_of_defaultArtificialCost hn hmax h]
  split
  · exact hcap
  · nlinarith

/-- In other words, the artificial cost is the smaller of the two. -/
theorem val_eq_min {M : Signed max} (h : g.defaultArtificialCost = .ok M) :
    M.val = ((min (max / (g.heldCount + 1)) (g.heldCount * (g.maxAbsCost + 1)) : Nat) : Int) := by
  have hiff : max / (g.heldCount + 1) / g.heldCount ≤ g.maxAbsCost ↔
      max / (g.heldCount + 1) < g.heldCount * (g.maxAbsCost + 1) := by
    rw [← Nat.lt_succ_iff, Nat.div_lt_iff_lt_mul g.heldCount_pos, Nat.mul_comm]
  rw [val_of_heldCount h]
  split
  · next hle => rw [min_eq_left (hiff.1 hle).le]
  · next hle =>
    rw [min_eq_right (Nat.not_lt.1 (hle ∘ hiff.2)), Nat.add_comm]
    norm_cast

/-! ## Moderate costs -/

omit [NeZero max] in
/-- If costs are moderate, the number type holds the artificial cost once more than there are vertices. -/
theorem bounds_of_moderate (h : g.maxAbsCost < max / (g.numVertices + 1) / g.numVertices) :
    0 < g.numVertices ∧ g.numVertices + 1 ≤ max ∧ 1 + g.maxAbsCost ≤ g.numVertices * (1 + g.maxAbsCost) ∧
      g.numVertices * (g.numVertices * (1 + g.maxAbsCost)) + g.numVertices * (1 + g.maxAbsCost) ≤ max := by
  have hn : 0 < g.numVertices := by
    by_contra hn
    rw [Nat.eq_zero_of_not_pos hn, Nat.div_zero] at h
    exact Nat.not_lt_zero _ h
  have hshare := (Nat.le_div_iff_mul_le (Nat.succ_pos _)).1 ((Nat.le_div_iff_mul_le hn).1 h)
  have hcost : (g.maxAbsCost + 1) * g.numVertices * (g.numVertices + 1) =
      g.numVertices * (g.numVertices * (1 + g.maxAbsCost)) + g.numVertices * (1 + g.maxAbsCost) := by
    ring
  refine ⟨hn, ?_, Nat.le_mul_of_pos_left _ hn, hcost ▸ hshare⟩
  exact (Nat.le_mul_of_pos_left _ (Nat.mul_pos (Nat.succ_pos _) hn)).trans hshare

/-- The artificial cost is not capped if costs are moderate. -/
theorem val_of_moderate {M : Signed max} (h : g.maxAbsCost < max / (g.numVertices + 1) / g.numVertices)
    (hM : g.defaultArtificialCost = .ok M) : M.val = ((g.numVertices * (1 + g.maxAbsCost) : Nat) : Int) := by
  obtain ⟨hn, hmax, -, -⟩ := bounds_of_moderate h
  rw [val_of_defaultArtificialCost hn (by omega) hM, if_neg (Nat.not_le.2 h)]
  norm_cast

open Checked

variable {P : Fault → Prop}

theorem faultsOnly_largestCost (h : ∀ a ∈ g.arcs.toList, -(max : Int) ≤ a.cost.val) : FaultsOnly P g.largestCost := by
  refine .foldlM fun done a rest c hl _ => ?_
  exact .bind (Signed.faultsOnly_abs (h a (by simp [hl]))) fun _ _ => .pure _

/-- Computing the artificial cost does not overflow if the absolute costs are amounts and the type holds one more than
the count of vertices. -/
theorem faultsOnly_defaultArtificialCost_of_count (hcost : ∀ a ∈ g.arcs.toList, -(max : Int) ≤ a.cost.val)
    {n : Signed max} (hn : (Amount.ofCount? (Max.max g.numVertices 1)).getD Amount.one = n) (hlt : n.val + 1 ≤ max) :
    FaultsOnly P g.defaultArtificialCost := by
  have hone : (Amount.one : Signed max).val = 1 := Signed.one_val
  have hlargest : (Amount.largest : Signed max).val = max := Signed.largest_val
  have hpos : 1 ≤ n.val := by
    rw [← hn]
    cases hcount : Amount.ofCount? (F := Signed max) (Max.max g.numVertices 1) with
    | none => exact hone.ge
    | some n =>
      rw [Option.getD_some, Signed.ofCount?_eq_some_iff.1 hcount]
      omega
  refine .bind (faultsOnly_largestCost hcost) fun value hvalue => ?_
  have hvalue := val_of_largestCost hvalue
  simp only [hn]
  refine .bind (Signed.faultsOnly_add (by omega) (by omega)) fun n' hn' => ?_
  have hn' := Signed.add_eq_ok_iff.1 hn'
  refine .bind (Signed.faultsOnly_div (by omega) (by omega)) fun cap hcap => ?_
  have hcap0 : 0 ≤ cap.val := by
    rw [(Signed.div_eq_ok_iff.1 hcap).2]
    exact Int.tdiv_nonneg (by omega) (by omega)
  refine .bind (Signed.faultsOnly_div hcap0 (by omega)) fun share hshare => ?_
  obtain ⟨-, hshare⟩ := Signed.div_eq_ok_iff.1 hshare
  split
  · exact .pure _
  · next hle =>
    -- The largest cost is less than the share, and as many shares as there are vertices are at most the cap.
    rw [Signed.le_iff] at hle
    have hmax : value.val < max := by have := share.upper; omega
    refine .bind (Signed.faultsOnly_add (by omega) (by omega)) fun more hmore => ?_
    have hmore := Signed.add_eq_ok_iff.1 hmore
    have hproduct : n.val * more.val ≤ max := by
      have hshares : n.val * share.val ≤ cap.val := by
        rw [hshare]
        exact Int.mul_tdiv_self_le hcap0
      calc n.val * more.val ≤ n.val * share.val := Int.mul_le_mul_of_nonneg_left (by omega) (by omega)
        _ ≤ cap.val := hshares
        _ ≤ max := cap.upper
    have hnonneg : 0 ≤ n.val * more.val := Int.mul_nonneg (by omega) (by omega)
    exact Signed.faultsOnly_mul (by omega) hproduct

/-- Computing the artificial cost does not overflow if costs are moderate. -/
theorem faultsOnly_defaultArtificialCost (h : g.maxAbsCost < max / (g.numVertices + 1) / g.numVertices) :
    FaultsOnly P g.defaultArtificialCost := by
  obtain ⟨hn, hmax, hone_le, hle⟩ := bounds_of_moderate h
  have hnmax : g.numVertices ≤ max := by omega
  have hcount : Amount.ofCount? (Max.max g.numVertices 1) = some (Signed.ofNat g.numVertices hnmax) := by
    rw [Nat.max_eq_left hn]
    exact Signed.ofCount?_eq_some_iff.2 rfl
  refine faultsOnly_defaultArtificialCost_of_count (n := Signed.ofNat g.numVertices hnmax) (fun a ha => ?_)
    (by rw [hcount, Option.getD_some]) (show (g.numVertices : Int) + 1 ≤ max by omega)
  have := natAbs_le_maxAbsCost ha
  omega

/-- Costs of which the artificial cost was computed are amounts without their sign, and the type holds one more than the
count of vertices. -/
theorem bounds_of_defaultArtificialCost {M : Signed max} (h : g.defaultArtificialCost = .ok M) :
    (∀ a ∈ g.arcs.toList, -(max : Int) ≤ a.cost.val) ∧
      ((Amount.ofCount? (Max.max g.numVertices 1)).getD Amount.one : Signed max).val + 1 ≤ max := by
  unfold defaultArtificialCost at h
  obtain ⟨value, hvalue, h⟩ := Checked.bind_eq_ok_iff.1 h
  obtain ⟨n', hn', -⟩ := Checked.bind_eq_ok_iff.1 h
  refine ⟨fun a ha => ?_, ?_⟩
  · have := val_of_largestCost hvalue
    have := natAbs_le_maxAbsCost ha
    have := value.upper
    omega
  · have hone : (Amount.one : Signed max).val = 1 := Signed.one_val
    rw [← hone, ← Signed.add_eq_ok_iff.1 hn']
    exact n'.upper

end Transportation.Network
