import Transportation.Proofs.Simplex.Bounded
import Transportation.Proofs.Simplex.Infeasible
/-!
# Solving without overflow

With moderate weights and costs a solver without a tolerance always comes to an end, with a solution or with an error
of its own (`solve_total`). No sum of weights leaves the range between the supply and the demand, and all costs lie
within the artificial cost, which the number type holds as often as there are vertices.
-/

namespace Transportation

/-! ## Sums of weights -/

/-- A part of a sum is at most the sum of all terms that are not negative. -/
theorem sum_le_sum_filter (l l' : List Int) : l.sum ≤ ((l ++ l').filter (0 ≤ ·)).sum := by
  induction l with
  | nil => exact List.sum_nonneg (by simp)
  | cons w l ih =>
    rw [List.cons_append, List.filter_cons, List.sum_cons]
    split
    · rw [List.sum_cons]
      omega
    · next hw =>
      have hw : w < 0 := by simpa using hw
      omega

/-- A part of a sum is at least the sum of all negative terms. -/
theorem neg_sum_abs_le (l l' : List Int) : -(((l ++ l').filter (· < 0)).map fun w => |w|).sum ≤ l.sum := by
  induction l with
  | nil =>
    have : 0 ≤ ((l'.filter (· < 0)).map fun w => |w|).sum := by
      refine List.sum_nonneg fun x hx => ?_
      obtain ⟨w, -, rfl⟩ := List.mem_map.1 hx
      exact abs_nonneg w
    simpa using this
  | cons w l ih =>
    rw [List.cons_append, List.filter_cons, List.sum_cons]
    split
    · next hw =>
      have hw : w < 0 := by simpa using hw
      rw [List.map_cons, List.sum_cons, abs_of_neg hw]
      omega
    · next hw =>
      have hw : 0 ≤ w := by simpa using hw
      omega

variable {max : Nat}

namespace Network

open Checked

variable {g : Network (Signed max)} {P : Fault → Prop}

/-- The sum of the absolute values of the negative weights. -/
def totalSupply (g : Network (Signed max)) : Int :=
  (((g.vertices.toList.map fun v => v.weight.val).filter (· < 0)).map fun w => |w|).sum

theorem neg_weight_le {v : Vertex (Signed max)} (hv : v ∈ g.vertices.toList) (hneg : v.weight.val < 0) :
    -v.weight.val ≤ g.totalSupply := by
  rw [← abs_of_neg hneg]
  refine List.single_le_sum (fun x hx => ?_) _ (List.mem_map_of_mem (List.mem_filter.2 ⟨List.mem_map_of_mem hv, ?_⟩))
  · obtain ⟨w, -, rfl⟩ := List.mem_map.1 hx
    exact abs_nonneg w
  · simpa using hneg

variable [NeZero max]

theorem faultsOnly_totalWeight (hd : g.totalDemand ≤ max) (hs : g.totalSupply ≤ max) :
    FaultsOnly P g.totalWeight := by
  refine .foldlM fun done v rest x hl hx => ?_
  have hx := val_of_sumWeights hx
  have hsum : ((done ++ [v]).map fun v => v.weight.val).sum = x.val + v.weight.val := by
    simp [hx]
  have hupper := sum_le_sum_filter ((done ++ [v]).map fun v => v.weight.val) (rest.map fun v => v.weight.val)
  have hlower := neg_sum_abs_le ((done ++ [v]).map fun v => v.weight.val) (rest.map fun v => v.weight.val)
  rw [← List.map_append, List.append_assoc, List.singleton_append, ← hl, hsum] at hupper hlower
  unfold totalDemand at hd
  unfold totalSupply at hs
  exact Signed.faultsOnly_add (by omega) (by omega)

theorem faultsOnly_isBalancedWithin (hd : g.totalDemand ≤ max) (hs : g.totalSupply ≤ max) {zero : Signed max}
    (hz : zero.val = 0) : FaultsOnly P (g.isBalancedWithin zero) := by
  refine .bind (faultsOnly_totalWeight hd hs) fun total _ => ?_
  split
  · have h0 : (Amount.zero : Signed max).val = 0 := Signed.zero_val
    exact .bind (Signed.faultsOnly_sub (by omega) (by omega)) fun _ _ => .pure _
  · exact .pure _

end Network

namespace Simplex

open Network Checked

variable [NeZero max] {g : Network (Signed max)} {s : Simplex (Signed max)} {B : Int} {P : Fault → Prop}

/-! ## The parts of a computation -/

theorem faultsOnly_start_of_fits (hg : g.WellFormed) (hin : s.input = g) (hz : s.options.zero.val = 0)
    (hf : g.Fits B) (hs : g.totalSupply ≤ max) (hid : g.numArcs + g.numVertices ≤ idLimit) :
    FaultsOnly P (s.run start) := by
  subst hin
  refine faultsOnly_start hg (faultsOnly_isBalancedWithin hf.flows hs hz) ?_ fun {h t} hstar ht => ?_
  · refine faultsOnly_star hg (by omega) fun w hw hneg => ?_
    have hneg := Signed.lt_iff.1 hneg
    rw [Signed.zero_val] at hneg
    have := neg_weight_le hw hneg
    exact Signed.faultsOnly_neg (by omega)
  · have hstar := star_of_eq_ok hg hstar
    have hh := hstar.wellFormed.toNumbered
    have htree := spanningTree_star hstar ht
    refine (costsWithin_of_initial (hasCosts_star hstar) hf.pos).faultsOnly_computePotentials (Int.le_of_lt hf.pos) ?_
      hh htree.lists (firstSupplier_lt hh)
    rw [hstar.numVertices_eq]
    exact hf.potentials

theorem Bounded.faultsOnly_optimize (hs : Bounded g B s) (hf : g.Fits B) : FaultsOnly P (s.run Simplex.optimize) := by
  refine Simplex.faultsOnly_optimize (I := fun s => Bounded g B s ∧ s.phase ≠ .setup) (fun h => ⟨hs, h⟩) ?_ ?_ ?_
  · exact fun h hp => ⟨h.1.pivot hp, hp.constants.2.2.1 ▸ h.2⟩
  · exact fun h => h.1.faultsOnly_price hf h.2
  · exact fun h => h.1.faultsOnly_pivot hf

theorem Bounded.faultsOnly_restoreCosts (hs : Bounded g B s) (hf : g.Fits B) (hg : g.WellFormed)
    (hcost : (g.maxAbsCost : Int) ≤ B) (hM : FaultsOnly P s.artificialCost)
    (hc : ∀ c, s.artificialCost = .ok c → |c.val| ≤ B) : FaultsOnly P (s.run restoreCosts) := by
  refine Simplex.faultsOnly_restoreCosts hg hs.toSound (fun _ => hM) fun {c k} hphase hM hk => ?_
  have hframe := frame_restore hk
  have hn := numVertices_of_frame hframe
  have hk' := hs.wellFormed.of_frame hframe
  have htree := (hs.tree hphase).congr hk' hn (map_restore hk fun _ _ => rfl)
  have hwithin := costsWithin_restore hk (hs.within hphase) (hc c hM) (hs.input.symm ▸ hcost)
  refine hwithin.faultsOnly_computePotentials (Int.le_of_lt hf.pos) ?_ hk'.toNumbered htree.lists
    (hs.root_lt hphase hn)
  rw [hn, hs.numVertices_eq]
  exact hf.potentials

/-! ## The whole computation -/

/-- If the number type holds the potentials for costs up to `B`, the demand and the supply, and no cost nor the
artificial cost is more than `B`, solving does not fault. -/
theorem faultsOnly_solve_of_fits (hg : g.WellFormed) (hin : s.input = g) (hz : s.options.zero.val = 0) (hf : g.Fits B)
    (hs : g.totalSupply ≤ max) (hid : g.numArcs + g.numVertices ≤ idLimit) (hcost : (g.maxAbsCost : Int) ≤ B)
    (hM : FaultsOnly P s.artificialCost) (hc : ∀ c, s.artificialCost = .ok c → |c.val| ≤ B) :
    FaultsOnly P (s.run solve) := by
  have hs₁ : ∀ {s₁}, StartRun s.renewed (.ok ()) s₁ → Bounded g B s₁ := fun h₁ =>
    bounded_of_start (s := s.renewed) hg hf.pos hin hz h₁
  have hs₂ : ∀ {s₁ s₂ k}, StartRun s.renewed (.ok ()) s₁ → OptimizeRun s₁ (.ok k) s₂ →
      Bounded g B s₂ ∧ s₂.phase = .initial ∧ s₂.artificialCost = s.artificialCost := by
    intro s₁ s₂ k h₁ h₂
    obtain ⟨-, hphase, hcost, -⟩ := basic_of_firstPhase hg hin hz h₁ h₂
    exact ⟨(hs₁ h₁).optimize hg h₂, hphase, hcost⟩
  refine Simplex.faultsOnly_solve (faultsOnly_start_of_fits hg hin hz hf hs hid)
    (fun h₁ => (hs₁ h₁).faultsOnly_optimize hf) (fun h₁ h₂ => ?_) fun h₁ h₂ h₃ => ?_
  · obtain ⟨hs₂, hphase, hM₂⟩ := hs₂ h₁ h₂
    exact ⟨faultsOnly_checkStart fun _ => .of_ok (artificialLoads_eq hs₂.toSound hphase hs₂.exact),
      hs₂.faultsOnly_restoreCosts hf hg hcost (hM₂ ▸ hM) (hM₂ ▸ hc)⟩
  · obtain ⟨hs₂, -, hM₂⟩ := hs₂ h₁ h₂
    exact (hs₂.restore hg hcost (hM₂ ▸ hc) h₃).faultsOnly_optimize hf

/-- With moderate weights and costs, enough numbers for arcs and the default artificial cost, a solver without a
tolerance always comes to an end, whatever its pricing rule and its limit on pivots are: no step of arithmetic
overflows. If costs are moderate, there is a vertex, and the number type holds one more than there are. -/
theorem solve_total (b : Builder (Signed max)) (hin : s.input = b.network) (hz : s.options.zero = Amount.zero)
    (hM : s.options.artificialCost = none)
    (hcost : b.network.maxAbsCost < max / (b.numVertices + 1) / b.numVertices)
    (hdemand : b.network.totalDemand ≤ max) (hsupply : b.network.totalSupply ≤ max)
    (hids : b.numArcs + b.numVertices ≤ idLimit) : ∃ r s', s.run solve = .ok (r, s') := by
  have hg := wellFormed_network b
  rw [← numVertices_network] at hcost
  rw [← numVertices_network, ← numArcs_network] at hids
  obtain ⟨hn, -, hone, hle⟩ := bounds_of_moderate hcost
  have hf : b.network.Fits ((b.network.numVertices * (1 + b.network.maxAbsCost) : Nat) : Int) := by
    refine ⟨by omega, ?_, hdemand⟩
    norm_cast
    omega
  have hdefault : s.artificialCost = b.network.defaultArtificialCost := by
    simp only [artificialCost, hM, hin]
  have hz : s.options.zero.val = 0 := by rw [hz]; rfl
  obtain ⟨⟨r, s'⟩, h⟩ := FaultsOnly.exists_ok (faultsOnly_solve_of_fits hg hin hz hf hsupply hids (by omega)
    (hdefault ▸ faultsOnly_defaultArtificialCost hcost) fun c hc => by
      rw [val_of_moderate hcost (hdefault ▸ hc), abs_of_nonneg (by omega)])
  exact ⟨r, s', h⟩

theorem solve_total_of_relay :
    (new Builder.relay.network).input = Builder.relay.network ∧
    (new Builder.relay.network).options.zero = Amount.zero ∧
    (new Builder.relay.network).options.artificialCost = none ∧
    Builder.relay.network.maxAbsCost < 127 / (Builder.relay.numVertices + 1) / Builder.relay.numVertices ∧
    Builder.relay.network.totalDemand ≤ (127 : Nat) ∧ Builder.relay.network.totalSupply ≤ (127 : Nat) ∧
    Builder.relay.numArcs + Builder.relay.numVertices ≤ idLimit ∧
    ∃ r s', (new Builder.relay.network).run solve = .ok (r, s') := by
  have hcost : Builder.relay.network.maxAbsCost < 127 / (Builder.relay.numVertices + 1) / Builder.relay.numVertices := by
    decide +kernel
  have hdemand : Builder.relay.network.totalDemand ≤ (127 : Nat) := by decide +kernel
  have hsupply : Builder.relay.network.totalSupply ≤ (127 : Nat) := by decide +kernel
  have hids : Builder.relay.numArcs + Builder.relay.numVertices ≤ idLimit := by decide +kernel
  exact ⟨rfl, rfl, rfl, hcost, hdemand, hsupply, hids, solve_total Builder.relay rfl rfl rfl hcost hdemand hsupply hids⟩

end Simplex

end Transportation
