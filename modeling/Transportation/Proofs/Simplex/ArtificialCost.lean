import Transportation.Proofs.Simplex.History
import Transportation.Proofs.Simplex.Overflow
import Transportation.Proofs.Simplex.SecondPhase
/-!
# When there is a default artificial cost

Two steps of computing the default artificial cost can overflow, and the others cannot
(`fault_of_defaultArtificialCost`): the least amount has no opposite, and there may be no amount for one more than the
count of vertices. Otherwise the cost is positive and at most the cap. So the second phase begins with artificial arcs
of such a cost, or it faults with one of these overflows (`artificialCost_of_reachable`).
-/

namespace Transportation

open Checked

variable {max : Nat} [NeZero max]

theorem Signed.faultsOnly_abs_neg (a : Signed max) : FaultsOnly (· = .overflow .neg) (Amount.abs a) := by
  intro e he
  change (if a.val < 0 then checked .neg (-a.val) else pure a) = .error e at he
  split at he
  · unfold checked at he
    split at he <;> cases he
    rfl
  · cases he

namespace Network

variable {g : Network (Signed max)} {M : Signed max} {e : Fault}

/-- The costs are looked at without their sign. -/
theorem fault_of_largestCost (h : g.largestCost = .error e) : e = .overflow .neg := by
  have honly : FaultsOnly (· = .overflow .neg) g.largestCost :=
    .foldlM fun _ a _ _ _ _ => .bind (Signed.faultsOnly_abs_neg a.cost) fun _ _ => .pure _
  exact honly e h

theorem exists_largestCost_iff : (∃ v, g.largestCost = .ok v) ↔ ∀ a ∈ g.arcs.toList, -(max : Int) ≤ a.cost.val := by
  constructor
  · rintro ⟨v, hv⟩ a ha
    have := val_of_largestCost hv
    have := natAbs_le_maxAbsCost ha
    have := v.upper
    omega
  · exact fun h => FaultsOnly.exists_ok (faultsOnly_largestCost h)

theorem exists_defaultArtificialCost_iff : (∃ M, g.defaultArtificialCost = .ok M) ↔
    (∀ a ∈ g.arcs.toList, -(max : Int) ≤ a.cost.val) ∧ g.heldCount < max := by
  constructor
  · rintro ⟨M, hM⟩
    obtain ⟨hcosts, hcount⟩ := bounds_of_defaultArtificialCost hM
    rw [val_ofCount_getD] at hcount
    exact ⟨hcosts, by omega⟩
  · rintro ⟨hcosts, hcount⟩
    refine FaultsOnly.exists_ok (faultsOnly_defaultArtificialCost_of_count hcosts rfl ?_)
    rw [val_ofCount_getD]
    omega

/-- Only the opposite of a cost and one more than the count of vertices can overflow. -/
theorem fault_of_defaultArtificialCost (h : g.defaultArtificialCost = .error e) :
    (e = .overflow .neg ∧ ¬ ∀ a ∈ g.arcs.toList, -(max : Int) ≤ a.cost.val) ∨
      (e = .overflow .add ∧ max ≤ g.heldCount) := by
  by_cases hcosts : ∀ a ∈ g.arcs.toList, -(max : Int) ≤ a.cost.val
  · have hcount : max ≤ g.heldCount := by
      by_contra hlt
      obtain ⟨M, hM⟩ := exists_defaultArtificialCost_iff.2 ⟨hcosts, Nat.not_le.1 hlt⟩
      rw [hM] at h
      cases h
    obtain ⟨v, hv⟩ := exists_largestCost_iff.2 hcosts
    have hadd : Amount.add ((Amount.ofCount? (Max.max g.numVertices 1)).getD Amount.one : Signed max) Amount.one =
        .error (.overflow .add) := by
      refine dif_neg fun hrange => ?_
      have hupper := hrange.2
      rw [val_ofCount_getD, Signed.one_val] at hupper
      omega
    unfold defaultArtificialCost at h
    rw [hv, Checked.ok_bind] at h
    simp only [hadd] at h
    cases h
    exact .inr ⟨rfl, hcount⟩
  · cases hv : g.largestCost with
    | ok v => exact absurd (exists_largestCost_iff.1 ⟨v, hv⟩) hcosts
    | error e' =>
      unfold defaultArtificialCost at h
      rw [hv] at h
      cases h
      exact .inl ⟨fault_of_largestCost hv, hcosts⟩

/-- A cap that is an amount is positive, and so is what is capped. -/
theorem bounds_of_heldCount (h : g.defaultArtificialCost = .ok M) :
    0 < M.val ∧ M.val ≤ ((max / (g.heldCount + 1) : Nat) : Int) := by
  obtain ⟨-, hcount⟩ := exists_defaultArtificialCost_iff.1 ⟨M, h⟩
  have hcap : 0 < max / (g.heldCount + 1) := Nat.div_pos hcount (Nat.succ_pos _)
  have hcost : 0 < g.heldCount * (g.maxAbsCost + 1) := Nat.mul_pos g.heldCount_pos (Nat.succ_pos _)
  rw [val_eq_min h]
  exact ⟨by exact_mod_cast lt_min hcap hcost, by exact_mod_cast min_le_left _ _⟩

end Network

/-- A builder of an instance with an arc of the least cost there is. -/
def Builder.abyss : Builder Signed8 where
  name := "abyss"
  weights := #[.minusOne, .one]
  links := #[⟨⟨0⟩, ⟨1⟩, ⟨-128, by decide, by decide⟩⟩]
  joins l hl := by
    obtain rfl : l = _ := by simpa using hl
    exact ⟨by decide, by decide, by decide⟩

namespace Simplex

open Network

variable {s : Simplex (Signed max)}

/-- With a cost for them, artificial arcs of the tree get it, and then only the potentials are left to be computed. -/
theorem Sound.exists_restoreCosts {g : Network (Signed max)} (hs : Sound g s) (hg : g.WellFormed)
    (hphase : s.phase ≠ .setup) {M : Signed max} (hM : s.artificialCost = .ok M) :
    ∃ h, g.restore M s.solution = .ok h ∧ h.Charges M ∧
      s.run restoreCosts = run { s with solution := h, phase := .optimal } updatePotentials := by
  obtain ⟨h, hrestore⟩ := exists_restore hg hs.wellFormed hs.base M
  refine ⟨h, hrestore, charges_restore hrestore, ?_⟩
  rw [run_restoreCosts, if_neg hphase, hM, Checked.ok_bind, hs.input, hrestore]
  rfl

/-- In every state with a tree of a solver of an instance with vertices, the default artificial cost exists if and only
if no cost is the least amount there is and the count of vertices is less than the largest. The count is that of the
instance, or one if the number type does not hold that. The cost is then positive and at most the cap, and it is that of
the artificial arcs in the tree when the second phase begins. Otherwise the second phase does not begin but faults. -/
theorem artificialCost_of_reachable (b : Builder (Signed max)) (hn : 0 < b.numVertices)
    (h : Reachable (fun _ => True) b.network s) (hphase : s.phase ≠ .setup) (hM : s.options.artificialCost = none) :
    let n := if b.numVertices ≤ max then b.numVertices else 1
    ((∃ M, s.artificialCost = .ok M) ↔ (∀ l ∈ b.links, -(max : Int) ≤ l.cost.val) ∧ n < max) ∧
    (∀ M, s.artificialCost = .ok M →
      (0 < M.val ∧ M.val ≤ ((max / (n + 1) : Nat) : Int) ∧
        M.val = ((min (max / (n + 1)) (n * (b.network.maxAbsCost + 1)) : Nat) : Int)) ∧
      ∃ h, b.network.restore M s.solution = .ok h ∧ h.Charges M ∧
        s.run restoreCosts = run { s with solution := h, phase := .optimal } updatePotentials) ∧
    ∀ e, s.artificialCost = .error e → s.run restoreCosts = .error e ∧
      ((e = .overflow .neg ∧ ∃ l ∈ b.links, l.cost.val < -(max : Int)) ∨ (e = .overflow .add ∧ max ≤ n)) := by
  intro n
  have hg := wellFormed_network b
  have hs := sound_of_reachable hg h
  have hdefault : s.artificialCost = b.network.defaultArtificialCost := by
    simp only [artificialCost, hM, hs.input]
  have hcount : b.network.heldCount = n := by
    rw [heldCount, numVertices_network, Nat.max_eq_left hn]
  have hcosts : (∀ a ∈ b.network.arcs.toList, -(max : Int) ≤ a.cost.val) ↔
      ∀ l ∈ b.links, -(max : Int) ≤ l.cost.val := by
    have hmap := congrArg (fun l => ∀ x ∈ l, -(max : Int) ≤ x.cost.val) (map_link_network b)
    simpa using hmap
  refine ⟨?_, fun M hM => ⟨?_, hs.exists_restoreCosts hg hphase hM⟩, fun e he => ⟨?_, ?_⟩⟩
  · rw [hdefault, exists_defaultArtificialCost_iff, hcount, hcosts]
  · rw [hdefault] at hM
    obtain ⟨hpos, hle⟩ := bounds_of_heldCount hM
    rw [hcount] at hle
    exact ⟨hpos, hle, hcount ▸ val_eq_min hM⟩
  · rw [run_restoreCosts, if_neg hphase, he]
    rfl
  · rw [hdefault] at he
    rcases fault_of_defaultArtificialCost he with ⟨rfl, hleast⟩ | ⟨rfl, hle⟩
    · rw [hcosts] at hleast
      exact .inl ⟨rfl, by simpa using hleast⟩
    · exact .inr ⟨rfl, hcount ▸ hle⟩

/-- On the way from supply to demand over a relay artificial arcs cost three times three. -/
theorem artificialCost_of_relay : ∃ s : Simplex Signed8,
    0 < Builder.relay.numVertices ∧ Reachable (fun _ => True) Builder.relay.network s ∧ s.phase ≠ .setup ∧
    s.options.artificialCost = none ∧ s.artificialCost = .ok (.ofNat 9 (by decide)) ∧
    (0 < (Signed.ofNat 9 (by decide) : Signed8).val ∧
      (Signed.ofNat 9 (by decide) : Signed8).val ≤ ((127 / (3 + 1) : Nat) : Int) ∧
      (Signed.ofNat 9 (by decide) : Signed8).val =
        ((min (127 / (3 + 1)) (3 * (Builder.relay.network.maxAbsCost + 1)) : Nat) : Int)) ∧
    ∃ h, Builder.relay.network.restore (.ofNat 9 (by decide)) s.solution = .ok h ∧ h.Charges (.ofNat 9 (by decide)) ∧
      s.run restoreCosts = run { s with solution := h, phase := .optimal } updatePotentials := by
  have hrun : (new Builder.relay.network).run start = .ok (.ok (), (new Builder.relay.network).after start) := by
    decide +kernel
  have hreach : Reachable (fun _ => True) Builder.relay.network ((new Builder.relay.network).after start) :=
    .start .new hrun
  have hphase : ((new Builder.relay.network).after start).phase ≠ .setup := by decide +kernel
  have hM : ((new Builder.relay.network).after start).options.artificialCost = none := by decide +kernel
  have hcost : ((new Builder.relay.network).after start).artificialCost = .ok (.ofNat 9 (by decide)) := by
    decide +kernel
  have hn : 0 < Builder.relay.numVertices := by decide
  exact ⟨_, hn, hreach, hphase, hM, hcost, (artificialCost_of_reachable Builder.relay hn hreach hphase hM).2.1 _ hcost⟩

/-- An arc of the least cost there is keeps the second phase from beginning. -/
theorem artificialCost_of_abyss : ∃ s : Simplex Signed8,
    Reachable (fun _ => True) Builder.abyss.network s ∧ 0 < Builder.abyss.numVertices ∧ s.phase ≠ .setup ∧
      s.options.artificialCost = none ∧ s.artificialCost = .error (.overflow .neg) ∧
      s.run restoreCosts = .error (.overflow .neg) := by
  have hrun : (new Builder.abyss.network).run start = .ok (.ok (), (new Builder.abyss.network).after start) := by
    decide +kernel
  exact ⟨_, .start .new hrun, by decide, by decide +kernel, by decide +kernel, by decide +kernel, by decide +kernel⟩

end Simplex

end Transportation
