import Transportation.Proofs.Network.Cost
import Transportation.Proofs.Network.Duality
import Transportation.Proofs.Network.Gap
/-!
# Potentials that show a flow to be cheapest

Potentials that grow along no arc by more than its cost, and by exactly its cost where the arc carries flow, show that no
feasible flow costs less (`Certifies.costOf_le`). There are then also such potentials of which no two differ by more than
`n - 1` times the largest cost (`Certifies.exists_narrow`).
-/

namespace Transportation.Network

variable {max : Nat} {g : Network (Signed max)} {p : VertexId → Int} {y : ArcId → Int}

/-- The potentials `p` show that the flow `y` costs no more than any other that meets the weights of `g`. -/
structure Certifies (g : Network (Signed max)) (p : VertexId → Int) (y : ArcId → Int) : Prop where
  under : ∀ a ∈ g.realArcs, p a.snk - p a.src ≤ a.cost.val
  slack : ∀ a ∈ g.realArcs, y a.id ≠ 0 → p a.snk - p a.src = a.cost.val

theorem Certifies.costOf_eq (h : g.Certifies p y) (hy : g.Feasible y) (hg : g.Numbered) :
    g.costOf y = g.worth p := by
  rw [← Int.cast_id (n := g.worth p), hy.worth_eq hg, costOf]
  congr 1
  refine List.map_congr_left fun a ha => ?_
  simp only [Int.cast_id]
  by_cases h0 : y a.id = 0
  · rw [h0, mul_zero, mul_zero]
  · rw [h.slack a ha h0]

theorem Certifies.costOf_le (h : g.Certifies p y) (hy : g.Feasible y) (hg : g.Numbered) {R : Type} [CommRing R]
    [LinearOrder R] [IsStrictOrderedRing R] {z : ArcId → R} (hz : g.Feasible z) : ((g.costOf y : Int) : R) ≤ g.costOf z := by
  rw [h.costOf_eq hy hg]
  exact weak_duality hg hz h.under

/-- The gaps between the potentials may be narrowed to the largest cost, since arcs that carry flow lead across none. -/
theorem Certifies.exists_narrow (h : g.Certifies p y) (hg : g.Numbered) :
    ∃ q, g.Certifies q y ∧ ∀ u ∈ g.vertexSet, ∀ v ∈ g.vertexSet,
      q v - q u ≤ ((g.numVertices : Int) - 1) * g.maxAbsCost := by
  obtain ⟨q, hq⟩ := exists_narrowed g.vertexSet p (c := g.maxAbsCost) (by omega)
  rw [card_vertexSet] at hq
  have hbound : ∀ a ∈ g.realArcs, a.cost.val.natAbs ≤ g.maxAbsCost ∧ a.src ∈ g.vertexSet ∧ a.snk ∈ g.vertexSet := by
    intro a ha
    have ha := (List.mem_filter.1 ha).1
    exact ⟨natAbs_le_maxAbsCost ha, hg.ends_mem rfl ha⟩
  refine ⟨q, ⟨fun a ha => ?_, fun a ha h0 => ?_⟩, fun u hu v hv => ?_⟩
  · obtain ⟨hcost, hsrc, hsnk⟩ := hbound a ha
    have hunder := h.under a ha
    rcases le_total (p a.src) (p a.snk) with hle | hle
    · have := (hq _ hsrc _ hsnk hle).2.1 (by omega)
      omega
    -- Where the potential falls by more than the largest cost, it still falls by as much.
    · obtain ⟨-, hkeep, hfall⟩ := hq _ hsnk _ hsrc hle
      by_cases hgap : p a.src - p a.snk ≤ g.maxAbsCost
      · have := hkeep hgap
        omega
      · have := hfall (by omega)
        omega
  · obtain ⟨hcost, hsrc, hsnk⟩ := hbound a ha
    have hslack := h.slack a ha h0
    rcases le_total (p a.src) (p a.snk) with hle | hle
    · have := (hq _ hsrc _ hsnk hle).2.1 (by omega)
      omega
    · have := (hq _ hsnk _ hsrc hle).2.1 (by omega)
      omega
  · have hpos : 0 < g.numVertices := Nat.zero_lt_of_lt (mem_vertexSet_iff.1 hu)
    have hbound0 : 0 ≤ ((g.numVertices : Int) - 1) * g.maxAbsCost := Int.mul_nonneg (by omega) (by omega)
    rcases le_total (p u) (p v) with hle | hle
    · exact (hq u hu v hv hle).1
    · obtain ⟨-, hkeep, hfall⟩ := hq v hv u hu hle
      by_cases hgap : p u - p v ≤ g.maxAbsCost
      · have := hkeep hgap
        omega
      · have := hfall (by omega)
        omega

end Transportation.Network
