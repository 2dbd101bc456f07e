import Mathlib.Algebra.Order.BigOperators.Group.List
import Mathlib.Algebra.Order.Ring.Cast
import Transportation.Proofs.Network.Flow
/-!
# Feasible flows

A flow is feasible for an instance if it meets all weights by flow along the real arcs that is not negative. Its
cost is at least the value of any potentials that along no arc grow by more than its cost (`weak_duality`).
-/

namespace Transportation.Network

variable {max : Nat} {R : Type} [CommRing R] [LinearOrder R] [IsStrictOrderedRing R]
  {g : Network (Signed max)} {y : ArcId → R}

/-- The flow `y`, given by the numbers of arcs, meets all weights of `g`. -/
structure Feasible (g : Network (Signed max)) (y : ArcId → R) : Prop where
  nonneg : ∀ a ∈ g.realArcs, 0 ≤ y a.id
  meets : ∀ v : VertexId, v.index < g.numVertices → netFlow g.realArcs (fun a => y a.id) v = (g.weightAt v : R)

omit [IsStrictOrderedRing R] in
theorem feasible_iff : g.Feasible y ↔ (∀ a ∈ g.realArcs, 0 ≤ y a.id) ∧
    ∀ v ∈ g.vertexIds, netFlow g.realArcs (fun a => y a.id) v = (g.weightAt v : R) := by
  constructor
  · exact fun h => ⟨h.nonneg, fun v hv => h.meets v (mem_vertexIds_iff.1 hv)⟩
  · exact fun h => ⟨h.1, fun v hv => h.2 v (mem_vertexIds_iff.2 hv)⟩

instance : Decidable (g.Feasible y) :=
  decidable_of_iff _ feasible_iff.symm

/-- The cost of the flow `y` on the real arcs. -/
def costOf {R : Type} [CommRing R] (g : Network (Signed max)) (y : ArcId → R) : R :=
  (g.realArcs.map fun a => (a.cost.val : R) * y a.id).sum

/-- What the weights are worth at the potentials `p`. -/
def worth (g : Network (Signed max)) (p : VertexId → Int) : Int :=
  ∑ v ∈ g.vertexSet, p v * g.weightAt v

omit [IsStrictOrderedRing R] in
/-- What the weights are worth is what a feasible flow gains along the real arcs. -/
theorem Feasible.worth_eq (hy : g.Feasible y) (hg : g.Numbered) (p : VertexId → Int) :
    (g.worth p : R) = (g.realArcs.map fun a => ((p a.snk : R) - p a.src) * y a.id).sum := by
  calc (g.worth p : R) = ∑ v ∈ g.vertexSet, (p v : R) * netFlow g.realArcs (fun a => y a.id) v := by
        rw [worth, Int.cast_sum]
        refine Finset.sum_congr rfl fun v hv => ?_
        rw [Int.cast_mul, hy.meets v (mem_vertexSet_iff.1 hv)]
    _ = (g.realArcs.map fun a => ((p a.snk : R) - p a.src) * y a.id).sum :=
        sum_mul_netFlow fun a ha => hg.ends_mem rfl (List.mem_filter.1 ha).1

/-- If potentials along no real arc grow by more than the cost `c` of the arc, no feasible flow costs less than the
weights are worth. -/
theorem weak_duality (hg : g.Numbered) (hy : g.Feasible y) {p : VertexId → Int} {c : Arc (Signed max) → Int}
    (hp : ∀ a ∈ g.realArcs, p a.snk - p a.src ≤ c a) :
    (g.worth p : R) ≤ (g.realArcs.map fun a => (c a : R) * y a.id).sum := by
  rw [hy.worth_eq hg]
  refine List.sum_le_sum fun a ha => mul_le_mul_of_nonneg_right ?_ (hy.nonneg a ha)
  exact_mod_cast hp a ha

/-- At potentials that grow along no real arc the weights are worth nothing if there is a feasible flow. -/
theorem Feasible.worth_nonpos (hy : g.Feasible y) (hg : g.Numbered) {p : VertexId → Int}
    (hp : ∀ a ∈ g.realArcs, p a.snk ≤ p a.src) : g.worth p ≤ 0 := by
  have hle := weak_duality hg hy (c := fun _ => 0) fun a ha => Int.sub_nonpos_of_le (hp a ha)
  simp only [Int.cast_zero, zero_mul, List.map_const', List.sum_replicate, nsmul_zero] at hle
  exact_mod_cast hle

/-- A feasible flow of integers is one of any numbers. -/
theorem Feasible.cast {y : ArcId → Int} (hy : g.Feasible y) : g.Feasible fun a => (y a : R) := by
  refine ⟨fun a ha => by exact_mod_cast hy.nonneg a ha, fun v hv => ?_⟩
  have hmeets := hy.meets v hv
  rw [Int.cast_id] at hmeets
  rw [← hmeets, netFlow, netFlow, Int.cast_list_sum, List.map_map]
  congr 1
  refine List.map_congr_left fun a _ => ?_
  simp only [Arc.brings, Function.comp_def, Int.cast_sub, Int.cast_ite, Int.cast_zero]

end Transportation.Network
