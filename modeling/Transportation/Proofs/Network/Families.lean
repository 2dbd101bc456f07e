import Mathlib.Algebra.BigOperators.Fin
import Transportation.Network.Families
import Transportation.Proofs.Network.Building
import Transportation.Proofs.Network.Duality
/-!
# Networks built from lists

From lists of weights and links a network is built if there are numbers for its vertices and arcs, with room for one
artificial arc for each vertex (`Builder.build_eq`). Flows on such a network are given link by link, and what they bring
to a vertex is summed up over the links (`Builder.netFlow_flowOf`).
-/

namespace Transportation

theorem sum_map_range {R : Type} [AddCommMonoid R] (n : Nat) (f : Nat → R) :
    ((List.range n).map f).sum = ∑ i ∈ Finset.range n, f i := rfl

namespace Builder

section
variable {F : Type} {weights : List F} {links : List (Link F)}

/-- Arcs are taken as long as there is room left for one artificial arc for each vertex. -/
theorem addArcs_eq (b : Builder F) (h : ∀ l ∈ links, l.Joins b.numVertices) : b.addArcs links =
    if links = [] ∨ b.numArcs + b.numVertices + links.length < idLimit then .ok (b.withLinks links h)
    else .error .arcCapacity := by
  induction links generalizing b with
  | nil =>
    rw [withLinks_nil]
    rfl
  | cons l links ih =>
    obtain ⟨hl, hlinks⟩ := List.forall_mem_cons.1 h
    unfold addArcs at ih ⊢
    rw [List.foldlM_cons, addArc_eq b hl]
    by_cases hfit : b.numArcs + b.numVertices + 1 < idLimit
    · rw [if_pos hfit, Checked.ok_bind]
      have hone : ∀ l' ∈ [l], l'.Joins b.numVertices := List.forall_mem_singleton.2 hl
      show links.foldlM _ (b.withLinks [l] hone) = _
      rw [ih (b.withLinks [l] hone) hlinks, withLinks_cons hone h]
      simp only [numArcs_withLinks, numVertices_withLinks, List.length_cons, List.length_nil, reduceCtorEq, false_or]
      by_cases hnil : links = []
      · subst hnil
        rw [if_pos (.inl rfl)]
        exact (if_pos hfit).symm
      · simp only [hnil, false_or]
        rw [show b.numArcs + (0 + 1) + b.numVertices + links.length = b.numArcs + b.numVertices + (links.length + 1) by
          omega]
    · rw [if_neg hfit, if_neg (by simp only [List.length_cons, reduceCtorEq, false_or]; omega)]
      rfl

/-- The builder of the given weights and links. -/
def ofLists (weights : List F) (links : List (Link F)) (h : ∀ l ∈ links, l.Joins weights.length) : Builder F where
  name := ""
  weights := weights.toArray
  links := links.toArray
  joins l hl := h l (by simpa using hl)

theorem build_eq [Amount F] (h : ∀ l ∈ links, l.Joins weights.length) : build weights links =
    if weights = [] ∨ weights.length < idLimit then
      if links = [] ∨ weights.length + links.length < idLimit then .ok (ofLists weights links h).network
      else .error .arcCapacity
    else .error .vertexCapacity := by
  unfold build
  rw [addVertices_eq]
  simp only [numVertices_empty, Nat.zero_add]
  by_cases hw : weights = [] ∨ weights.length < idLimit
  · have hjoins : ∀ l ∈ links, l.Joins ((empty : Builder F).withWeights weights).numVertices := by simpa using h
    rw [if_pos hw, if_pos hw, Checked.ok_bind]
    simp only [addArcs_eq _ hjoins, numArcs_withWeights, numVertices_withWeights, numArcs_empty, numVertices_empty,
      Nat.zero_add]
    split
    · have heq : ((empty : Builder F).withWeights weights).withLinks links hjoins = ofLists weights links h :=
        eq_of_fields rfl (by simp [withLinks, withWeights, empty, ofLists])
          (by simp [withLinks, withWeights, empty, ofLists])
      rw [heq]
      rfl
    · rfl
  · rw [if_neg hw, if_neg hw]
    rfl

end

/-! ## Flows along links -/

section
variable {F R : Type} [Amount F] [CommRing R] (b : Builder F) (f : Link F → R)

/-- The flow that the arc numbered `a` carries if each link carries as much as `f` says. -/
def flowOf (a : ArcId) : R :=
  (b.links[a.index]?.map f).getD 0

theorem map_flowOf {β : Type} (k : VertexId → VertexId → F → R → β) :
    (b.network.realArcs.map fun a => k a.src a.snk a.cost (b.flowOf f a.id)) =
      b.links.toList.map fun l => k l.src l.snk l.cost (f l) := by
  rw [Network.realArcs_network]
  refine List.ext_getElem (by simp [network]) fun i hi _ => ?_
  have hi : i < b.links.size := by simpa [network] using hi
  simp [network, arc, flowOf, hi]

/-- What the links bring to a vertex. -/
theorem netFlow_flowOf (v : VertexId) : netFlow b.network.realArcs (fun a => b.flowOf f a.id) v =
    (b.links.toList.map fun l => (if l.snk = v then f l else 0) - if l.src = v then f l else 0).sum := by
  unfold netFlow Arc.brings
  rw [b.map_flowOf f fun src snk _ x => (if snk = v then x else 0) - if src = v then x else 0]

end

section
variable {max : Nat} [NeZero max] {R : Type} [CommRing R] [LinearOrder R] (b : Builder (Signed max))

theorem weightAt_network (v : VertexId) :
    b.network.weightAt v = ((b.weights.toList.map Signed.val)[v.index]?).getD 0 := by
  rw [Network.weightAt, Network.getElem?_network_vertices, List.getElem?_map, Array.getElem?_toList]
  cases b.weights[v.index]? <;> rfl

/-- A flow along links is feasible if no link carries less than nothing and the links bring each vertex its weight. -/
theorem feasible_flowOf {f : Link (Signed max) → R} (hf : ∀ l ∈ b.links.toList, 0 ≤ f l)
    (hmeets : ∀ v < b.numVertices,
      (b.links.toList.map fun l => (if l.snk.index = v then f l else 0) - if l.src.index = v then f l else 0).sum =
        (((b.weights.toList.map Signed.val)[v]?.getD 0 : Int) : R)) : b.network.Feasible (b.flowOf f) where
  nonneg := by
    have hmap := b.map_flowOf f fun _ _ _ x => x
    intro a ha
    have hmem : b.flowOf f a.id ∈ b.links.toList.map f := hmap ▸ List.mem_map_of_mem ha
    obtain ⟨l, hl, he⟩ := List.mem_map.1 hmem
    exact he ▸ hf l hl
  meets v hv := by
    rw [Network.numVertices_network] at hv
    rw [netFlow_flowOf, weightAt_network, ← hmeets v.index hv]
    congr 1
    refine List.map_congr_left fun l _ => ?_
    have hiff : ∀ u : VertexId, u = v ↔ u.index = v.index := fun u => ⟨congrArg _, VertexId.ext⟩
    simp only [hiff]

end

end Builder

end Transportation
