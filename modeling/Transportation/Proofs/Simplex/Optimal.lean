import Transportation.Proofs.Network.Duality
import Transportation.Proofs.Simplex.Entering
import Transportation.Proofs.Simplex.Tolerance
/-!
# Optimal trees

When no arc may enter, the potentials grow along no arc by more than its cost, and along the arcs that carry flow
they grow by exactly that. So the cost of the flow is what the weights are worth at these potentials, and no feasible
flow costs less. In the first phase, where only artificial arcs cost anything, it follows that none of them carries
flow if there is a feasible flow at all.
-/

namespace Transportation

variable {max : Nat}

namespace Network

variable {g h : Network (Signed max)}

/-- The flow on the arc `a`. -/
def flowAt (h : Network (Signed max)) (a : ArcId) : Int :=
  (h.arcs[a.index]?.map fun x => x.flow.val).getD 0

theorem flowAt_eq {i : Nat} {x : Arc (Signed max)} (hx : h.arcs[i]? = some x) : h.flowAt ⟨i⟩ = x.flow.val := by
  simp [flowAt, hx]

/-- The real arcs of a working copy are those of the instance, one by one. -/
theorem map_realArcs_eq {β : Type} (e : h.base = g.base) (hg : g.WellFormed) (hh : h.WellFormed)
    {f f' : Arc (Signed max) → β}
    (hf : ∀ {i : Nat} {a x : Arc (Signed max)}, g.arcs[i]? = some a → h.arcs[i]? = some x → a.kind = .real →
      x.frame = a.frame → f a = f' x) : g.realArcs.map f = h.realArcs.map f' := by
  refine List.ext_getElem? fun i => ?_
  have e : h.realArcs[i]?.map Arc.frame = g.realArcs[i]?.map Arc.frame := by
    simpa [base] using congrArg (·.2.2.2[i]?) e
  rw [List.getElem?_map, List.getElem?_map]
  cases hx : h.realArcs[i]? with
  | none =>
    rw [hx] at e
    rw [Option.map_eq_none_iff.1 e.symm]
    rfl
  | some x =>
    rw [hx] at e
    obtain ⟨a, ha, hax⟩ := Option.map_eq_some_iff.1 e.symm
    obtain ⟨ha', hk⟩ := hg.getElem?_realArcs.1 ha
    rw [ha, Option.map_some, Option.map_some, hf ha' (hh.getElem?_realArcs.1 hx).1 hk hax.symm]

/-- A sum over all arcs is one over the real arcs if artificial arcs add nothing. -/
theorem sum_realArcs (hh : h.WellFormed) {f : Arc (Signed max) → Int} (hf : ∀ x ∈ h.artificialArcs, f x = 0) :
    (h.realArcs.map f).sum = (h.arcs.toList.map f).sum := by
  rw [hh.toList_eq, List.map_append, List.sum_append, List.sum_eq_zero (l := h.artificialArcs.map f), add_zero]
  intro y hy
  obtain ⟨x, hx, rfl⟩ := List.mem_map.1 hy
  exact hf x hx

/-- A basic flow without flow on artificial arcs is feasible. -/
theorem BasicFlow.feasible (hf : BasicFlow g h) (e : h.base = g.base) (hg : g.WellFormed) (hh : h.WellFormed)
    (hart : ∀ x ∈ h.artificialArcs, x.flow.val = 0) : g.Feasible h.flowAt := by
  refine ⟨fun a ha => ?_, fun v hv => ?_⟩
  · unfold flowAt
    cases hx : h.arcs[a.id.index]? with
    | none => exact le_refl _
    | some x => exact hf.nonneg hx
  · rw [Int.cast_id, ← hf.meets hv, net, netFlow, netFlow, ← sum_realArcs hh fun x hx => by
      rw [hart x hx, Arc.brings_zero]]
    congr 1
    refine map_realArcs_eq e hg hh fun {i a x} ha hx _ hframe => ?_
    obtain ⟨-, hsrc, hsnk, -⟩ := Arc.frame_eq_iff.1 hframe
    rw [hg.arc_id ha, flowAt_eq hx, Arc.brings_congr hsrc hsnk]

/-- What the weights are worth is what the flow gains along the arcs. -/
theorem BasicFlow.worth_eq (hf : BasicFlow g h) (hh : h.Numbered) (hn : h.numVertices = g.numVertices)
    (p : VertexId → Int) : g.worth p = (h.arcs.toList.map fun x => (p x.snk - p x.src) * x.flow.val).sum := by
  calc g.worth p = ∑ v ∈ g.vertexSet, p v * h.net v := by
        refine Finset.sum_congr rfl fun v hv => ?_
        rw [hf.meets (mem_vertexSet_iff.1 hv)]
    _ = (h.arcs.toList.map fun x => (p x.snk - p x.src) * x.flow.val).sum := sum_mul_netFlow fun x hx => hh.ends_mem hn hx

/-- Arcs outside the tree cost nothing, so the value is the cost of all arcs. -/
theorem BasicFlow.val_of_value [NeZero max] (hf : BasicFlow g h) {v : Signed max} (hv : h.value = .ok v) :
    v.val = (h.arcs.toList.map fun x => x.cost.val * x.flow.val).sum := by
  rw [Network.val_of_value hv, treeArcs]
  refine sum_map_filter Arc.inTree fun x hx hxt => ?_
  obtain ⟨i, hi⟩ := mem_arcs_iff.1 hx
  rw [hf.idle hi hxt, mul_zero]

/-- At tight potentials a basic flow costs what the weights are worth. -/
theorem BasicFlow.cost_eq (hf : BasicFlow g h) (ht : h.Tight) (hh : h.Numbered) (hn : h.numVertices = g.numVertices) :
    (h.arcs.toList.map fun x => x.cost.val * x.flow.val).sum = g.worth h.potential := by
  rw [hf.worth_eq hh hn]
  congr 1
  refine List.map_congr_left fun x hx => ?_
  cases hxt : x.inTree with
  | false =>
    obtain ⟨i, hi⟩ := mem_arcs_iff.1 hx
    rw [hf.idle hi hxt, mul_zero, mul_zero]
  | true =>
    rw [ht x (mem_treeArcs_iff.2 ⟨hx, hxt⟩)]
    ring

end Network

namespace Simplex

open Network

variable [NeZero max] {g : Network (Signed max)} {s s' : Simplex (Signed max)}

/-! ## When no arc may enter -/

theorem reducedCost_nonneg (hs : s.options.zero.val = 0) {cursor : Nat} (hp : s.price = .ok (none, cursor)) {i : Nat}
    {x : Arc (Signed max)} (hx : s.solution.arcs[i]? = some x) (ht : x.inTree = false)
    (hk : x.kind = .real ∨ s.phase = .initial) :
    s.solution.potential x.snk - s.solution.potential x.src ≤ x.cost.val := by
  have hle := le_reducedCost_of_price hp hx ⟨ht, hk⟩
  rw [hs, neg_zero, Arc.reducedCost] at hle
  omega

/-- When no arc may enter, the potentials grow along no arc that counts by more than its cost. -/
theorem potential_le (hs : Basic g s) (hphase : s.phase ≠ .setup) {cursor : Nat} (hp : s.price = .ok (none, cursor))
    {i : Nat} {x : Arc (Signed max)} (hx : s.solution.arcs[i]? = some x) (hk : x.kind = .real ∨ s.phase = .initial) :
    s.solution.potential x.snk - s.solution.potential x.src ≤ x.cost.val := by
  cases ht : x.inTree with
  | false => exact reducedCost_nonneg hs.exact hp hx ht hk
  | true =>
    have htight := hs.tight hphase x (mem_treeArcs_iff.2 ⟨mem_arcs_iff.2 ⟨_, hx⟩, ht⟩)
    unfold Arc.Tight at htight
    omega

theorem Sound.exists_arc (hs : Sound g s) (hg : g.WellFormed) {a : Arc (Signed max)} (ha : a ∈ g.realArcs) :
    ∃ (i : Nat) (x : Arc (Signed max)), g.arcs[i]? = some a ∧ s.solution.arcs[i]? = some x ∧ x.kind = .real ∧
      x.src = a.src ∧ x.snk = a.snk := by
  obtain ⟨ha, hk⟩ := List.mem_filter.1 ha
  have hk : a.kind = .real := by simpa [Arc.isReal] using hk
  obtain ⟨i, hi⟩ := mem_arcs_iff.1 ha
  obtain ⟨x, hx, hframe⟩ := exists_real_of_base hs.base.symm hg hs.wellFormed hi hk
  obtain ⟨-, hsrc, hsnk, hkx⟩ := Arc.frame_eq_iff.1 hframe
  exact ⟨i, x, hi, hx, hkx.trans hk, hsrc, hsnk⟩

/-- In the first phase artificial arcs cost one and real arcs nothing. -/
theorem Sound.cost_of_initial (hs : Sound g s) (hphase : s.phase = .initial) {i : Nat} {x : Arc (Signed max)}
    (hx : s.solution.arcs[i]? = some x) : x.cost.val = if x.kind = .artificial then 1 else 0 := by
  have hcost := hs.costs hx
  rw [hphase] at hcost
  cases hk : x.kind with
  | real =>
    rw [hk] at hcost
    exact congrArg Signed.val hcost
  | artificial =>
    rw [hk] at hcost
    exact congrArg Signed.val hcost

/-- In the second phase real arcs cost what they cost in the instance. -/
theorem Sound.cost_of_optimal (hs : Sound g s) (hphase : s.phase = .optimal) {i : Nat} {a x : Arc (Signed max)}
    (ha : g.arcs[i]? = some a) (hx : s.solution.arcs[i]? = some x) (hk : x.kind = .real) : x.cost = a.cost := by
  have hcost := hs.costs hx
  rw [hphase, hk] at hcost
  obtain ⟨a', ha', hcost⟩ := hcost
  rw [ha, Option.some.injEq] at ha'
  rw [hcost, ha']

/-- In the first phase the weights are worth what artificial arcs carry. -/
theorem worth_eq_of_initial (hs : Basic g s) (hphase : s.phase = .initial) :
    g.worth s.solution.potential =
      (s.solution.arcs.toList.map fun x => if x.kind = .artificial then x.flow.val else 0).sum := by
  have hne : s.phase ≠ .setup := by rw [hphase]; decide
  rw [← (hs.flow hne).cost_eq (hs.tight hne) hs.wellFormed.toNumbered hs.numVertices_eq]
  congr 1
  refine List.map_congr_left fun x hx => ?_
  obtain ⟨i, hi⟩ := mem_arcs_iff.1 hx
  rw [hs.cost_of_initial hphase hi, ite_mul, one_mul, zero_mul]

section
variable {R : Type} [CommRing R] [LinearOrder R] [IsStrictOrderedRing R] {y : ArcId → R} {cursor : Nat}

/-- At the end of the second phase no feasible flow costs less than the weights are worth. -/
theorem worth_le_costOf (hg : g.WellFormed) (hs : Basic g s) (hphase : s.phase = .optimal)
    (hp : s.price = .ok (none, cursor)) (hy : g.Feasible y) : (g.worth s.solution.potential : R) ≤ g.costOf y := by
  refine weak_duality hg.toNumbered hy fun a ha => ?_
  obtain ⟨i, x, hi, hx, hk, hsrc, hsnk⟩ := hs.exists_arc hg ha
  have hle := potential_le hs (by rw [hphase]; decide) hp hx (.inl hk)
  rwa [hs.cost_of_optimal hphase hi hx hk, hsrc, hsnk] at hle

/-- At the end of the first phase the weights are worth nothing if there is a feasible flow. -/
theorem worth_nonpos (hg : g.WellFormed) (hs : Basic g s) (hphase : s.phase = .initial)
    (hp : s.price = .ok (none, cursor)) (hy : g.Feasible y) : g.worth s.solution.potential ≤ 0 := by
  refine hy.worth_nonpos hg.toNumbered fun a ha => ?_
  obtain ⟨i, x, -, hx, hk, hsrc, hsnk⟩ := hs.exists_arc hg ha
  have hle := potential_le hs (by rw [hphase]; decide) hp hx (.inl hk)
  rw [hs.cost_of_initial hphase hx, hk, if_neg (by decide), hsrc, hsnk] at hle
  omega

/-- At the end of the first phase no artificial arc carries flow if there is a feasible flow. -/
theorem artificial_flow_eq_zero (hg : g.WellFormed) (hs : Basic g s) (hphase : s.phase = .initial)
    (hp : s.price = .ok (none, cursor)) (hy : g.Feasible y) : ∀ x ∈ s.solution.artificialArcs, x.flow.val = 0 := by
  intro x hx
  obtain ⟨hx, hk⟩ := List.mem_filter.1 hx
  have hk : x.kind = .artificial := by simpa [Arc.isArtificial] using hk
  have hnonneg : ∀ {x : Arc (Signed max)}, x ∈ s.solution.arcs.toList → 0 ≤ x.flow.val := fun hx => by
    obtain ⟨i, hi⟩ := mem_arcs_iff.1 hx
    exact (hs.flow (by rw [hphase]; decide)).nonneg hi
  have hworth := worth_nonpos hg hs hphase hp hy
  rw [worth_eq_of_initial hs hphase] at hworth
  -- The sum of what artificial arcs carry is not positive, and none of them carries less than nothing.
  have hle : x.flow.val ≤ (s.solution.arcs.toList.map fun x =>
      if x.kind = .artificial then x.flow.val else 0).sum := by
    refine List.single_le_sum (fun z hz => ?_) _ (List.mem_map.2 ⟨x, hx, if_pos hk⟩)
    obtain ⟨a, ha, rfl⟩ := List.mem_map.1 hz
    have := hnonneg ha
    split <;> omega
  have := hnonneg hx
  omega

end

end Simplex

end Transportation
