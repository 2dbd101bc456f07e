import Transportation.Proofs.Network.Families
import Transportation.Proofs.Simplex.Overflow
import Transportation.Proofs.Simplex.Resolve
import Transportation.Proofs.Simplex.Rigid
/-!
# Chains have one answer

Whatever leaves the first vertex of a chain has to pass along every arc, so all arcs of a feasible flow carry the amount
that is moved (`IsChain.flow_eq`). An amount to be moved forward makes the chain rigid, so a solver finds this flow
unless it reaches its limit on pivots, and an amount to be moved backward has no feasible flow (`solve_chain`).
-/

namespace Transportation

/-! ## The links -/

section
variable {F : Type} {costs : List F} {l : Link F}

/-- The links of a chain, from each vertex to the next. -/
def chainLinks (costs : List F) : List (Link F) :=
  costs.zipIdx.map fun (c, i) => ⟨⟨i⟩, ⟨i + 1⟩, c⟩

theorem getElem?_chainLinks (costs : List F) (i : Nat) :
    (chainLinks costs)[i]? = costs[i]?.map fun c => ⟨⟨i⟩, ⟨i + 1⟩, c⟩ := by
  simp only [chainLinks, List.getElem?_map, List.getElem?_zipIdx, Option.map_map, Nat.zero_add]
  rfl

theorem length_chainLinks (costs : List F) : (chainLinks costs).length = costs.length := by
  simp [chainLinks]

theorem joins_chainLinks (h : l ∈ chainLinks costs) : l.Joins (costs.length + 1) := by
  obtain ⟨i, hi⟩ := List.mem_iff_getElem?.1 h
  rw [getElem?_chainLinks] at hi
  obtain ⟨c, hc, rfl⟩ := Option.map_eq_some_iff.1 hi
  obtain ⟨hlt, -⟩ := List.getElem?_eq_some_iff.1 hc
  exact ⟨Nat.lt_succ_of_lt hlt, Nat.succ_lt_succ hlt, by simp⟩

theorem map_cost_chainLinks (costs : List F) : (chainLinks costs).map Link.cost = costs := by
  refine List.ext_getElem? fun i => ?_
  rw [List.getElem?_map, getElem?_chainLinks, Option.map_map]
  exact Option.map_id'

theorem sum_chainLinks {R : Type} [AddCommMonoid R] (costs : List F) (f : Nat → Nat → R) :
    ((chainLinks costs).map fun l => f l.src.index l.snk.index).sum = ∑ i ∈ Finset.range costs.length, f i (i + 1) := by
  have hmap : ((chainLinks costs).map fun l => f l.src.index l.snk.index) =
      (List.range costs.length).map fun i => f i (i + 1) := by
    refine List.ext_getElem (by simp [chainLinks]) fun i hi _ => ?_
    simp [chainLinks]
  rw [hmap, sum_map_range]

end

/-! ## Building -/

variable {max : Nat} [NeZero max] {amount : Signed max} {costs ws : List (Signed max)} {n : Nat}

namespace Network

theorem length_of_chainWeights (h : chainWeights amount n = .ok ws) : ws.length = n + 1 := by
  cases n with
  | zero =>
    obtain rfl := Checked.pure_eq_ok_iff.1 h
    rfl
  | succ n =>
    obtain ⟨w, -, h⟩ := Checked.bind_eq_ok_iff.1 h
    obtain rfl := Checked.pure_eq_ok_iff.1 h
    simp

theorem joins_of_chainWeights (h : chainWeights amount costs.length = .ok ws) :
    ∀ l ∈ chainLinks costs, l.Joins ws.length := by
  intro l hl
  rw [length_of_chainWeights h]
  exact joins_chainLinks hl

/-- The first vertex supplies the amount, the last demands it, and there is nothing in between. -/
theorem val_of_chainWeights (h : chainWeights amount (n + 1) = .ok ws) (v : Nat) :
    (ws.map Signed.val)[v]?.getD 0 = if v = 0 then -amount.val else if v = n + 1 then amount.val else 0 := by
  obtain ⟨w, hw, h⟩ := Checked.bind_eq_ok_iff.1 h
  obtain rfl := Checked.pure_eq_ok_iff.1 h
  cases v with
  | zero => simp [Signed.neg_eq_ok_iff.1 hw]
  | succ v =>
    simp only [List.map_cons, List.getElem?_cons_succ, List.map_append, List.map_replicate, List.map_nil,
      Nat.add_right_cancel_iff, Nat.succ_ne_zero, if_false]
    rcases Nat.lt_trichotomy v n with hv | rfl | hv
    · rw [List.getElem?_append_left (by simpa using hv), List.getElem?_replicate, if_pos hv, if_neg hv.ne]
      rfl
    · simp
    · rw [List.getElem?_eq_none (by simp; omega), if_neg hv.ne']
      rfl

/-- A chain may be too long to be numbered, and otherwise the amount may have no opposite. -/
theorem faultsOnly_chain (amount : Signed max) (costs : List (Signed max)) :
    Checked.FaultsOnly (fun e => e.IsOverflow ∨
      (idLimit ≤ 2 * costs.length + 1 ∧ (e = .vertexCapacity ∨ e = .arcCapacity))) (chain amount costs) := by
  unfold chain
  refine .bind ?_ fun ws hws => ?_
  · intro e he
    cases hn : costs.length with
    | zero =>
      rw [hn] at he
      cases he
    | succ n =>
      rw [hn] at he
      refine .inl ((LawfulAmount.neg amount).bind (fun w _ => .pure _) e he)
  · show Checked.FaultsOnly _ (Builder.build ws (chainLinks costs))
    rw [Builder.build_eq (joins_of_chainWeights hws), length_chainLinks, length_of_chainWeights hws]
    split
    · split
      · exact .of_ok rfl
      · next hroom =>
        rintro e ⟨⟩
        rw [not_or] at hroom
        exact .inr ⟨by omega, .inr rfl⟩
    · next hroom =>
      rintro e ⟨⟩
      rw [not_or] at hroom
      exact .inr ⟨by omega, .inl rfl⟩

end Network

/-- A chain of at least one arc. -/
structure IsChain (amount : Signed max) (costs : List (Signed max)) (b : Builder (Signed max)) : Prop where
  pos : 0 < costs.length
  numVertices : b.numVertices = costs.length + 1
  weightAt : ∀ v : VertexId, b.network.weightAt v =
    if v.index = 0 then -amount.val else if v.index = costs.length then amount.val else 0
  links : b.links.toList = chainLinks costs

theorem exists_isChain {g : Network (Signed max)} (hne : costs ≠ []) (h : Network.chain amount costs = .ok g) :
    2 * costs.length + 1 < idLimit ∧ ∃ b, g = b.network ∧ IsChain amount costs b := by
  obtain ⟨ws, hws, h⟩ := Checked.bind_eq_ok_iff.1 h
  have hlength := Network.length_of_chainWeights hws
  have hpos : 0 < costs.length := List.length_pos_iff.2 hne
  have hlinks : chainLinks costs ≠ [] := by
    rw [← List.length_pos_iff, length_chainLinks]
    exact hpos
  replace h : Builder.build ws (chainLinks costs) = .ok g := h
  rw [Builder.build_eq (Network.joins_of_chainWeights hws)] at h
  split at h
  · split at h
    · next hroom =>
      have hroom := hroom.resolve_left hlinks
      rw [hlength, length_chainLinks] at hroom
      cases h
      refine ⟨by omega, _, rfl, hpos, hlength, fun v => ?_, rfl⟩
      rw [Builder.weightAt_network]
      obtain ⟨n, hn⟩ := Nat.exists_eq_add_of_le' hpos
      rw [hn] at hws ⊢
      exact Network.val_of_chainWeights hws v.index
    · cases h
  · cases h

namespace IsChain

variable {b : Builder (Signed max)} {y : ArcId → Int} {a : Arc (Signed max)}

theorem numArcs_eq (h : IsChain amount costs b) : b.numArcs = costs.length := by
  rw [← length_chainLinks costs, ← h.links]
  rfl

theorem ends_eq (h : IsChain amount costs b) (ha : a ∈ b.network.arcs.toList) :
    a.id.index < costs.length ∧ a.src.index = a.id.index ∧ a.snk.index = a.id.index + 1 := by
  obtain ⟨i, hi⟩ := Network.mem_arcs_iff.1 ha
  rw [Network.getElem?_network_arcs, ← Array.getElem?_toList, h.links, getElem?_chainLinks, Option.map_map] at hi
  obtain ⟨c, hc, rfl⟩ := Option.map_eq_some_iff.1 hi
  obtain ⟨hlt, -⟩ := List.getElem?_eq_some_iff.1 hc
  exact ⟨hlt, rfl, rfl⟩

/-- Whatever leaves the vertices up to some arc of the chain passes along this arc. -/
theorem flow_eq (h : IsChain amount costs b) (hy : b.network.Feasible y) (ha : a ∈ b.network.realArcs) :
    y a.id = amount.val := by
  have hg := Network.wellFormed_network b
  rw [Network.realArcs_network] at ha
  obtain ⟨hlt, hsrc, hsnk⟩ := h.ends_eq ha
  let p : VertexId → Int := fun v => if v.index ≤ a.id.index then 1 else 0
  have hleft : b.network.worth p = -amount.val := by
    unfold Network.worth
    rw [Finset.sum_eq_single ⟨0⟩]
    · simp [p, h.weightAt]
    · intro v _ hv
      have hv : v.index ≠ 0 := fun he => hv (VertexId.ext he)
      simp only [p, h.weightAt, hv, if_false]
      by_cases hle : v.index ≤ a.id.index
      · rw [if_pos hle, if_neg (by omega), mul_zero]
      · rw [if_neg hle, zero_mul]
    · intro hout
      have := h.numVertices
      refine absurd (Network.mem_vertexSet_iff.2 ?_) hout
      rw [Network.numVertices_network]
      show 0 < b.numVertices
      omega
  have hright : (b.network.realArcs.map fun x => (p x.snk - p x.src) * y x.id).sum = -y a.id := by
    rw [Network.realArcs_network, ← hg.toNumbered.sum_ite_id ha (-y a.id)]
    congr 1
    refine List.map_congr_left fun x hx => ?_
    obtain ⟨-, hsrc, hsnk⟩ := h.ends_eq hx
    simp only [p, hsrc, hsnk]
    by_cases he : x.id = a.id
    · simp [he]
    · have hne : x.id.index ≠ a.id.index := fun hi => he (ArcId.ext hi)
      rw [if_neg he]
      split_ifs <;> omega
  have hworth := hy.worth_eq hg.toNumbered p
  simp only [Int.cast_id] at hworth
  rw [hleft, hright] at hworth
  omega

/-- Nothing is moved backward. -/
theorem amount_nonneg (h : IsChain amount costs b) (hy : b.network.Feasible y) : 0 ≤ amount.val := by
  have hpos : 0 < b.network.arcs.size := by
    show 0 < b.network.numArcs
    rw [Network.numArcs_network, h.numArcs_eq]
    exact h.pos
  have hfirst : b.network.arcs[0] ∈ b.network.realArcs := by
    rw [Network.realArcs_network]
    exact Array.mem_toList_iff.2 (Array.getElem_mem hpos)
  rw [← h.flow_eq hy hfirst]
  exact hy.nonneg _ hfirst

/-- On a working copy all real arcs carry the amount. -/
theorem eq_amount (h : IsChain amount costs b) {k : Network (Signed max)} (hk : k.WellFormed)
    (e : k.base = b.network.base) (hy : b.network.Feasible k.flowAt) : ∀ x ∈ k.realArcs, x.flow = amount := by
  intro x hx
  have hg := Network.wellFormed_network b
  obtain ⟨hx, hreal⟩ := List.mem_filter.1 hx
  obtain ⟨i, hi⟩ := Network.mem_arcs_iff.1 hx
  obtain ⟨a, ha, -⟩ := Network.exists_real_of_base e hk hg hi (by simpa [Arc.isReal] using hreal)
  have hmem : a ∈ b.network.realArcs := Network.realArcs_network b ▸ Network.mem_arcs_iff.2 ⟨i, ha⟩
  refine Signed.ext ?_
  rw [← h.flow_eq hy hmem, hg.arc_id ha, Network.flowAt_eq hi]

/-- The flow that moves the amount along all arcs is feasible. -/
theorem feasible (h : IsChain amount costs b) (ha : 0 ≤ amount.val) :
    b.network.Feasible (b.flowOf fun _ => amount.val) := by
  have hpos := h.pos
  refine b.feasible_flowOf (fun _ _ => ha) fun v hv => ?_
  rw [h.numVertices] at hv
  rw [Int.cast_id, ← b.weightAt_network ⟨v⟩, h.weightAt, h.links,
    sum_chainLinks costs fun i j => (if j = v then amount.val else 0) - if i = v then amount.val else 0,
    Finset.sum_sub_distrib]
  have hout : ∑ i ∈ Finset.range costs.length, (if i = v then amount.val else 0) =
      if v < costs.length then amount.val else 0 := by
    simp
  have hin : ∑ i ∈ Finset.range costs.length, (if i + 1 = v then amount.val else 0) =
      if v = 0 then 0 else amount.val := by
    cases v with
    | zero => simp
    | succ v => simp [show v < costs.length by omega]
  rw [hin, hout]
  show _ = if v = 0 then -amount.val else if v = costs.length then amount.val else 0
  split_ifs <;> omega

theorem rigid (h : IsChain amount costs b) (ha : 0 < amount.val) : b.network.Rigid where
  count := by
    rw [Network.length_realArcs_network, Network.numVertices_network, h.numVertices, h.numArcs_eq]
  positive y hy a hmem := by
    rw [h.flow_eq hy hmem]
    exact ha

/-- A feasible flow costs what the amount costs on all arcs. -/
theorem costOf_eq (h : IsChain amount costs b) (hy : b.network.Feasible y) :
    b.network.costOf y = amount.val * (costs.map Signed.val).sum := by
  have hcosts : costs.map Signed.val = b.network.realArcs.map fun a => a.cost.val := by
    rw [← map_cost_chainLinks costs, ← h.links, ← Network.map_link_network, Network.realArcs_network, List.map_map,
      List.map_map]
    rfl
  rw [hcosts, Network.costOf, ← List.sum_map_mul_left]
  congr 1
  refine List.map_congr_left fun a ha => ?_
  rw [h.flow_eq hy ha, Int.cast_id, mul_comm]

end IsChain

/-! ## Solving -/

namespace Network

open Simplex

/-- Solving a chain faults by overflows only, if the chain is not too long to be numbered. An amount to be moved forward
is moved along all arcs, which are the whole tree then, unless the limit on pivots is reached. An amount to be moved
backward is not moved. -/
theorem solve_chain (amount : Signed max) (costs : List (Signed max)) (hne : costs ≠ []) :
    Checked.FaultsOnly (fun e => e.IsOverflow ∨
      (idLimit ≤ 2 * costs.length + 1 ∧ (e = .vertexCapacity ∨ e = .arcCapacity))) (chain amount costs) ∧
    ∀ g, chain amount costs = .ok g →
      Checked.FaultsOnly Fault.IsOverflow g.solve ∧
      (0 < amount.val → ∀ r, g.solve = .ok r →
        (∃ limit, r = .error (.iterationLimit limit)) ∨
        ∃ h, r = .ok (.optimal, h) ∧ h.base = g.base ∧ (∀ x ∈ h.realArcs, x.inTree = true ∧ x.flow = amount) ∧
          (∀ x ∈ h.artificialArcs, x.inTree = false) ∧
          ((∃ v, h.value = .ok v ∧ v.val = amount.val * (costs.map Signed.val).sum) ∨
            ∃ op, h.value = .error (.overflow op))) ∧
      (amount.val < 0 → ∀ p, g.solve ≠ .ok (.ok p)) := by
  refine ⟨faultsOnly_chain amount costs, fun g hchain => ?_⟩
  obtain ⟨hroom, b, rfl, h⟩ := exists_isChain hne hchain
  have hg := wellFormed_network b
  have hids : b.network.numArcs + (b.network.numVertices - 1) ≤ idLimit := by
    rw [numArcs_network, numVertices_network, h.numVertices, h.numArcs_eq]
    omega
  refine ⟨?_, fun hpos r hr => ?_, fun hneg p hp => ?_⟩
  · exact .bind (overflow_solve (s := .new b.network) hg rfl hids) fun _ _ => .pure _
  · obtain ⟨⟨r', s'⟩, hrun, hr⟩ := Checked.bind_eq_ok_iff.1 hr
    obtain rfl := Checked.pure_eq_ok_iff.1 hr
    replace hrun := solveRun_of_run hrun
    obtain ⟨limit, rfl⟩ | ⟨rfl, ht⟩ := hrun.of_rigid hg (h.rigid hpos) (h.feasible hpos.le) rfl rfl
    · exact .inl ⟨limit, rfl⟩
    obtain ⟨hs, -⟩ := basic_of_solveRun hg rfl rfl hrun
    obtain ⟨hfeasible, hvalue⟩ := hrun.feasible hg rfl rfl
    rw [h.costOf_eq hfeasible] at hvalue
    obtain ⟨hreal, hout⟩ := realTree_iff.1 ht
    have hflow := h.eq_amount hs.wellFormed hs.base hfeasible
    exact .inr ⟨s'.solution, rfl, hs.base, fun x hx => ⟨hreal x hx, hflow x hx⟩, hout, hvalue⟩
  · obtain ⟨state, k⟩ := p
    obtain ⟨s', hrun, -⟩ := Simplex.solve_eq_ok_iff.1 hp
    obtain ⟨hfeasible, -⟩ := (solveRun_of_run hrun).feasible hg rfl rfl
    exact absurd (h.amount_nonneg hfeasible) (not_le.2 hneg)

/-- Three units can be moved along four arcs, but not back. -/
theorem solve_chain_of_four :
    let costs : List Signed8 := [.one, .ofNat 2 (by decide), .ofNat 3 (by decide), .ofNat 4 (by decide)]
    let amount : Signed8 := .ofNat 3 (by decide)
    let back : Signed8 := ⟨-3, by decide, by decide⟩
    costs ≠ [] ∧
    (∃ g h, chain amount costs = .ok g ∧ 0 < amount.val ∧ g.solve = .ok (.ok (.optimal, h)) ∧ h.base = g.base ∧
      (∀ x ∈ h.realArcs, x.inTree = true ∧ x.flow = amount) ∧ (∀ x ∈ h.artificialArcs, x.inTree = false) ∧
      ((∃ v, h.value = .ok v ∧ v.val = amount.val * (costs.map Signed.val).sum) ∨
        ∃ op, h.value = .error (.overflow op))) ∧
    ∃ g, chain back costs = .ok g ∧ back.val < 0 ∧ ∀ p, g.solve ≠ .ok (.ok p) := by
  intro costs amount back
  have hne : costs ≠ [] := by simp [costs]
  let along (x y : Signed8) : Network Signed8 :=
    (Builder.ofLists [x, .zero, .zero, .zero, y] (chainLinks costs) fun _ => @joins_chainLinks _ costs _).network
  let g := along back amount
  let g' := along amount back
  have hg : chain amount costs = .ok g := by decide +kernel
  have hg' : chain back costs = .ok g' := by decide +kernel
  have hsolve : g.solve = .ok (.ok (.optimal, ((Simplex.new g).after Simplex.solve).solution)) := by decide +kernel
  have hpos : 0 < amount.val := by decide
  have hneg : back.val < 0 := by decide
  refine ⟨hne, ?_, g', hg', hneg, ((solve_chain back costs hne).2 g' hg').2.2 hneg⟩
  rcases ((solve_chain amount costs hne).2 g hg).2.1 hpos _ hsolve with ⟨limit, h⟩ | ⟨h, hr, hflow⟩
  · cases h
  · cases hr
    exact ⟨g, _, hg, hpos, hsolve, hflow⟩

end Network

end Transportation
