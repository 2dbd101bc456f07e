import Transportation.Proofs.Network.Scaled
import Transportation.Proofs.Simplex.Lockstep
import Transportation.Proofs.Simplex.Overflow
/-!
# Scaled runs

Two solvers of which one works on `k` times the amounts of the other go through the same steps (`Lockstep`): pricing
sees no amounts, the arcs that block are the same, and the checks after the phases tell flow from no flow.
-/

namespace Transportation

open Checked
open Fault (IsOverflow)

namespace SameArcs

variable {F : Type} [Amount F] {g h : Network F}

/-! ## Costs -/

/-- The default artificial cost is that of the arcs and the number of vertices. -/
theorem defaultArtificialCost_eq (e : SameArcs g h) : h.defaultArtificialCost = g.defaultArtificialCost := by
  have hlargest : ∀ k : Network F, k.largestCost = (k.arcs.map Arc.cost).toList.foldlM (fun value cost => do
      let c ← Amount.abs cost
      return if Amount.lt value c then c else value) Amount.zero := by
    intro k
    rw [Array.toList_map, List.foldlM_map]
    rfl
  have hcosts : h.arcs.map Arc.cost = g.arcs.map Arc.cost := Network.map_arcs_of_map_drained e.arcs fun _ => rfl
  simp only [Network.defaultArtificialCost, hlargest, hcosts, e.numVertices]

/-! ## Pricing -/

section
variable {s : Simplex F} {phase : Phase} {tolerance bound : F}

omit [Amount F] in
/-- A computation that sees nothing of a vertex but its potential. -/
theorem vertex_bind {β : Type} (hp : h.vertices.map Vertex.potential = g.vertices.map Vertex.potential) (u : VertexId)
    (m : F → Checked β) : (h.vertex u >>= fun v => m v.potential) = g.vertex u >>= fun v => m v.potential := by
  refine bind_congr_of_map (f := Vertex.potential) (m := m) ?_ fun _ => rfl
  unfold Network.vertex
  rw [← get_map, ← get_map, hp]

variable (e : SameArcs g h) (hp : h.vertices.map Vertex.potential = g.vertices.map Vertex.potential)
include e hp

/-- The reduced costs are those of the arcs and the potentials. -/
theorem reducedCost?_eq (a : ArcId) : h.reducedCost? phase a = g.reducedCost? phase a := by
  refine (e.arc_bind a fun _ => rfl).trans ?_
  unfold Network.reducedCost?
  congr 1
  funext x
  split
  · rfl
  refine (vertex_bind hp x.src fun p => do
    let c ← Amount.add x.cost p
    return some (← Amount.sub c (← h.vertex x.snk).potential)).trans ?_
  congr 1
  funext v
  congr 1
  funext c
  exact vertex_bind hp x.snk fun p => do return some (← Amount.sub c p)

theorem improve_eq (best : Option (Candidate F)) (a : ArcId) :
    Pricing.improve h phase bound best a = Pricing.improve g phase bound best a := by
  simp only [Pricing.improve, e.reducedCost?_eq hp]

theorem firstBelow_eq (as : List ArcId) :
    Pricing.firstBelow h phase tolerance as = Pricing.firstBelow g phase tolerance as := by
  induction as with
  | nil => rfl
  | cons a as ih => simp only [Pricing.firstBelow, e.reducedCost?_eq hp, ih]

theorem bestOfBlock_eq (size : Nat) (as : List ArcId) (count : Nat) (best : Option (Candidate F)) :
    Pricing.bestOfBlock h phase size bound as count best = Pricing.bestOfBlock g phase size bound as count best := by
  induction as generalizing count best with
  | nil => rfl
  | cons a as ih => simp only [Pricing.bestOfBlock, e.improve_eq hp, ih]

end

end SameArcs

/-- Pricing sees the arcs without their flow and the potentials. -/
theorem Simplex.price_congr {F : Type} [Amount F] {s : Simplex F} {h : Network F} (e : SameArcs s.solution h)
    (hp : h.vertices.map Vertex.potential = s.solution.vertices.map Vertex.potential) (g : Network F) :
    price { s with input := g, solution := h } = s.price := by
  have himprove : ∀ bound, Pricing.improve h s.phase bound = Pricing.improve s.solution s.phase bound :=
    fun bound => funext fun best => funext fun a => e.improve_eq hp best a
  simp only [price, Network.arcIds, Network.arcIdsFrom, e.numArcs, himprove, e.firstBelow_eq hp, e.bestOfBlock_eq hp]

namespace Simplex

variable {max : Nat} [NeZero max] {k : Int}

/-- The solver `t` is `s` with `k` times the amounts, and there is no tolerance. -/
inductive Scaled (k : Int) (s : Simplex (Signed max)) : Simplex (Signed max) → Prop
  | mk {g h : Network (Signed max)} (zero : s.options.zero.val = 0) (input : s.input.Scaled k g)
      (solution : s.solution.Scaled k h) : Scaled k s { s with input := g, solution := h }

namespace Scaled

variable {s t : Simplex (Signed max)}

theorem phase_eq (h : Scaled k s t) : t.phase = s.phase := by
  cases h
  rfl

theorem pivotLimit_eq (h : Scaled k s t) : t.pivotLimit = s.pivotLimit := by
  obtain ⟨-, -, hsol⟩ := h
  simp only [pivotLimit, hsol.sameArcs.numVertices, hsol.sameArcs.numArcs]

/-- As many artificial arcs carry flow. -/
theorem numCarryingArtificialArcs_eq (h : Scaled k s t) (hk : 0 < k) :
    t.numCarryingArtificialArcs = s.numCarryingArtificialArcs := by
  obtain ⟨hz, -, hsol⟩ := h
  exact countP_eq_of_forall₂ hsol.artificialArcs fun x y hxy =>
    Signed.lt_of_scaled hk (Signed.scaled_of_zero hz) hxy.2

theorem artificialLoads (h : Scaled k s t) (hk : 0 < k) : Agree IsOverflow Eq s.artificialLoads t.artificialLoads := by
  obtain ⟨hz, -, hsol⟩ := h
  have hload : ∀ x y, Arc.Scaled k x y → Agree IsOverflow Eq
      (return (x.inTree, Amount.lt s.options.zero (← Amount.mul x.cost x.flow)))
      (return (y.inTree, Amount.lt s.options.zero (← Amount.mul y.cost y.flow))) := by
    intro x y hxy
    obtain ⟨-, -, -, hcost, -, htree⟩ := Arc.drained_eq_iff.1 hxy.1
    rw [hcost, htree]
    refine (Signed.agree_mul x.cost hxy.2).bind fun load load' hload => .pure ?_
    rw [Signed.lt_of_scaled hk (Signed.scaled_of_zero hz) hload]
  exact (Agree.mapM hsol.artificialArcs hload).mono fun l l' h => by rwa [List.forall₂_eq_eq_eq] at h

/-! ## Pivots -/

theorem findEntering : Lockstep IsOverflow (Scaled k) Eq
    (findEntering : SolverM (Signed max) (Option (Candidate (Signed max)))) findEntering := by
  rintro s _ ⟨hz, hin, hsol⟩
  have hpotential := hsol.map_vertices (f := Vertex.potential) fun _ _ h => h.2.1
  rw [run_findEntering, run_findEntering, price_congr hsol.sameArcs hpotential]
  refine (Agree.of_eq rfl).map fun p q hpq => ?_
  subst hpq
  exact ⟨.ok rfl, .mk hz hin hsol⟩

theorem enter (a : ArcId) : Lockstep IsOverflow (Scaled k) Eq (enter a : SolverM (Signed max) Unit) (enter a) := by
  rintro s _ ⟨hz, hin, hsol⟩
  rw [run_enter, run_enter]
  refine (hsol.insert s.tree a).map ?_
  rintro ⟨_, _⟩ ⟨_, _⟩ ⟨rfl, hgh⟩
  exact ⟨.ok rfl, .mk hz hin hgh⟩

theorem leave (a : ArcId) : Lockstep IsOverflow (Scaled k) Eq (leave a : SolverM (Signed max) Unit) (leave a) := by
  rintro s _ ⟨hz, hin, hsol⟩
  rw [run_leave, run_leave]
  refine (hsol.remove s.tree a).map ?_
  rintro ⟨_, _⟩ ⟨_, _⟩ ⟨rfl, hgh⟩
  exact ⟨.ok rfl, .mk hz hin hgh⟩

theorem exchange (cycle : List Step) {d d' : Signed max} (a : ArcId) (hd : d'.val = k * d.val) :
    Lockstep IsOverflow (Scaled k) Eq (exchange cycle d a) (exchange cycle d' a) := by
  rintro s _ ⟨hz, hin, hsol⟩
  rw [run_exchange, run_exchange]
  refine ((hsol.push hd cycle).bind fun g h hgh => hgh.remove s.tree a).map ?_
  rintro ⟨_, _⟩ ⟨_, _⟩ ⟨rfl, hgh⟩
  exact ⟨.ok rfl, .mk hz hin hgh⟩

theorem updatePotentials :
    Lockstep IsOverflow (Scaled k) Eq (updatePotentials : SolverM (Signed max) Unit) updatePotentials := by
  rintro s _ ⟨hz, hin, hsol⟩
  rw [run_updatePotentials, run_updatePotentials]
  refine (hsol.computePotentials s.tree s.root).map ?_
  rintro ⟨_, _⟩ ⟨_, all⟩ ⟨rfl, hgh⟩
  exact ⟨.refl _, .mk hz hin hgh⟩

/-- Where one solver pushes some flow, the other pushes `k` times as much. -/
theorem simulation (hk : 0 < k) :
    Simulation IsOverflow (Scaled k) fun d d' : Signed max => d'.val = k * d.val where
  phase := phase_eq
  pivotLimit := pivotLimit_eq
  findEntering := findEntering
  enter := enter
  leave := leave
  findCycle? h a := by
    obtain ⟨-, -, hsol⟩ := h
    exact hsol.sameArcs.findCycle?_eq _ a
  blocking? h c := by
    obtain ⟨hz, -, hsol⟩ := h
    refine (hsol.blocking? hk hz c).mono fun o o' ho => ?_
    cases ho with
    | none => exact .none
    | some hb => exact .some ⟨hb.1, hb.2.2⟩
  exchange c _ _ a hd := exchange c a hd
  updatePotentials := updatePotentials
  artificialLoads h := h.artificialLoads hk

/-! ## The beginning of a phase -/

theorem start (hk : 0 < k) :
    Lockstep IsOverflow (Scaled k) Eq (start : SolverM (Signed max) Unit) start := by
  rintro s _ ⟨hz, hin, hsol⟩
  rw [run_start, run_start]
  refine (hin.isBalancedWithin hk hz).bind fun balanced _ hb => ?_
  subst hb
  cases balanced with
  | false => exact .pure ⟨.error _, .mk hz hin hsol⟩
  | true =>
    refine (hin.star hk).bind fun g h hgh => (Agree.of_eq hgh.sameArcs.ofNetwork_eq).bind fun tree _ ht => ?_
    subst ht
    refine updatePotentials _ _ ?_
    simp only [begun, hgh.firstSupplier_eq hk, hgh.sameArcs.numArcs]
    exact .mk hz hin hgh

theorem restoreCosts :
    Lockstep IsOverflow (Scaled k) Eq (restoreCosts : SolverM (Signed max) Unit) restoreCosts := by
  rintro s _ @⟨g, h, hz, hin, hsol⟩
  rw [run_restoreCosts, run_restoreCosts]
  have hcost : artificialCost { s with input := g, solution := h } = s.artificialCost := by
    simp only [artificialCost, hin.sameArcs.defaultArtificialCost_eq]
  rw [hcost]
  dsimp only
  split
  · exact .pure ⟨.error _, .mk hz hin hsol⟩
  · refine (Agree.of_eq rfl).bind fun c _ hc => ?_
    subst hc
    exact (Network.Scaled.restore hin.sameArcs hsol c).bind fun g h hgh => updatePotentials _ _ (.mk hz hin hgh)

/-! ## Both phases -/

theorem solve (hk : 0 < k) :
    Lockstep IsOverflow (Scaled k) Eq (solve : SolverM (Signed max) SolutionState) solve := by
  refine (Lockstep.modify fun s t hst => ?_).bind fun _ _ _ => (start hk).bind fun _ _ _ =>
    (simulation hk).optimize.bind fun _ _ _ => (simulation hk).checkStart.bind fun state _ hstate =>
      restoreCosts.bind fun _ _ _ => (simulation hk).optimize.bind fun _ _ _ => .get_bind fun s t hst => ?_
  · obtain ⟨hz, hin, hsol⟩ := hst
    exact .mk hz hin hsol
  subst hstate
  simp only [hst.numCarryingArtificialArcs_eq hk]
  have hend : Lockstep IsOverflow (Scaled k) Eq _ _ :=
    (Lockstep.modify (f := fun s : Simplex (Signed max) => { s with state }) fun s t hst => by
      obtain ⟨hz, hin, hsol⟩ := hst
      exact .mk hz hin hsol).bind fun _ _ _ => .pure (R := Eq) (a := state) rfl
  split
  · exact (Lockstep.throw (R := Eq) _).bind fun _ _ _ => hend
  · exact hend

end Scaled

/-- The network of a builder with `k` times the weights. -/
theorem scaled_network {b b' : Builder (Signed max)} (hlinks : b'.links = b.links)
    (hweights : b'.weights.map Signed.val = b.weights.map (k * ·.val)) : b.network.Scaled k b'.network := by
  have hsize : b.weights.size = b'.weights.size := by simpa using (congrArg Array.size hweights).symm
  constructor
  · rw [List.forall₂_iff_get]
    refine ⟨by simpa [Builder.network] using hsize, fun i hi hi' => ?_⟩
    have hi : i < b.weights.size := by simpa [Builder.network] using hi
    have hi' : i < b'.weights.size := by simpa [Builder.network] using hi'
    have hval : b'.weights[i].val = k * b.weights[i].val := by
      simpa [hi, hi'] using congrArg (·[i]?) hweights
    have hvertex : Vertex.Scaled k (Builder.vertex i b.weights[i]) (Builder.vertex i b'.weights[i]) := ⟨rfl, rfl, hval⟩
    simpa only [Builder.network, List.get_eq_getElem, Array.getElem_toList, Array.getElem_mapIdx] using hvertex
  · have harcs : b'.network.arcs = b.network.arcs := by simp only [Builder.network, hlinks]
    rw [harcs, List.forall₂_same]
    intro x hx
    obtain ⟨i, hi, rfl⟩ : ∃ i, ∃ hi : i < b.links.size, Builder.arc i b.links[i] = x := by
      simpa [Builder.network, Array.mem_mapIdx] using hx
    exact ⟨rfl, (Int.mul_zero k).symm⟩

/-- Multiplying all weights by `k` multiplies all flows by `k` and changes nothing else: unless one of the two runs
overflows, both have the same result after as many pivots, with the same tree, potentials and costs. For want of room
for artificial arcs both may end with the same fault. -/
theorem solve_scaled (hk : 1 ≤ k) {b b' : Builder (Signed max)} (hlinks : b'.links = b.links)
    (hweights : b'.weights.map Signed.val = b.weights.map (k * ·.val)) {o : Options (Signed max)}
    (hz : o.zero = Amount.zero)
    (hover : FaultsOnly (fun e => ¬ e.IsOverflow) ((fresh b.network o).run solve))
    (hover' : FaultsOnly (fun e => ¬ e.IsOverflow) ((fresh b'.network o).run solve)) :
    (∃ r s s', (fresh b.network o).run solve = .ok (r, s) ∧ (fresh b'.network o).run solve = .ok (r, s') ∧
      s'.pivots = s.pivots ∧ s'.state = s.state ∧ s'.tree = s.tree ∧
      s'.solution.vertices.map (fun v => (v.id, v.potential)) = s.solution.vertices.map (fun v => (v.id, v.potential)) ∧
      s'.solution.arcs.map Arc.drained = s.solution.arcs.map Arc.drained ∧
      s'.solution.arcs.map (·.flow.val) = s.solution.arcs.map (k * ·.flow.val)) ∨
    (idLimit < b.numArcs + (b.numVertices - 1) ∧
      ∃ e, (fresh b.network o).run solve = .error e ∧ (fresh b'.network o).run solve = .error e) := by
  have hg := scaled_network hlinks hweights
  have hzero : o.zero.val = 0 := by rw [hz, Signed.zero_val]
  have hst : Scaled k (fresh b.network o) (fresh b'.network o) := .mk hzero hg hg
  have hlock := Scaled.solve (by omega) _ _ hst hover hover'
  generalize hrun : (fresh b.network o).run solve = x at hlock hover ⊢
  generalize hrun' : (fresh b'.network o).run solve = y at hlock ⊢
  cases hlock with
  | error e =>
    refine .inr ⟨?_, e, rfl, rfl⟩
    by_contra hids
    rw [← Network.numVertices_network, ← Network.numArcs_network, not_lt] at hids
    exact hover e rfl (overflow_solve (Network.wellFormed_network b) rfl hids e hrun)
  | @ok p q h =>
    obtain ⟨r, s⟩ := p
    obtain ⟨r', s'⟩ := q
    obtain ⟨hr, hs⟩ := h
    obtain rfl : r' = r := hr.eq
    change Scaled k s s' at hs
    obtain ⟨-, -, hsol⟩ := hs
    refine .inl ⟨_, s, _, rfl, rfl, rfl, rfl, rfl, ?_, hsol.sameArcs.arcs, ?_⟩
    · exact hsol.map_vertices fun v w h => by rw [h.1, h.2.1]
    · exact hsol.map_arcs fun x y h => h.2

/-- The relay with twice the weights. -/
def doubledRelay : Builder Signed8 :=
  { Builder.relay with
    weights := #[⟨-6, by decide, by decide⟩, ⟨6, by decide, by decide⟩, .zero]
    joins := Builder.relay.joins }

theorem solve_scaled_of_relay : ∃ s s' : Simplex Signed8, doubledRelay.links = Builder.relay.links ∧
    doubledRelay.weights.map Signed.val = Builder.relay.weights.map (2 * ·.val) ∧
    (fresh Builder.relay.network .default).run solve = .ok (.ok .optimal, s) ∧
    (fresh doubledRelay.network .default).run solve = .ok (.ok .optimal, s') ∧
    (s.pivots = 2 ∧ s.solution.arcs.map (·.flow.val) = #[3, 3, 0, 0]) ∧
    s'.pivots = s.pivots ∧ s'.state = s.state ∧ s'.tree = s.tree ∧
    s'.solution.vertices.map (fun v => (v.id, v.potential)) = s.solution.vertices.map (fun v => (v.id, v.potential)) ∧
    s'.solution.arcs.map Arc.drained = s.solution.arcs.map Arc.drained ∧
    s'.solution.arcs.map (·.flow.val) = s.solution.arcs.map (2 * ·.flow.val) := by
  have hlinks : doubledRelay.links = Builder.relay.links := rfl
  have hweights : doubledRelay.weights.map Signed.val = Builder.relay.weights.map (2 * ·.val) := by decide +kernel
  have hrun : (fresh Builder.relay.network .default).run solve =
      .ok (.ok .optimal, (fresh Builder.relay.network .default).after solve) := by decide +kernel
  have hrun' : (fresh doubledRelay.network .default).run solve =
      .ok (.ok .optimal, (fresh doubledRelay.network .default).after solve) := by decide +kernel
  have hids : ¬ idLimit < Builder.relay.numArcs + (Builder.relay.numVertices - 1) := by decide +kernel
  obtain ⟨r, s, s', hs, hs', hscaled⟩ :=
    (solve_scaled (by decide) hlinks hweights rfl (.of_ok hrun) (.of_ok hrun')).resolve_right fun h => hids h.1
  cases hrun.symm.trans hs
  cases hrun'.symm.trans hs'
  exact ⟨_, _, hlinks, hweights, hrun, hrun', ⟨by decide +kernel, by decide +kernel⟩, hscaled⟩

end Simplex

end Transportation
