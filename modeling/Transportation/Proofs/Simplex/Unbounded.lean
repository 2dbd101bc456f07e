import Transportation.Proofs.Network.DirectedCycle
import Transportation.Proofs.Simplex.Infeasible
/-!
# Instances said to be unbounded

A pivot that finds no arc to leave has found a cycle that is walked forward all around. All of its arcs but the
entering one are tight, so it costs as much as the reduced cost of that arc, which is negative
(`Basic.exists_cycle_of_pivot`). In the first phase no cost is negative. In the second phase an artificial arc on the
cycle would cost more than the others could make up for, so the cycle is one of the instance. As long as there is
such a cycle, some arc may enter (`solve_unbounded`).
-/

namespace Transportation

open Network

namespace Simplex

variable {max : Nat} [NeZero max] {g : Network (Signed max)} {s s' : Simplex (Signed max)} {M : Signed max}
  {l : List (Arc (Signed max))}

/-- The arcs of a cycle of negative cost, of the tree or able to enter it. -/
theorem Basic.exists_cycle_of_pivot (hs : Basic g s) (h : PivotRun s (.error .unbounded) s') :
    s.phase ≠ .setup ∧ ∃ l u, l ≠ [] ∧ Directed u l u ∧ (l.map Arc.src).Nodup ∧
      (∀ x ∈ l, x ∈ s.solution.arcs.toList ∧ (x.inTree = true ∨ x.kind = .real ∨ s.phase = .initial)) ∧
      (l.map fun x => x.cost.val).sum < 0 := by
  generalize hr : (Except.error .unbounded : Except SolveError (Option (Pivot (Signed max)))) = r at h
  cases h with
  | noTree | noCycle | optimal => cases hr
  | pivoted => split at hr <;> cases hr
  | @unbounded c cursor t g₁ cycle t' g₂ hphase hp hi hc hb hl =>
    have hg := hs.wellFormed.toNumbered
    have htree := hs.tree hphase
    obtain ⟨x, hx, ht, hk, hcost, hlt⟩ := entering_of_price hp
    -- The other arcs are tree arcs from the sink of the entering arc back to its source.
    obtain ⟨d, rfl, hback, hn⟩ := htree.back_of_cycle hx hi hc
    obtain ⟨l, hl, rfl, hmem⟩ :=
      exists_directed hg hback (List.forall_mem_cons.1 (forward_of_blocking? hb)).2
    have hleads : ∀ y ∈ l, s.solution.tree.Leads y.step y.src y.snk := fun y hy =>
      hg.leads_of_mem (hmem y hy)
    refine ⟨hphase, x :: l, x.src, by simp, ⟨rfl, hl⟩, ?_, List.forall_mem_cons.2 ⟨?_, fun y hy => ?_⟩, ?_⟩
    · have hnodup := hl.nodup_src htree.forest hleads hn.isChain
      exact (List.perm_append_singleton _ _).nodup_iff.1 hnodup
    · exact ⟨mem_arcs_iff.2 ⟨_, hx⟩, .inr hk⟩
    · obtain ⟨hy, ht⟩ := mem_treeArcs_iff.1 (hmem y hy)
      exact ⟨hy, .inl ht⟩
    · have htight : (l.map fun y => y.cost.val) =
          l.map fun y => s.solution.potential y.snk - s.solution.potential y.src := by
        refine List.map_congr_left fun y hy => ?_
        have := hs.tight hphase y (hmem y hy)
        unfold Arc.Tight at this
        omega
      have hsum := hl.sum_sub s.solution.potential
      have hz := hs.exact
      rw [List.map_cons, List.sum_cons, htight, hsum]
      omega

/-- The first phase does not end with an unbounded instance, since it has no negative costs. -/
theorem Basic.not_unbounded_of_initial (hs : Basic g s) (hphase : s.phase = .initial) :
    ¬ PivotRun s (.error .unbounded) s' := by
  intro h
  obtain ⟨-, l, u, -, -, -, hmem, hneg⟩ := hs.exists_cycle_of_pivot h
  refine absurd (List.sum_nonneg fun c hc => ?_) (not_le.2 hneg)
  obtain ⟨x, hx, rfl⟩ := List.mem_map.1 hc
  obtain ⟨i, hi⟩ := mem_arcs_iff.1 (hmem x hx).1
  rw [hs.cost_of_initial hphase hi]
  split <;> decide

/-- A large number makes up for all the others of a list. -/
theorem sub_mul_le_sum {l : List Int} {c m : Int} (hl : ∀ x ∈ l, -c ≤ x) (hm : m ∈ l) :
    m - ((l.length : Int) - 1) * c ≤ l.sum := by
  have hle : m + c ≤ (l.map fun x => x + c).sum := by
    refine List.single_le_sum (fun y hy => ?_) _ (List.mem_map_of_mem hm)
    obtain ⟨x, hx, rfl⟩ := List.mem_map.1 hy
    have := hl x hx
    omega
  rw [List.sum_map_add, List.map_id', List.map_const', List.sum_replicate, nsmul_eq_mul] at hle
  linarith

/-- In the second phase a simple cycle of negative cost leads along real arcs only if artificial arcs cost more than a
path of them. -/
theorem Restored.real_of_sum_neg (hs : Restored g M s) (hg : g.WellFormed)
    (hlarge : 0 < g.numVertices → ((g.numVertices : Int) - 1) * g.maxAbsCost < M.val) (hnodup : (l.map Arc.src).Nodup)
    (hmem : ∀ x ∈ l, x ∈ s.solution.arcs.toList ∧ (x.inTree = true ∨ x.kind = .real))
    (hneg : (l.map fun x => x.cost.val).sum < 0) : ∀ x ∈ l, x.kind = .real := by
  intro x hx
  cases hk : x.kind with
  | real => rfl
  | artificial =>
    exfalso
    have hsrc : ∀ x ∈ l, x.src.index < g.numVertices := by
      intro x hx
      obtain ⟨i, hi⟩ := mem_arcs_iff.1 (hmem x hx).1
      rw [← hs.numVertices_eq]
      exact hs.wellFormed.src_lt hi
    have hpos : 0 < g.numVertices := Nat.zero_lt_of_lt (hsrc x hx)
    have hM := hlarge hpos
    have hC : 0 ≤ ((g.numVertices : Int) - 1) * g.maxAbsCost := Int.mul_nonneg (by omega) (by omega)
    have hcharge : ∀ z ∈ l, z.kind = .artificial → z.cost = M := by
      intro z hz hk
      obtain ⟨hz, htree⟩ := hmem z hz
      rw [hk] at htree
      exact hs.charges z (mem_treeArcs_iff.2 ⟨hz, by simpa using htree⟩) hk
    have hcost : ∀ c ∈ l.map fun x => x.cost.val, -(g.maxAbsCost : Int) ≤ c := by
      intro c hc
      obtain ⟨z, hz, rfl⟩ := List.mem_map.1 hc
      cases hzk : z.kind with
      | artificial => rw [hcharge z hz hzk]; omega
      | real =>
        obtain ⟨i, hi⟩ := mem_arcs_iff.1 (hmem z hz).1
        have := hs.natAbs_cost_le hg hs.phase hi hzk
        omega
    -- The cycle has at most `n` arcs, and all but `x` together do not make up for `x`.
    have hsum := sub_mul_le_sum hcost (List.mem_map.2 ⟨x, hx, congrArg Signed.val (hcharge x hx hk)⟩)
    have hlen := length_le_of_nodup hnodup hsrc
    have hle : ((l.length : Int) - 1) * g.maxAbsCost ≤ ((g.numVertices : Int) - 1) * g.maxAbsCost :=
      Int.mul_le_mul_of_nonneg_right (by omega) (by omega)
    rw [List.length_map] at hsum
    omega

/-- In the second phase the cycle found is one of the instance. -/
theorem Restored.exists_directedCycle (hs : Restored g M s) (hg : g.WellFormed)
    (hlarge : 0 < g.numVertices → ((g.numVertices : Int) - 1) * g.maxAbsCost < M.val)
    (h : PivotRun s (.error .unbounded) s') :
    ∃ l, g.DirectedCycle l ∧ (l.map fun a => a.cost.val).sum < 0 := by
  obtain ⟨-, l, u, hne, hclosed, hnodup, hmem, hneg⟩ := hs.exists_cycle_of_pivot h
  have hreal := hs.real_of_sum_neg hg hlarge hnodup (fun x hx => by simpa [hs.phase] using hmem x hx) hneg
  have hinput : ∀ x ∈ l, ∃ a ∈ g.realArcs, a.src = x.src ∧ a.snk = x.snk ∧ a.cost = x.cost := by
    intro x hx
    obtain ⟨i, hi⟩ := mem_arcs_iff.1 (hmem x hx).1
    obtain ⟨a, ha, hframe⟩ := exists_real_of_base hs.base hs.wellFormed hg hi (hreal x hx)
    obtain ⟨-, hsrc, hsnk, hk⟩ := Arc.frame_eq_iff.1 hframe
    refine ⟨a, List.mem_filter.2 ⟨mem_arcs_iff.2 ⟨_, ha⟩, ?_⟩, hsrc, hsnk, ?_⟩
    · simp [Arc.isReal, hk, hreal x hx]
    · exact (hs.cost_of_optimal hs.phase ha hi (hreal x hx)).symm
  have : Nonempty (Arc (Signed max)) := ⟨l.head hne⟩
  choose! f hf using hinput
  have hmap : (l.map f).map Arc.src = l.map Arc.src := by
    rw [List.map_map]
    exact List.map_congr_left fun x hx => (hf x hx).2.1
  have hcost : ((l.map f).map fun a => a.cost.val) = l.map fun x => x.cost.val := by
    rw [List.map_map]
    exact List.map_congr_left fun x hx => congrArg Signed.val (hf x hx).2.2.2
  refine ⟨l.map f, ⟨fun a ha => ?_, by simpa using hne, ⟨u, hclosed.map fun x hx => ?_⟩, hmap ▸ hnodup⟩, hcost ▸ hneg⟩
  · obtain ⟨x, hx, rfl⟩ := List.mem_map.1 ha
    exact (hf x hx).1
  · exact ⟨(hf x hx).2.1, (hf x hx).2.2.1⟩

/-- While potentials grow along no arc by more than its cost, no cycle has negative cost. -/
theorem Basic.cost_nonneg_of_cycle (hs : Basic g s) (hg : g.WellFormed) (hphase : s.phase = .optimal) {cursor : Nat}
    (hp : s.price = .ok (none, cursor)) (hl : g.DirectedCycle l) : 0 ≤ (l.map fun a => a.cost.val).sum := by
  obtain ⟨u, hclosed⟩ := hl.closed
  have hsum := hclosed.sum_sub s.solution.potential
  rw [sub_self] at hsum
  rw [← hsum]
  refine List.sum_le_sum fun a ha => ?_
  obtain ⟨i, x, hi, hx, hk, hsrc, hsnk⟩ := hs.exists_arc hg (hl.real a ha)
  have hle := potential_le hs (by rw [hphase]; decide) hp hx (.inl hk)
  rwa [hs.cost_of_optimal hphase hi hx hk, hsrc, hsnk] at hle

/-- The first phase ends with a feasible flow if the check finds no flow on artificial arcs. -/
theorem Basic.feasible_of_check (hs : Basic g s) (hg : g.WellFormed) (hphase : s.phase = .initial)
    {state : SolutionState} (h : CheckRun s (.ok state)) : g.Feasible s.solution.flowAt := by
  have hflow := hs.flow (by rw [hphase]; decide)
  refine hflow.feasible hs.base hg hs.wellFormed fun x hx => ?_
  cases h with
  | feasible _ ha hc _ =>
    rw [artificialLoads_eq hs.toSound hphase hs.exact, Except.ok.injEq] at ha
    rw [← ha, List.countP_map, List.countP_eq_zero] at hc
    have hle := hc x hx
    obtain ⟨i, hi⟩ := mem_arcs_iff.1 (List.mem_filter.1 hx).1
    have := hflow.nonneg hi
    simp only [Function.comp_apply, decide_eq_true_eq] at hle
    omega

/-- If artificial arcs cost more than a path of real arcs can cost, a solver without a tolerance says that an instance
is unbounded only if it has a feasible flow and its real arcs have a directed cycle of negative cost. With such a cycle
it does not say that it has solved the instance. -/
theorem solve_unbounded (b : Builder (Signed max)) {r : Except SolveError SolutionState}
    (hin : s.input = b.network) (hz : s.options.zero = Amount.zero)
    (hlarge : ∀ M, s.artificialCost = .ok M → ((b.numVertices : Int) - 1) * b.network.maxAbsCost < M.val)
    (h : s.run solve = .ok (r, s')) :
    (r = .error .unbounded → (∃ y : ArcId → Int, b.network.Feasible y) ∧
      ∃ l, b.network.DirectedCycle l ∧ (l.map fun a => a.cost.val).sum < 0) ∧
    ((∃ l, b.network.DirectedCycle l ∧ (l.map fun a => a.cost.val).sum < 0) → ∀ state, r ≠ .ok state) := by
  have hg := wellFormed_network b
  have hz : s.options.zero.val = 0 := by rw [hz]; rfl
  have h := solveRun_of_run h
  constructor
  · rintro rfl
    obtain ⟨s₁, t, h₁, hpivot, ht | ⟨s₂, n, state, s₃, h₂, hc, h₃, ht⟩⟩ := h.of_unbounded
    · obtain ⟨hphase₁, hs₁⟩ := basic_of_started (s := s.renewed) hg hin hz h₁
      refine absurd hpivot (((stable_basic hg).pivots hs₁ ht).not_unbounded_of_initial ?_)
      exact ht.constants.2.2.1.trans hphase₁
    · obtain ⟨hs₂, hphase₂, hcost, -⟩ := basic_of_firstPhase hg hin hz h₁ h₂
      obtain ⟨M, hM⟩ := h₃.artificialCost_eq
      refine ⟨⟨_, hs₂.feasible_of_check hg hphase₂ hc⟩, ?_⟩
      refine ((restored_of_restore hg hs₂ hM h₃).pivots ht).exists_directedCycle hg (fun _ => ?_) hpivot
      rw [numVertices_network]
      exact hlarge M (hcost ▸ hM)
  · rintro ⟨l, hl, hneg⟩ state rfl
    obtain ⟨-, -, -, t, cursor, ht, hphase, -, hp⟩ := basic_of_solveRun hg hin hz h
    exact absurd (ht.cost_nonneg_of_cycle hg hphase hp hl) (not_le.2 hneg)

end Simplex

/-- A builder of an instance with a cycle along which flow earns more the more it is. -/
def Builder.whirl : Builder Signed8 where
  name := "whirl"
  weights := #[.minusOne, .one, .zero]
  links := #[⟨⟨0⟩, ⟨1⟩, .one⟩, ⟨⟨1⟩, ⟨2⟩, ⟨-2, by decide, by decide⟩⟩, ⟨⟨2⟩, ⟨1⟩, .one⟩]
  joins l hl := by
    obtain rfl | rfl | rfl : l = _ ∨ l = _ ∨ l = _ := by simpa using hl
    all_goals exact ⟨by decide, by decide, by decide⟩

namespace Simplex

theorem solve_unbounded_of_whirl : ∃ s' : Simplex Signed8,
    (new Builder.whirl.network).input = Builder.whirl.network ∧
    (new Builder.whirl.network).options.zero = Amount.zero ∧
    (∀ M, (new Builder.whirl.network).artificialCost = .ok M →
      ((Builder.whirl.numVertices : Int) - 1) * Builder.whirl.network.maxAbsCost < M.val) ∧
    (new Builder.whirl.network).run solve = .ok (.error .unbounded, s') ∧
    ((Except.error .unbounded : Except SolveError SolutionState) = .error .unbounded →
      (∃ y : ArcId → Int, Builder.whirl.network.Feasible y) ∧
        ∃ l, Builder.whirl.network.DirectedCycle l ∧ (l.map fun a => a.cost.val).sum < 0) ∧
    ((∃ l, Builder.whirl.network.DirectedCycle l ∧ (l.map fun a => a.cost.val).sum < 0) →
      ∀ state, (Except.error .unbounded : Except SolveError SolutionState) ≠ .ok state) := by
  have hlarge : ∀ M, (new Builder.whirl.network).artificialCost = .ok M →
      ((Builder.whirl.numVertices : Int) - 1) * Builder.whirl.network.maxAbsCost < M.val := by
    intro M hM
    rw [show (new Builder.whirl.network).artificialCost = .ok (.ofNat 9 (by decide)) by decide +kernel,
      Except.ok.injEq] at hM
    subst hM
    decide +kernel
  have h : (new Builder.whirl.network).run solve = .ok (.error .unbounded, (new Builder.whirl.network).after solve) := by
    decide +kernel
  exact ⟨_, rfl, rfl, hlarge, h, solve_unbounded Builder.whirl rfl rfl hlarge h⟩

end Simplex

end Transportation
