import Transportation.Proofs.Network.Certificate
import Transportation.Proofs.Simplex.Artificial
import Transportation.Proofs.Simplex.Infeasible
/-!
# How long an answer stands

The solution state is that of the latest call of `solve`. Other operations change the working copy and leave the state as
it is, so a new star is still said to be optimal if the instance was solved before (`stale_of_relay_and_detour`). The
answer stands until the first phase begins anew, or until artificial arcs of the tree become so cheap that flow may turn
to them (`Standing`). Up to then potentials found at the end of `solve` show that the flow is cheapest, and a pivot moves
none of it (`Settled.flowAt_pivot`).
-/

namespace Transportation

namespace Network

variable {max : Nat} {h k : Network (Signed max)}

/-! ## Flows that stay -/

theorem flowAt_congr (e : k.arcs.map Arc.flow = h.arcs.map Arc.flow) : k.flowAt = h.flowAt := by
  funext a
  have e : k.arcs[a.index]?.map Arc.flow = h.arcs[a.index]?.map Arc.flow := by
    simpa using congrArg (·[a.index]?) e
  simp only [flowAt, ← Option.map_map (Signed.val) Arc.flow, ← Function.comp_def, e]

section
variable [NeZero max] {delta : Signed max} {c : List Step}

theorem flowAt_push (e : h.push delta c = .ok k) (hc : (c.map Step.arc).Nodup) {a : ArcId} {x : Arc (Signed max)}
    (hx : h.arcs[a.index]? = some x) : k.flowAt a = h.flowAt a + sign c a.index * delta.val := by
  obtain ⟨flow, hk, hflow⟩ := flow_push e hc hx
  have hat : k.flowAt a = flow.val := flowAt_eq hk
  rw [hat, hflow]
  congr 1
  exact (flowAt_eq hx).symm

theorem flowAt_push_of_zero (e : h.push delta c = .ok k) (hc : (c.map Step.arc).Nodup) (hd : delta.val = 0) :
    k.flowAt = h.flowAt := by
  funext a
  cases hx : h.arcs[a.index]? with
  | some x => rw [flowAt_push e hc hx, hd, mul_zero, add_zero]
  | none =>
    have hsize : k.arcs.map Arc.drained = h.arcs.map Arc.drained := congrArg (·.arcs) (drained_push e)
    have hk : k.arcs[a.index]?.map Arc.drained = none := by
      rw [← Array.getElem?_map, hsize, Array.getElem?_map, hx, Option.map_none]
    rw [flowAt, flowAt, hx, Option.map_eq_none_iff.1 hk]

end

/-- No artificial arc carries flow if none does so in a network of the same arcs and flows. -/
theorem artificial_flow_congr (hart : ∀ x ∈ h.artificialArcs, x.flow.val = 0) (e : k.frame = h.frame)
    (hflow : k.flowAt = h.flowAt) : ∀ x ∈ k.artificialArcs, x.flow.val = 0 := by
  intro x hx
  obtain ⟨hx, hk⟩ := List.mem_filter.1 hx
  obtain ⟨i, hi⟩ := mem_arcs_iff.1 hx
  obtain ⟨y, hy, hyx⟩ := exists_arc_of_frame e hi
  obtain ⟨-, -, -, hkind⟩ := Arc.frame_eq_iff.1 hyx
  have hy' : y ∈ h.artificialArcs := by
    refine List.mem_filter.2 ⟨mem_arcs_iff.2 ⟨_, hy⟩, ?_⟩
    rwa [Arc.isArtificial, hkind]
  rw [← flowAt_eq hi, hflow, flowAt_eq hy, hart y hy']

/-- Along no artificial arc of the tree the potentials `p` grow by more than its cost. -/
def Covers (h : Network (Signed max)) (p : VertexId → Int) : Prop :=
  ∀ x ∈ h.treeArcs, x.kind = .artificial → p x.snk - p x.src ≤ x.cost.val

end Network

namespace Simplex

open Network

variable {max : Nat} [NeZero max] {g : Network (Signed max)} {s s' t : Simplex (Signed max)} {p : VertexId → Int}

/-! ## Solved instances -/

/-- What holds of a solver of the instance `g` without a tolerance after it has solved the instance, with potentials `p`
to show for it. -/
structure Settled (g : Network (Signed max)) (p : VertexId → Int) (s : Simplex (Signed max)) : Prop
    extends Basic g s where
  phase : s.phase = .optimal
  empty : ∀ x ∈ s.solution.artificialArcs, x.flow.val = 0
  certifies : g.Certifies p s.solution.flowAt
  covers : s.solution.Covers p

theorem Settled.feasible (hs : Settled g p s) (hg : g.WellFormed) : g.Feasible s.solution.flowAt :=
  (hs.flow (by rw [hs.phase]; decide)).feasible hs.base hg hs.wellFormed hs.empty

/-- At the end of `solve` the potentials of the tree show that the flow is cheapest. -/
theorem settled_of_solveRun (hg : g.WellFormed) (hin : s.input = g) (hz : s.options.zero.val = 0)
    {state : SolutionState} (h : SolveRun s (.ok state) s') : Settled g s'.solution.potential s' := by
  obtain ⟨hs, hphase, hart, t, cursor, ht, htphase, hsolution, hp⟩ := basic_of_solveRun hg hin hz h
  have hne : s'.phase ≠ .setup := by rw [hphase]; decide
  have htight := hs.tight hne
  refine ⟨hs, hphase, hart, ⟨fun a ha => ?_, fun a ha h0 => ?_⟩, fun x hx _ => ?_⟩
  · obtain ⟨i, x, hi, hx, hk, hsrc, hsnk⟩ := ht.exists_arc hg ha
    have hle := potential_le ht (by rw [htphase]; decide) hp hx (.inl hk)
    rwa [ht.cost_of_optimal htphase hi hx hk, hsrc, hsnk, hsolution] at hle
  · obtain ⟨i, x, hi, hx, hk, hsrc, hsnk⟩ := hs.exists_arc hg ha
    rw [hg.arc_id hi, flowAt_eq hx] at h0
    have hxt : x ∈ s'.solution.treeArcs := by
      refine mem_treeArcs_iff.2 ⟨mem_arcs_iff.2 ⟨_, hx⟩, ?_⟩
      by_contra ht
      exact h0 ((hs.flow hne).idle hx (by simpa using ht))
    have hgrow := htight x hxt
    unfold Arc.Tight at hgrow
    rw [← hs.cost_of_optimal hphase hi hx hk, ← hsrc, ← hsnk]
    omega
  · have hgrow := htight x hx
    unfold Arc.Tight at hgrow
    omega

/-- Along no tree arc the potentials grow by more than its cost. -/
theorem Sound.sub_le_cost (hs : Sound g s) (hg : g.WellFormed) (hphase : s.phase = .optimal)
    (hp : ∀ a ∈ g.realArcs, p a.snk - p a.src ≤ a.cost.val) (hc : s.solution.Covers p) {x : Arc (Signed max)}
    (hx : x ∈ s.solution.treeArcs) : p x.snk - p x.src ≤ x.cost.val := by
  cases hk : x.kind with
  | artificial => exact hc x hx hk
  | real =>
    obtain ⟨i, hi⟩ := mem_arcs_iff.1 (mem_treeArcs_iff.1 hx).1
    obtain ⟨a, ha, hframe⟩ := exists_real_of_base hs.base hs.wellFormed hg hi hk
    obtain ⟨-, hsrc, hsnk, hkind⟩ := Arc.frame_eq_iff.1 hframe
    have hreal : a ∈ g.realArcs :=
      List.mem_filter.2 ⟨mem_arcs_iff.2 ⟨_, ha⟩, by simp [Arc.isReal, hkind, hk]⟩
    rw [hs.cost_of_optimal hphase ha hi hk, ← hsrc, ← hsnk]
    exact hp a hreal

/-! ## Pivots of a solved instance -/

/-- The arc that enters in the second phase is a real arc, so a pivot brings no artificial arc into the tree. -/
theorem Settled.covers_pivot (hs : Settled g p s) {r : Except SolveError (Option (Pivot (Signed max)))}
    (h : PivotRun s r s') : s'.solution.Covers p := by
  intro x hx hk
  rcases exists_treeArc_of_pivot h hx with ⟨y, hy, hyx⟩ | ⟨c, cursor, y, hp, hy, hyx⟩
  · obtain ⟨-, hsrc, hsnk, hcost, hkind, -⟩ := Arc.drained_eq_iff.1 hyx
    rw [← hsrc, ← hsnk, ← hcost]
    exact hs.covers y hy (hkind.trans hk)
  · obtain ⟨-, -, -, -, hkind, -⟩ := Arc.drained_eq_iff.1 hyx
    obtain ⟨y', hy', hreal⟩ := real_of_price hp (by rw [hs.phase]; decide)
    rw [hy, Option.some.injEq] at hy'
    subst hy'
    exact absurd (hreal.symm.trans (hkind.trans hk)) (by decide)

theorem Settled.cost_lt_of_price (hs : Settled g p s) {c : Candidate (Signed max)} {cursor : Nat}
    (hp : s.price = .ok (some c, cursor)) {x : Arc (Signed max)} (hx : s.solution.arcs[c.arc.index]? = some x) :
    x.cost.val < s.solution.potential x.snk - s.solution.potential x.src := by
  obtain ⟨y, hy, -, -, hreduced, hneg⟩ := entering_of_price hp
  rw [hx, Option.some.injEq] at hy
  subst hy
  rw [hs.exact] at hneg
  omega

/-- After a pivot no arc costs more than it gains at the potentials before it, since only the entering arc has a reduced
cost. -/
theorem Settled.cost_le_gain (hs : Settled g p s) {r : Except SolveError (Option (Pivot (Signed max)))}
    (h : PivotRun s r s') {x : Arc (Signed max)} (hx : x ∈ s'.solution.arcs.toList) :
    x.cost.val * x.flow.val ≤ (s.solution.potential x.snk - s.solution.potential x.src) * x.flow.val := by
  have hne : s.phase ≠ .setup := by rw [hs.phase]; decide
  have hflow := (hs.toBasic.pivot h).flow (by rw [h.constants.2.2.1]; exact hne)
  obtain ⟨i, hi⟩ := mem_arcs_iff.1 hx
  cases hxt : x.inTree with
  | false => rw [hflow.idle hi hxt, mul_zero, mul_zero]
  | true =>
    refine Int.mul_le_mul_of_nonneg_right ?_ (hflow.nonneg hi)
    rcases exists_treeArc_of_pivot h (mem_treeArcs_iff.2 ⟨hx, hxt⟩) with ⟨y, hy, hyx⟩ | ⟨c, cursor, y, hp, hy, hyx⟩
    · obtain ⟨-, hsrc, hsnk, hcost, -⟩ := Arc.drained_eq_iff.1 hyx
      have htight := hs.tight hne y hy
      unfold Arc.Tight at htight
      rw [← hsrc, ← hsnk, ← hcost]
      omega
    · obtain ⟨-, hsrc, hsnk, hcost, -⟩ := Arc.drained_eq_iff.1 hyx
      have hgrow := hs.cost_lt_of_price hp hy
      rw [← hsrc, ← hsnk, ← hcost]
      exact hgrow.le

/-- The weights are worth as much at the potentials of the tree as at those that show the flow to be cheapest. -/
theorem Settled.worth_potential (hs : Settled g p s) (hg : g.WellFormed) :
    g.worth s.solution.potential = g.worth p := by
  have hne : s.phase ≠ .setup := by rw [hs.phase]; decide
  rw [← hs.certifies.costOf_eq (hs.feasible hg) hg.toNumbered, costOf_eq hg hs.toBasic hs.phase hs.empty,
    (hs.flow hne).cost_eq (hs.tight hne) hs.wellFormed.toNumbered hs.numVertices_eq]

/-- After a pivot the flow costs all that it gains at the potentials before it, or it would be cheaper. -/
theorem Settled.sum_gain_le (hs : Settled g p s) (hg : g.WellFormed)
    {r : Except SolveError (Option (Pivot (Signed max)))} (h : PivotRun s r s') :
    (s'.solution.arcs.toList.map fun x =>
        (s.solution.potential x.snk - s.solution.potential x.src) * x.flow.val).sum ≤
      (s'.solution.arcs.toList.map fun x => x.cost.val * x.flow.val).sum := by
  have hs' := hs.toBasic.pivot h
  have hphase : s'.phase = .optimal := h.constants.2.2.1.trans hs.phase
  have hflow := hs'.flow (by rw [hphase]; decide)
  have hworth := hflow.worth_eq hs'.wellFormed.toNumbered hs'.numVertices_eq
  rw [← hworth, hs.worth_potential hg, hworth]
  refine List.sum_le_sum fun x hx => ?_
  obtain ⟨i, hi⟩ := mem_arcs_iff.1 hx
  cases hxt : x.inTree with
  | false => rw [hflow.idle hi hxt, mul_zero, mul_zero]
  | true =>
    exact Int.mul_le_mul_of_nonneg_right
      (hs'.sub_le_cost hg hphase hs.certifies.under (hs.covers_pivot h) (mem_treeArcs_iff.2 ⟨hx, hxt⟩))
      (hflow.nonneg hi)

/-- The arc that enters carries nothing after the pivot. -/
theorem Settled.flowAt_entering (hs : Settled g p s) (hg : g.WellFormed)
    {r : Except SolveError (Option (Pivot (Signed max)))} (h : PivotRun s r s') {c : Candidate (Signed max)}
    {cursor : Nat} (hp : s.price = .ok (some c, cursor)) : s'.solution.flowAt c.arc = 0 := by
  have hphase : s'.phase = .optimal := h.constants.2.2.1.trans hs.phase
  have hplan := (pivot_keeps hs.tree (hs.numVertices_eq ▸ hs.root) h).1
  obtain ⟨hframe, hcosts⟩ := plan_eq_iff.1 hplan
  obtain ⟨y, hy, -⟩ := entering_of_price hp
  obtain ⟨x, hx, hxy⟩ := exists_arc_of_frame hframe.symm hy
  obtain ⟨y', hy', hcost⟩ := exists_of_map_eq hcosts hx
  rw [hy, Option.some.injEq] at hy'
  subst hy'
  obtain ⟨-, hsrc, hsnk, -⟩ := Arc.frame_eq_iff.1 hxy
  have hgrow := hs.cost_lt_of_price hp hy
  rw [(Prod.mk.inj hcost).2, ← hsrc, ← hsnk] at hgrow
  have hnonneg := ((hs.toBasic.pivot h).flow (by rw [hphase]; decide)).nonneg hx
  have hat : s'.solution.flowAt c.arc = x.flow.val := flowAt_eq hx
  rw [hat]
  by_contra h0
  refine absurd (hs.sum_gain_le hg h) (Int.not_le.2 ?_)
  refine List.sum_lt_sum _ _ (fun z hz => hs.cost_le_gain h hz) ⟨x, mem_arcs_iff.2 ⟨_, hx⟩, ?_⟩
  exact Int.mul_lt_mul_of_pos_right hgrow (by omega)

/-- A pivot of a solved instance moves no flow. What it pushes around the cycle is what the entering arc carries then. -/
theorem Settled.flowAt_pivot (hs : Settled g p s) (hg : g.WellFormed)
    {r : Except SolveError (Option (Pivot (Signed max)))} (h : PivotRun s r s') :
    s'.solution.flowAt = s.solution.flowAt := by
  have hpivot := h
  cases h with
  | noTree => rfl
  | optimal => rfl
  | noCycle _ _ hi _ hl => exact flowAt_congr ((flows_remove hl).trans (flows_insert hi))
  | unbounded _ _ hi _ _ hl => exact flowAt_congr ((flows_remove hl).trans (flows_insert hi))
  | @pivoted c cursor t g₁ cycle b g₂ t' g₃ g₄ all hphase hp hi hc hb hpush hl hu =>
    have huni := (hs.tree hphase).insert hi
    obtain ⟨⟨d, hd⟩, -, hn⟩ := huni.cycle hc
    obtain ⟨x, hx, -⟩ := huni.entering
    obtain ⟨ps, -, rfl⟩ := Incidence.computePotentials_eq_ok_iff.1 hu
    have hremove := flowAt_congr (flows_remove hl)
    have hinsert := flowAt_congr (flows_insert hi)
    have hbefore : g₁.flowAt c.arc = 0 := (flowAt_eq hx).trans (((hs.flow hphase).insert hi).2 x hx)
    have hafter : g₂.flowAt c.arc = 0 := by
      rw [← hremove]
      exact hs.flowAt_entering hg hpivot hp
    have hpushed := flowAt_push hpush hn hx
    have hsign : sign cycle c.arc.index = 1 := sign_of_mem hn (hd ▸ List.mem_cons_self)
    rw [hafter, hbefore, hsign] at hpushed
    exact hremove.trans ((flowAt_push_of_zero hpush hn (by omega)).trans hinsert)

theorem Settled.pivot (hs : Settled g p s) (hg : g.WellFormed)
    {r : Except SolveError (Option (Pivot (Signed max)))} (h : PivotRun s r s') : Settled g p s' := by
  have hflow := hs.flowAt_pivot hg h
  have hframe := (plan_eq_iff.1 (pivot_keeps hs.tree (hs.numVertices_eq ▸ hs.root) h).1).1
  exact ⟨hs.toBasic.pivot h, h.constants.2.2.1.trans hs.phase, artificial_flow_congr hs.empty hframe hflow,
    hflow ▸ hs.certifies, hs.covers_pivot h⟩

theorem Settled.pivots (hs : Settled g p s) (hg : g.WellFormed) (h : Pivots s s') : Settled g p s' := by
  induction h with
  | refl => exact hs
  | step _ h ih => exact ih.pivot hg h

theorem Settled.counters (hs : Settled g p s) (hg : g.WellFormed) (cursor pivots : Nat) (state : SolutionState) :
    Settled g p { s with cursor, pivots, state } :=
  ⟨(stable_basic hg).counters _ _ _ hs.toBasic, hs.phase, hs.empty, hs.certifies, hs.covers⟩

theorem Settled.optimize (hs : Settled g p s) (hg : g.WellFormed) {r : Except SolveError Nat}
    (h : OptimizeRun s r s') : Settled g p s' := by
  cases h with
  | noTree => exact hs
  | optimal ht => exact (hs.pivots hg ht).counters hg _ _ _
  | limited ht => exact (hs.pivots hg ht).counters hg _ _ _
  | failed ht h => exact (hs.pivots hg ht).pivot hg h

/-! ## New costs for a solved instance -/

/-- The artificial arcs of the tree will cost at least what they do, or more than a path of real arcs can cost. -/
def Outprices (s : Simplex (Signed max)) : Prop :=
  ∀ c, s.artificialCost = .ok c →
    ((s.input.numVertices : Int) - 1) * s.input.maxAbsCost < c.val ∨
      ∀ x ∈ s.solution.treeArcs, x.kind = .artificial → x.cost.val ≤ c.val

theorem Settled.restore (hs : Settled g p s) (hg : g.WellFormed) (ho : s.Outprices) {r : Except SolveError Unit}
    (h : RestoreRun s r s') : ∃ q, Settled g q s' := by
  have hs' := (stable_basic hg).restore hs.toBasic h
  cases h with
  | noTree => exact ⟨p, hs⟩
  | @restored c k k' all hphase hc hk hu =>
    have hframe := frame_restore hk
    obtain ⟨ps, -, rfl⟩ := Incidence.computePotentials_eq_ok_iff.1 hu
    have hflow : k.flowAt = s.solution.flowAt := flowAt_congr (map_restore hk fun _ _ => rfl)
    have hart : ∀ x ∈ k.artificialArcs, x.flow.val = 0 := artificial_flow_congr hs.empty hframe hflow
    have hcharges := charges_restore hk
    -- With `q` in the place of `p` only the costs of artificial arcs are left to be looked at.
    have main : ∀ q, g.Certifies q s.solution.flowAt → k.Covers q → Settled g q _ := fun q hq hcovers =>
      ⟨hs', rfl, hart, hflow ▸ hq, hcovers⟩
    rcases ho c hc with hlarge | hle
    · obtain ⟨q, hq, hnarrow⟩ := hs.certifies.exists_narrow hg.toNumbered
      refine ⟨q, main q hq fun x hx hkx => ?_⟩
      have hn : k.numVertices = g.numVertices := (numVertices_of_frame hframe).trans hs.numVertices_eq
      obtain ⟨hsrc, hsnk⟩ := (hs.wellFormed.of_frame hframe).toNumbered.ends_mem hn (mem_treeArcs_iff.1 hx).1
      have := hnarrow x.src hsrc x.snk hsnk
      rw [hcharges x hx hkx]
      rw [hs.input] at hlarge
      omega
    · refine ⟨p, main p hs.certifies fun x hx hkx => ?_⟩
      obtain ⟨hxk, hxt⟩ := mem_treeArcs_iff.1 hx
      obtain ⟨i, hi⟩ := mem_arcs_iff.1 hxk
      obtain ⟨y, hy, -, hxy⟩ := restoredCost_of_restore hk hi
      have hyt : y ∈ s.solution.treeArcs := by
        refine mem_treeArcs_iff.2 ⟨mem_arcs_iff.2 ⟨_, hy⟩, ?_⟩
        rw [hxy] at hxt
        exact hxt
      have hky : y.kind = .artificial := by
        rw [hxy] at hkx
        exact hkx
      have hcovers := hs.covers y hyt hky
      have hcost := hle y hyt hky
      rw [hcharges x hx hkx, hxy]
      show p y.snk - p y.src ≤ c.val
      omega

/-! ## The solution state -/

section
variable {F : Type} [Amount F] {s s' : Simplex F}

theorem StartRun.state_eq {r : Except SolveError Unit} (h : StartRun s r s') : s'.state = s.state := by
  cases h <;> rfl

theorem PivotRun.state_eq {r : Except SolveError (Option (Pivot F))} (h : PivotRun s r s') : s'.state = s.state := by
  cases h <;> rfl

theorem RestoreRun.state_eq {r : Except SolveError Unit} (h : RestoreRun s r s') : s'.state = s.state := by
  cases h <;> rfl

theorem Pivots.state_eq (h : Pivots s s') : s'.state = s.state := by
  induction h with
  | refl => rfl
  | step _ h ih => exact h.state_eq.trans ih

theorem OptimizeRun.state_eq {r : Except SolveError Nat} (h : OptimizeRun s r s') : s'.state = s.state := by
  cases h with
  | noTree => rfl
  | optimal ht => exact ht.state_eq
  | limited ht => exact ht.state_eq
  | failed ht h => exact h.state_eq.trans ht.state_eq

/-- Nothing is known of the solution if `solve` fails. -/
theorem SolveRun.state_of_error {e : SolveError} (h : SolveRun s (.error e) s') : s'.state = .unknown := by
  have h0 : s.renewed.state = .unknown := rfl
  cases h with
  | noTree h₁ => exact h₁.state_eq.trans h0
  | noFirst h₁ h₂ => exact h₂.state_eq.trans (h₁.state_eq.trans h0)
  | infeasible h₁ h₂ => exact h₂.state_eq.trans (h₁.state_eq.trans h0)
  | noCosts h₁ h₂ _ h₃ => exact h₃.state_eq.trans (h₂.state_eq.trans (h₁.state_eq.trans h0))
  | noSecond h₁ h₂ _ h₃ h₄ => exact h₄.state_eq.trans (h₃.state_eq.trans (h₂.state_eq.trans (h₁.state_eq.trans h0)))
  | carrying h₁ h₂ _ h₃ h₄ => exact h₄.state_eq.trans (h₃.state_eq.trans (h₂.state_eq.trans (h₁.state_eq.trans h0)))

end

/-- The states of a solver of the instance `g` whose options are changed to `allowed` ones only, as long as the answer of
the latest `solve` stands. While there is one, the first phase does not begin anew, and the costs are only restored if
artificial arcs of the tree do not get cheap. -/
inductive Standing (allowed : Options (Signed max) → Prop) (g : Network (Signed max)) : Simplex (Signed max) → Prop
  | new : Standing allowed g (.new g)
  | start {s s' r} (hs : Standing allowed g s) (hu : s.state = .unknown) (h : s.run start = .ok (r, s')) :
      Standing allowed g s'
  | optimize {s s' r} (hs : Standing allowed g s) (h : s.run optimize = .ok (r, s')) : Standing allowed g s'
  | pivot {s s' r} (hs : Standing allowed g s) (h : s.run pivot = .ok (r, s')) : Standing allowed g s'
  | checkStart {s s' r} (hs : Standing allowed g s) (h : s.run checkStart = .ok (r, s')) : Standing allowed g s'
  | restoreCosts {s s' r} (hs : Standing allowed g s) (ho : s.state = .unknown ∨ s.Outprices)
      (h : s.run restoreCosts = .ok (r, s')) : Standing allowed g s'
  | solve {s s' r} (hs : Reachable allowed g s) (h : s.run solve = .ok (r, s')) : Standing allowed g s'
  | setOptions {s o} (hs : Standing allowed g s) (ho : allowed o) : Standing allowed g { s with options := o }

theorem Standing.settled (hg : g.WellFormed) (h : Standing (fun o => o.zero = Amount.zero) g s) :
    s.state = .unknown ∨ ∃ p, Settled g p s := by
  induction h with
  | new => exact .inl rfl
  | start _ hu h => exact .inl ((startRun_of_run h).state_eq.trans hu)
  | optimize _ h ih =>
    have h := optimizeRun_of_run h
    exact ih.imp h.state_eq.trans fun ⟨p, hs⟩ => ⟨p, hs.optimize hg h⟩
  | pivot _ h ih =>
    have h := pivotRun_of_run h
    exact ih.imp h.state_eq.trans fun ⟨p, hs⟩ => ⟨p, hs.pivot hg h⟩
  | checkStart _ h ih => exact (checkRun_of_run h).2 ▸ ih
  | restoreCosts _ ho h ih =>
    have h := restoreRun_of_run h
    rcases ih with hu | ⟨p, hs⟩
    · exact .inl (h.state_eq.trans hu)
    · exact ho.imp h.state_eq.trans fun ho => hs.restore hg ho h
  | @solve s s' r hs h =>
    have hs := basic_of_reachable hg hs
    cases r with
    | error e => exact .inl (solveRun_of_run h).state_of_error
    | ok state => exact .inr ⟨_, settled_of_solveRun hg hs.input hs.exact (solveRun_of_run h)⟩
  | setOptions _ ho ih =>
    exact ih.imp_right fun ⟨p, hs⟩ =>
      ⟨p, ⟨hs.toPriced.setOptions _, by rw [ho]; rfl, hs.flow⟩, hs.phase, hs.empty, hs.certifies, hs.covers⟩

variable (R : Type) [CommRing R] [LinearOrder R] [IsStrictOrderedRing R]

/-- As long as the answer of the latest `solve` stands, whatever else is asked of a solver without a tolerance: if the
solution is said to be optimal or degenerate, no arc carries less than nothing and no artificial arc carries anything, all
weights are met, and no feasible flow costs less. -/
theorem optimal_of_standing (b : Builder (Signed max)) (h : Standing (fun o => o.zero = Amount.zero) b.network s)
    (hs : s.state ≠ .unknown) :
    s.solution.base = b.network.base ∧
      (∀ x ∈ s.solution.arcs.toList, 0 ≤ x.flow.val ∧ (x.kind = .artificial → x.flow.val = 0)) ∧
      b.network.Feasible s.solution.flowAt ∧
      ∀ y : ArcId → R, b.network.Feasible y →
        ((b.network.costOf s.solution.flowAt : Int) : R) ≤ b.network.costOf y := by
  have hg := wellFormed_network b
  obtain ⟨p, h⟩ := (h.settled hg).resolve_left hs
  have hfeasible := h.feasible hg
  refine ⟨h.base, fun x hx => ?_, hfeasible, fun y hy => h.certifies.costOf_le hfeasible hg.toNumbered hy⟩
  obtain ⟨i, hi⟩ := mem_arcs_iff.1 hx
  exact ⟨(h.flow (by rw [h.phase]; decide)).nonneg hi,
    fun hk => h.empty x (List.mem_filter.2 ⟨hx, by simp [Arc.isArtificial, hk]⟩)⟩

/-- A solver whose artificial arcs will cost `n` in the second phase. -/
def pricedAt (s : Simplex Signed8) (n : Nat) (hn : n ≤ 127) : Simplex Signed8 :=
  { s with options := { s.options with artificialCost := some (.ofNat n hn) } }

/-- A new solver of the detour whose artificial arcs cost more than the detour. -/
def ofDetour : Simplex Signed8 :=
  (new Builder.detour.network).pricedAt 123 (by decide)

theorem run_solve_ofDetour :
    ofDetour.run solve = .ok (.ok .degenerate, ofDetour.after solve) ∧
      (ofDetour.after solve).options.zero = Amount.zero := by
  decide +kernel

theorem reachable_ofDetour : Reachable (fun o => o.zero = Amount.zero) Builder.detour.network ofDetour :=
  .setOptions .new rfl

theorem optimal_of_detour : ∃ s : Simplex Signed8,
    Standing (fun o => o.zero = Amount.zero) Builder.detour.network s ∧ s.state ≠ .unknown ∧
      s.options.artificialCost = some (.ofNat 100 (by decide)) ∧
      s.solution.base = Builder.detour.network.base ∧
      (∀ x ∈ s.solution.arcs.toList, 0 ≤ x.flow.val ∧ (x.kind = .artificial → x.flow.val = 0)) ∧
      Builder.detour.network.Feasible s.solution.flowAt ∧
      ∀ y : ArcId → Int, Builder.detour.network.Feasible y →
        ((Builder.detour.network.costOf s.solution.flowAt : Int) : Int) ≤ Builder.detour.network.costOf y := by
  let s₁ := (ofDetour.after solve).pricedAt 100 (by decide)
  let s₂ := s₁.after restoreCosts
  have h₂ : s₁.run restoreCosts = .ok (.ok (), s₂) := by decide +kernel
  have h₃ : s₂.run optimize = .ok (.ok 0, s₂.after optimize) := by decide +kernel
  have ho : s₁.Outprices := by
    intro c hc
    cases hc
    exact .inl (by decide +kernel)
  obtain ⟨h₁, hz⟩ := run_solve_ofDetour
  have hs₁ : Standing (fun o => o.zero = Amount.zero) Builder.detour.network s₁ :=
    .setOptions (.solve reachable_ofDetour h₁) hz
  have hstanding := Standing.optimize (.restoreCosts hs₁ (.inr ho) h₂) h₃
  have hstate : (s₂.after optimize).state ≠ .unknown := by decide +kernel
  exact ⟨_, hstanding, hstate, by decide +kernel, optimal_of_standing Int Builder.detour hstanding hstate⟩

/-- When the first phase begins anew, the relay is still said to be solved, and when artificial arcs get cheap, flow turns
to them. -/
theorem stale_of_relay_and_detour :
    (∃ s : Simplex Signed8, Reachable (fun o => o.zero = Amount.zero) Builder.relay.network s ∧
      s.state = .optimal ∧ ∃ x ∈ s.solution.artificialArcs, x.flow.val = 3) ∧
    ∃ s : Simplex Signed8, Reachable (fun o => o.zero = Amount.zero) Builder.detour.network s ∧
      s.state = .degenerate ∧ s.phase = .optimal ∧ ∃ x ∈ s.solution.artificialArcs, x.flow.val = 1 := by
  let r := (new Builder.relay.network).after solve
  have hr : (new Builder.relay.network).run solve = .ok (.ok .optimal, r) := by decide +kernel
  have hr' : r.run start = .ok (.ok (), r.after start) := by decide +kernel
  let s₁ := (ofDetour.after solve).pricedAt 1 (by decide)
  let s₂ := s₁.after restoreCosts
  have h₂ : s₁.run restoreCosts = .ok (.ok (), s₂) := by decide +kernel
  have h₃ : s₂.run optimize = .ok (.ok 1, s₂.after optimize) := by decide +kernel
  obtain ⟨h₁, hz⟩ := run_solve_ofDetour
  have hs₁ : Reachable (fun o => o.zero = Amount.zero) Builder.detour.network s₁ :=
    .setOptions (.solve reachable_ofDetour h₁) hz
  exact ⟨⟨_, .start (.solve .new hr) hr', by decide +kernel, by decide +kernel⟩,
    _, .optimize (.restoreCosts hs₁ h₂) h₃, by decide +kernel⟩

end Simplex

end Transportation
