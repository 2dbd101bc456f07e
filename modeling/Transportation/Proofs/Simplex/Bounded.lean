import Transportation.Proofs.Network.Cost
import Transportation.Proofs.Network.Gap
import Transportation.Proofs.Simplex.Augment
import Transportation.Proofs.Simplex.Faults
/-!
# Steps within bounds

While no arc costs or saves more than `B`, the potentials of a tree on `n` vertices lie at most `(n - 1) * B` apart,
and the flow on an arc stays within the total demand. So if the number type holds `n * B` and the total demand
(`Network.Fits`), no step of a pivot overflows (`Bounded.faultsOnly_pivot`).
-/

namespace Transportation

variable {max : Nat}

/-! ## Potentials -/

namespace Network

variable {g h k : Network (Signed max)} {t : Incidence} {B : Int} {u v : VertexId} {p : VertexId → Int}

/-- No arc costs or saves more than `B`. -/
def CostsWithin (g : Network (Signed max)) (B : Int) : Prop :=
  ∀ x ∈ g.arcs.toList, |x.cost.val| ≤ B

/-- The number type holds the potentials of a tree with costs up to `B`, the costs added to them, and the flows. -/
structure Fits (g : Network (Signed max)) (B : Int) : Prop where
  pos : 0 < B
  potentials : g.numVertices * B ≤ max
  flows : g.totalDemand ≤ max

/-- Along a tight arc the potential changes by no more than the costs. -/
theorem CostsWithin.abs_sub_le (hB : g.CostsWithin B) (hg : g.Numbered) {s : Step} (hl : g.tree.Leads s u v)
    (ht : ∀ x ∈ g.treeArcs, x.id = s.arc → x.Tight p) : |p v - p u| ≤ B := by
  obtain ⟨x, hx, hid, hends⟩ := hg.leads_tree.1 hl
  obtain ⟨hlower, hupper⟩ := abs_le.1 (hB x (mem_treeArcs_iff.1 hx).1)
  have htight := ht x hx hid
  unfold Arc.Tight at htight
  refine abs_le.2 ?_
  cases hf : s.forward <;>
    simp only [hf, Bool.false_eq_true, if_true, if_false, Prod.mk.injEq] at hends <;>
    obtain ⟨rfl, rfl⟩ := hends
  all_goals constructor <;> omega

/-- The potentials of a tree lie no further apart than the costs of its longest path. -/
theorem CostsWithin.abs_potential_sub_le (hB : g.CostsWithin B) (hB0 : 0 ≤ B) (hs : SpanningTree t g) (ht : g.Tight)
    (hu : u.index < g.numVertices) (hv : v.index < g.numVertices) :
    |g.potential v - g.potential u| ≤ ((g.numVertices : Int) - 1) * B := by
  have hg := hs.wellFormed.toNumbered
  exact Network.abs_potential_sub_le hg.within_tree hB0 (fun hl => hB.abs_sub_le hg hl fun x hx _ => ht x hx) hu hv
    (hs.spans u v hu hv)

/-- The potentials found so far lie within the costs of the longest path. -/
theorem CostsWithin.abs_potentialAt_le (hB : g.CostsWithin B) (hB0 : 0 ≤ B) (hg : g.Numbered) {root : VertexId}
    {S : VertexId → Prop} {ps : Array (Signed max)} [NeZero max]
    (h : Incidence.Potentials Arc.Tightens (fun _ => True) g root S ps) (hroot : root.index < g.numVertices)
    (hv : v.index < g.numVertices) (hS : S v) : |potentialAt ps v| ≤ ((g.numVertices : Int) - 1) * B := by
  have hle := Network.abs_potential_sub_le (T := Incidence.relatedTree Arc.Tightens g S ps) (p := potentialAt ps)
    (fun hl => hg.within_tree (Incidence.leads_relatedTree.1 hl).1) hB0 (fun {s x y} hl => ?_) hroot hv
    (h.connected v hS)
  · rwa [potentialAt_eq (h.at_root hroot), Signed.zero_val, sub_zero] at hle
  · obtain ⟨hl, z, hz, hid, -, -, htight⟩ := Incidence.leads_relatedTree.1 hl
    refine hB.abs_sub_le hg hl fun x hx hxid => ?_
    rw [hg.eq_of_id_eq (mem_treeArcs_iff.1 hx).1 (mem_treeArcs_iff.1 hz).1 (hxid.trans hid.symm)]
    exact tight_of_related htight

variable [NeZero max] {P : Fault → Prop}

theorem CostsWithin.faultsOnly_computePotentials (hB : g.CostsWithin B) (hB0 : 0 ≤ B) (hmax : g.numVertices * B ≤ max)
    (hg : g.Numbered) (ht : t.ListsTree g) {root : VertexId}
    (hroot : g.numVertices ≠ 0 → root.index < g.numVertices) :
    Checked.FaultsOnly P (t.computePotentials g root) := by
  have hc := carries_tightens g
  refine Incidence.faultsOnly_computePotentials hg ht.holds hroot (Incidence.potentials_kept hg hc)
    (Incidence.guarded_extendPotential hg (fun h => h.size) fun {S x u v ps p} hx hl hu hps hp => ?_)
    (Incidence.potentials_start hc)
  have hlt := hg.within_tree hl
  have hle := hB.abs_potentialAt_le hB0 hg hps (hroot (by omega)) hlt hu
  rw [potentialAt_eq hp, sub_mul, one_mul] at hle
  obtain ⟨hlower, hupper⟩ := abs_le.1 hle
  obtain ⟨hclower, hcupper⟩ := abs_le.1 (hB x (mem_treeArcs_iff.1 hx).1)
  unfold Arc.potentialFrom
  split
  · exact Signed.faultsOnly_add (by omega) (by omega)
  · exact Signed.faultsOnly_sub (by omega) (by omega)

/-! ## Costs -/

omit [NeZero max] in
theorem CostsWithin.of_plan (hB : h.CostsWithin B) (e : k.plan = h.plan) : k.CostsWithin B := by
  intro x hx
  obtain ⟨i, hi⟩ := mem_arcs_iff.1 hx
  obtain ⟨y, hy, hxy⟩ := exists_of_map_eq (plan_eq_iff.1 e).2 hi
  rw [← (Prod.mk.inj hxy).2]
  exact hB y (mem_arcs_iff.2 ⟨_, hy⟩)

/-- In the first phase an arc costs one or nothing. -/
theorem costsWithin_of_initial (hh : g.HasCosts .initial h) (hB : 0 < B) : h.CostsWithin B := by
  intro x hx
  obtain ⟨i, hi⟩ := mem_arcs_iff.1 hx
  have hcost := hh hi
  cases hk : x.kind <;> rw [hk] at hcost <;> rw [show x.cost = _ from hcost]
  · rw [Signed.zero_val, abs_zero]
    omega
  · rw [Signed.one_val, abs_one]
    omega

omit [NeZero max] in
/-- Restored costs are costs of the instance, the artificial cost, or as they were. -/
theorem costsWithin_restore {c : Signed max} (e : g.restore c h = .ok k) (hh : h.CostsWithin B) (hc : |c.val| ≤ B)
    (hg : (g.maxAbsCost : Int) ≤ B) : k.CostsWithin B := by
  intro y hy
  obtain ⟨i, hi⟩ := mem_arcs_iff.1 hy
  obtain ⟨x, hx, hcost, -⟩ := restoredCost_of_restore e hi
  unfold restoredCost at hcost
  cases hk : x.kind with
  | real =>
    simp only [hk, Checked.bind_eq_ok_iff, arc_eq_ok_iff, Checked.pure_eq_ok_iff] at hcost
    obtain ⟨z, hz, hzy⟩ := hcost
    have hle := natAbs_le_maxAbsCost (mem_arcs_iff.2 ⟨_, hz⟩)
    rw [← hzy]
    exact abs_le.2 ⟨by omega, by omega⟩
  | artificial =>
    simp only [hk, Checked.pure_eq_ok_iff] at hcost
    rw [← hcost]
    split
    · exact hc
    · exact hh x (mem_arcs_iff.2 ⟨_, hx⟩)

end Network

namespace Simplex

open Network Checked

variable [NeZero max] {g : Network (Signed max)} {s s' : Simplex (Signed max)} {B : Int} {P : Fault → Prop}

/-! ## The invariant -/

/-- What holds of every solver of the instance `g` without a tolerance, as long as no arc of its working copy costs or
saves more than `B`. -/
structure Bounded (g : Network (Signed max)) (B : Int) (s : Simplex (Signed max)) : Prop
    extends Basic g s, Anchored g s where
  within : s.phase ≠ .setup → s.solution.CostsWithin B

theorem bounded_of_start (hg : g.WellFormed) (hB : 0 < B) (hin : s.input = g) (hz : s.options.zero.val = 0)
    (h : StartRun s (.ok ()) s') : Bounded g B s' := by
  obtain ⟨hphase, hs⟩ := basic_of_started hg hin hz h
  obtain ⟨h, -⟩ | ⟨-, -, hanchored⟩ := anchored_of_start hg hin h
  · cases h
  exact ⟨hs, hanchored.anchor, fun _ => costsWithin_of_initial (hphase ▸ @(hs.costs)) hB⟩

theorem Bounded.pivot (hs : Bounded g B s) {r : Except SolveError (Option (Pivot (Signed max)))}
    (h : PivotRun s r s') : Bounded g B s' := by
  refine ⟨hs.toBasic.pivot h, (hs.toAnchored.pivot h).anchor, ?_⟩
  rw [h.constants.2.2.1]
  exact fun hphase => (hs.within hphase).of_plan (pivot_keeps hs.tree (hs.numVertices_eq ▸ hs.root) h).1

theorem Bounded.restore (hs : Bounded g B s) (hg : g.WellFormed) (hcost : (g.maxAbsCost : Int) ≤ B)
    (hc : ∀ c, s.artificialCost = .ok c → |c.val| ≤ B) {r : Except SolveError Unit} (h : RestoreRun s r s') :
    Bounded g B s' := by
  refine ⟨(stable_basic hg).restore hs.toBasic h, (hs.toAnchored.restore h).anchor, ?_⟩
  cases h with
  | noTree => exact hs.within
  | restored hphase hM hk hu =>
    obtain ⟨ps, -, rfl⟩ := Incidence.computePotentials_eq_ok_iff.1 hu
    rw [hs.input] at hk
    exact fun _ x hx => costsWithin_restore hk (hs.within hphase) (hc _ hM) hcost x hx

theorem Bounded.pivots (hs : Bounded g B s) (h : Pivots s s') : Bounded g B s' := by
  induction h with
  | refl => exact hs
  | step _ h ih => exact ih.pivot h

theorem Bounded.optimize (hs : Bounded g B s) (hg : g.WellFormed) {k : Nat} (h : OptimizeRun s (.ok k) s') :
    Bounded g B s' := by
  cases h with
  | optimal ht _ =>
    have hs' := hs.pivots ht
    exact ⟨(stable_basic hg).counters _ _ _ hs'.toBasic, hs'.anchor, hs'.within⟩

/-! ## Pricing -/

/-- A potential, and the difference of two, leaves room for a cost to be added. -/
theorem Bounded.abs_potential_le (hs : Bounded g B s) (hf : g.Fits B) (hphase : s.phase ≠ .setup) {u v : VertexId}
    (hu : u.index < s.solution.numVertices) (hv : v.index < s.solution.numVertices) :
    |s.solution.potential u| ≤ max - B ∧ |s.solution.potential v - s.solution.potential u| ≤ max - B := by
  have hroot := hs.root_lt hphase rfl (by omega)
  have hB0 := Int.le_of_lt hf.pos
  have hmax := hf.potentials
  rw [← hs.numVertices_eq] at hmax
  have h₁ := (hs.within hphase).abs_potential_sub_le hB0 (hs.tree hphase) (hs.tight hphase) hroot hu
  have h₂ := (hs.within hphase).abs_potential_sub_le hB0 (hs.tree hphase) (hs.tight hphase) hu hv
  rw [hs.anchor hphase, sub_zero, sub_mul, one_mul] at h₁
  rw [sub_mul, one_mul] at h₂
  exact ⟨by omega, by omega⟩

theorem Bounded.faultsOnly_price (hs : Bounded g B s) (hf : g.Fits B) (hphase : s.phase ≠ .setup) :
    FaultsOnly P s.price := by
  have hg := hs.wellFormed.toNumbered
  refine Simplex.faultsOnly_price (Signed.faultsOnly_neg (by rw [hs.exact]; omega)) fun a ha => ?_
  refine faultsOnly_reducedCost? hg ha fun {x v w} hx _ hv hw => ?_
  obtain ⟨hp, hd⟩ := hs.abs_potential_le hf hphase (hg.src_lt hx) (hg.snk_lt hx)
  rw [potential_eq hv] at hp hd
  rw [potential_eq hw] at hd
  obtain ⟨hclower, hcupper⟩ := abs_le.1 (hs.within hphase x (mem_arcs_iff.2 ⟨_, hx⟩))
  obtain ⟨hplower, hpupper⟩ := abs_le.1 hp
  obtain ⟨hdlower, hdupper⟩ := abs_le.1 hd
  refine ⟨Signed.faultsOnly_add (by omega) (by omega), fun d hd => ?_⟩
  have hd := Signed.add_eq_ok_iff.1 hd
  exact Signed.faultsOnly_sub (by omega) (by omega)

/-! ## Pivots -/

variable {c : Candidate (Signed max)} {t : Incidence} {h : Network (Signed max)} {cycle : List Step}

/-- Comparing the arcs of the cycle does not overflow, since no flow is negative. -/
theorem Bounded.faultsOnly_blocking? (hs : Bounded g B s) (hc : s.Closes c t h cycle) :
    FaultsOnly P (h.blocking? s.options.zero cycle) := by
  obtain ⟨hflow, -⟩ := (hs.flow hc.phase).insert hc.insert
  have hnonneg : ∀ {b : Blocking (Signed max)}, h.Blocks cycle b → 0 ≤ b.flow.val := by
    rintro b ⟨x, hx, hb, -, -⟩
    rw [hb]
    exact hflow.nonneg hx
  refine Network.faultsOnly_blocking? (hc.exists_arc hs.tree) fun {b best} hb hbest => ?_
  have hb0 := hnonneg hb
  have hbest0 := hnonneg hbest
  have hbmax := b.flow.upper
  have hbestmax := best.flow.upper
  have hz := hs.exact
  refine faultsOnly_beats ?_ ?_ fun d hd => ?_
  · exact Signed.faultsOnly_sub (by omega) (by omega)
  · exact Signed.faultsOnly_sub (by omega) (by omega)
  · have hd := Signed.sub_eq_ok_iff.1 hd
    exact Signed.faultsOnly_abs (by omega)

/-- An arc walked forward takes no more than the demand leaves it, and one walked backward gives what it has. -/
theorem Bounded.faultsOnly_push (hs : Bounded g B s) (hf : g.Fits B) (hc : s.Closes c t h cycle)
    {b : Blocking (Signed max)} (hb : h.blocking? s.options.zero cycle = .ok (some b)) :
    FaultsOnly P (h.push b.flow cycle) := by
  have huni := (hs.tree hc.phase).insert hc.insert
  obtain ⟨hflow, -⟩ := (hs.flow hc.phase).insert hc.insert
  obtain ⟨-, ⟨u, hw⟩, hn⟩ := huni.cycle hc.cycle
  obtain ⟨y, hy, hby, -, hback⟩ := blocks_of_blocking? hb
  have hy0 := hflow.nonneg hy
  have hvertices : h.numVertices = g.numVertices :=
    (numVertices_of_plan (plan_insert hc.insert)).trans hs.numVertices_eq
  refine Network.faultsOnly_push hn fun step hstep => ?_
  obtain ⟨x, hx, -⟩ := huni.wellFormed.toNumbered.exists_of_walk hw (List.mem_map_of_mem hstep)
  refine ⟨x, hx, ?_⟩
  have hx0 := hflow.nonneg hx
  have hxmax := x.flow.upper
  obtain ⟨a, forward⟩ := step
  cases forward with
  | true =>
    have hle := huni.flow_add_le hflow hvertices hw hn hx hstep hy hback
    have hmax := hf.flows
    rw [← hby] at hle hy0
    exact Signed.faultsOnly_add (by omega) (by omega)
  | false =>
    have hle := le_of_blocking? (separated_of_zero hs.exact) hb hstep hx
    rw [← hby] at hy0
    exact Signed.faultsOnly_sub (by omega) (by omega)

theorem Bounded.faultsOnly_pivot (hs : Bounded g B s) (hf : g.Fits B) : FaultsOnly P (s.run Simplex.pivot) := by
  refine Simplex.faultsOnly_pivot hs.tree (hs.faultsOnly_price hf) (fun hc => hs.faultsOnly_blocking? hc)
    (fun hc hb => hs.faultsOnly_push hf hc hb) fun {c t h cycle b h₁ t' h₂} hc hb hpush hl => ?_
  have htree := (hs.tree hc.phase).exchange hc.insert hc.cycle hb hpush hl
  have hplan := plan_exchange hc.insert hpush hl
  have hn := numVertices_of_plan hplan
  refine ((hs.within hc.phase).of_plan hplan).faultsOnly_computePotentials (Int.le_of_lt hf.pos) ?_
    htree.wellFormed.toNumbered htree.lists (hs.root_lt hc.phase hn)
  rw [hn, hs.numVertices_eq]
  exact hf.potentials

end Simplex

end Transportation
