import Transportation.Proofs.Simplex.BasicFlow
import Transportation.Proofs.Simplex.Sound
/-!
# The flow of a tree

A tree arc carries the net flow of all vertices on the side of its sink, when it is taken out of the tree
(`flow_eq_sum_net`). So a tree admits one flow for given net flows. Pivots change no net flow, which is that of the star
at every moment, and whatever way led to a tree, the flow on it is the same (`flows_of_reachable`).
-/

namespace Transportation

variable {max : Nat}

namespace Network

variable {g h k : Network (Signed max)} {t : Incidence}

/-! ## Flows on one tree -/

/-- Tree arcs other than `a` join vertices on one side of it. -/
theorem connected_without_iff (hh : h.Numbered) {a : ArcId} {x : Arc (Signed max)} (hx : x ∈ h.treeArcs)
    (hne : x.id ≠ a) (v : VertexId) :
    (h.tree.without a).Connected v x.snk ↔ (h.tree.without a).Connected v x.src := by
  have hl : (h.tree.without a).Leads ⟨x.id, true⟩ x.src x.snk :=
    ArcSet.leads_without_iff.2 ⟨hh.leads_of_mem hx, hne⟩
  exact ⟨fun h => h.trans hl.connected.symm, fun h => h.trans hl.connected⟩

open Classical in
/-- A tree arc carries the net flow of the vertices that are connected to its sink without it. -/
theorem flow_eq_sum_net (hh : h.Numbered) (hforest : h.tree.Forest) (hidle : h.Idle) {x : Arc (Signed max)}
    (hx : x ∈ h.treeArcs) : x.flow.val =
      ∑ v ∈ h.vertexSet, if (h.tree.without x.id).Connected x.snk v then h.net v else 0 := by
  -- The potential is one on the side of the sink and zero elsewhere, so no other arc with flow crosses it.
  let p : VertexId → Int := fun v => if (h.tree.without x.id).Connected x.snk v then 1 else 0
  have hacross : ∀ y ∈ h.arcs.toList, (p y.snk - p y.src) * y.flow.val = if y.id = x.id then x.flow.val else 0 := by
    intro y hy
    obtain ⟨i, hi⟩ := mem_arcs_iff.1 hy
    by_cases hid : y.id = x.id
    · obtain rfl : y = x := List.inj_on_of_nodup_map hh.nodup_ids hy (mem_treeArcs_iff.1 hx).1 hid
      have hl : h.tree.Leads ⟨y.id, true⟩ y.src y.snk := hh.leads_of_mem hx
      have hsnk : p y.snk = 1 := if_pos (.refl _ _)
      have hsrc : p y.src = 0 := if_neg fun hc => hforest hl hc.symm
      rw [hsnk, hsrc, if_pos rfl]
      ring
    · rw [if_neg hid]
      cases ht : y.inTree with
      | false => rw [hidle i y hi ht, mul_zero]
      | true =>
        have hsame : p y.snk = p y.src :=
          if_congr (connected_without_iff hh (mem_treeArcs_iff.2 ⟨hy, ht⟩) hid _) rfl rfl
        rw [hsame, sub_self, zero_mul]
  calc x.flow.val
      = (h.arcs.toList.map fun y => (p y.snk - p y.src) * y.flow.val).sum := by
        rw [List.map_congr_left hacross, hh.sum_ite_id (mem_treeArcs_iff.1 hx).1]
    _ = ∑ v ∈ h.vertexSet, p v * h.net v := (sum_mul_netFlow fun y hy => hh.ends_mem rfl hy).symm
    _ = ∑ v ∈ h.vertexSet, if (h.tree.without x.id).Connected x.snk v then h.net v else 0 := by
        refine Finset.sum_congr rfl fun v _ => ?_
        rw [ite_mul, one_mul, zero_mul]

theorem mem_treeIds_iff (hh : h.Numbered) {i : Nat} {x : Arc (Signed max)} (hx : h.arcs[i]? = some x) :
    ⟨i⟩ ∈ h.treeArcs.map Arc.id ↔ x.inTree = true := by
  rw [List.mem_map]
  constructor
  · rintro ⟨y, hy, hid⟩
    obtain ⟨hy, ht⟩ := mem_treeArcs_iff.1 hy
    have hy := hh.getElem?_id hy
    rw [hid, hx, Option.some.injEq] at hy
    rwa [hy]
  · exact fun ht => ⟨x, mem_treeArcs_iff.2 ⟨mem_arcs_iff.2 ⟨i, hx⟩, ht⟩, hh.arc_id hx⟩

/-- Networks of one frame with the same tree arcs have the same tree flags. -/
theorem inTree_eq_of_ids (hh : h.Numbered) (hframe : k.frame = h.frame)
    (htree : ∀ a, a ∈ k.treeArcs.map Arc.id ↔ a ∈ h.treeArcs.map Arc.id) {i : Nat} {x y : Arc (Signed max)}
    (hx : h.arcs[i]? = some x) (hy : k.arcs[i]? = some y) : y.inTree = x.inTree := by
  rw [Bool.eq_iff_iff, ← mem_treeIds_iff hh hx, ← mem_treeIds_iff (hh.of_frame hframe) hy]
  exact htree _

theorem tree_eq_of_ids (hh : h.Numbered) (hframe : k.frame = h.frame)
    (htree : ∀ a, a ∈ k.treeArcs.map Arc.id ↔ a ∈ h.treeArcs.map Arc.id) : k.tree = h.tree := by
  have e : k.arcs.map (fun x => (x.src, x.snk, x.inTree)) = h.arcs.map fun x => (x.src, x.snk, x.inTree) := by
    refine map_arcs_of_frame hframe fun hx hy hxy => ?_
    obtain ⟨-, hsrc, hsnk, -⟩ := Arc.frame_eq_iff.1 hxy
    rw [hsrc, hsnk, inTree_eq_of_ids hh hframe htree hx hy]
  exact tree_congr (hh.of_frame hframe) hh fun i => by simpa using congrArg (·[i]?) e

/-- Networks of one frame in which the same arcs form a forest have the same flow if no arc outside the forest carries
anything and the net flows are the same. -/
theorem flow_eq_of_net (hh : h.Numbered) (hforest : h.tree.Forest) (hidle : h.Idle) (kidle : k.Idle)
    (hframe : k.frame = h.frame) (htree : ∀ a, a ∈ k.treeArcs.map Arc.id ↔ a ∈ h.treeArcs.map Arc.id)
    (hnet : ∀ v, k.net v = h.net v) : k.arcs.map Arc.flow = h.arcs.map Arc.flow := by
  have hset : k.vertexSet = h.vertexSet := by
    ext v
    rw [mem_vertexSet_iff, mem_vertexSet_iff, numVertices_of_frame hframe]
  have htrees := tree_eq_of_ids hh hframe htree
  refine map_arcs_of_frame hframe fun {i x y} hx hy hxy => Signed.ext ?_
  obtain ⟨hid, -, hsnk, -⟩ := Arc.frame_eq_iff.1 hxy
  have ht := inTree_eq_of_ids hh hframe htree hx hy
  cases htx : x.inTree with
  | false => rw [hidle i x hx htx, kidle i y hy (ht.trans htx)]
  | true =>
    have hx := mem_treeArcs_iff.2 ⟨mem_arcs_iff.2 ⟨i, hx⟩, htx⟩
    have hy := mem_treeArcs_iff.2 ⟨mem_arcs_iff.2 ⟨i, hy⟩, ht.trans htx⟩
    rw [flow_eq_sum_net hh hforest hidle hx, flow_eq_sum_net (hh.of_frame hframe) (htrees ▸ hforest) kidle hy, htrees,
      hset, hid, hsnk]
    simp only [hnet]

/-! ## The net flow of the star -/

variable [NeZero max] {t' : Incidence} {a : ArcId}

/-- The arcs of `h` are those of the star of `g`, and carry the same net flow on tree arcs alone. -/
structure StarFlow (g h : Network (Signed max)) : Prop where
  star : ∃ k, g.star = .ok k ∧ h.frame = k.frame ∧ ∀ v, h.net v = k.net v
  idle : h.Idle

theorem StarFlow.congr (hh : StarFlow g h) (hframe : k.frame = h.frame) (hnet : ∀ v, k.net v = h.net v)
    (hidle : k.Idle) : StarFlow g k := by
  obtain ⟨star, hstar, hframe', hnet'⟩ := hh.star
  exact ⟨⟨star, hstar, hframe.trans hframe', fun v => (hnet v).trans (hnet' v)⟩, hidle⟩

theorem starFlow_star (hg : g.WellFormed) (e : g.star = .ok h) : StarFlow g h :=
  ⟨⟨h, e, rfl, fun _ => rfl⟩, fun _ _ hx ht => by rw [(star_of_eq_ok hg e).idle hx ht, Signed.zero_val]⟩

/-- The entering arc may leave again. -/
theorem StarFlow.insert_remove (hh : StarFlow g h) {t₁ t₂ : Incidence} {h₁ : Network (Signed max)}
    (hi : t.insert h a = .ok (t₁, h₁)) (hl : t₁.remove h₁ a = .ok (t₂, k)) : StarFlow g k := by
  obtain ⟨hidle, hzero⟩ := hh.idle.insert hi
  refine hh.congr (plan_eq_iff.1 ((plan_remove hl).trans (plan_insert hi))).1 (fun v => ?_) (hidle.remove hl hzero)
  rw [net_remove hl, net_insert hi]

/-- A pivot pushes around a cycle of tree arcs what the arc that leaves has to give. -/
theorem StarFlow.exchange (hh : StarFlow g h) (hs : SpanningTree t h) {t₁ t₂ : Incidence}
    {h₁ h₂ : Network (Signed max)} {cycle : List Step} {tolerance : Signed max} {b : Blocking (Signed max)}
    (hi : t.insert h a = .ok (t₁, h₁)) (hc : t₁.findCycle? h₁ a = .ok (some cycle))
    (hb : h₁.blocking? tolerance cycle = .ok (some b)) (hpush : h₁.push b.flow cycle = .ok h₂)
    (hl : t₁.remove h₂ b.arc = .ok (t₂, k)) : StarFlow g k := by
  have huni := hs.insert hi
  have hn := huni.wellFormed.toNumbered
  obtain ⟨-, ⟨u, hw⟩, hnodup⟩ := huni.cycle hc
  have hidle := (hh.idle.insert hi).1.push hn hpush hw hnodup
  refine hh.congr (plan_eq_iff.1 (plan_exchange hi hpush hl)).1 (fun v => ?_)
    (hidle.remove hl (flow_of_blocking? hb hpush hnodup))
  rw [net_remove hl, net_push hn hpush hw, net_insert hi]
  ring

theorem StarFlow.computePotentials (hh : StarFlow g h) (hs : SpanningTree t h) {root : VertexId} {all : Bool}
    (hroot : h.numVertices ≠ 0 → root.index < h.numVertices) (e : t.computePotentials h root = .ok (k, all)) :
    StarFlow g k := by
  obtain ⟨-, -, hframe, harcs⟩ := hs.computePotentials hroot e
  exact hh.congr hframe (net_congr (by rw [harcs])) (hh.idle.congr (by rw [harcs]))

theorem StarFlow.restore (hh : StarFlow g h) {c : Signed max} (e : g.restore c h = .ok k) : StarFlow g k :=
  hh.congr (frame_restore e) (net_congr (map_restore e fun _ _ => rfl)) (hh.idle.congr (map_restore e fun _ _ => rfl))

end Network

namespace Simplex

open Network

variable [NeZero max] {g : Network (Signed max)} {s s' : Simplex (Signed max)}

/-- What holds of every solver of the instance `g`, whatever its tolerance is. -/
structure Carries (g : Network (Signed max)) (s : Simplex (Signed max)) : Prop extends Sound g s where
  flow : s.phase ≠ .setup → StarFlow g s.solution

theorem carries_of_start (hg : g.WellFormed) (hs : Carries g s) {r : Except SolveError Unit} (h : StartRun s r s') :
    Carries g s' := by
  refine ⟨(stable_sound hg).start hs.toSound h, ?_⟩
  cases h with
  | unbalanced => exact hs.flow
  | started _ hstar ht hu =>
    rw [hs.input] at hstar
    have hk := star_of_eq_ok hg hstar
    exact fun _ => (starFlow_star hg hstar).computePotentials (spanningTree_star hk ht)
      (firstSupplier_lt hk.wellFormed.toNumbered) hu

theorem Carries.pivot (hs : Carries g s) {r : Except SolveError (Option (Pivot (Signed max)))}
    (h : PivotRun s r s') : Carries g s' := by
  refine ⟨hs.toSound.pivot h, ?_⟩
  rw [h.constants.2.2.1]
  cases h with
  | noTree => exact hs.flow
  | optimal => exact hs.flow
  | noCycle hphase _ hi _ hl => exact fun _ => (hs.flow hphase).insert_remove hi hl
  | unbounded hphase _ hi _ _ hl => exact fun _ => (hs.flow hphase).insert_remove hi hl
  | pivoted hphase _ hi hc hb hpush hl hu =>
    have hn := numVertices_of_plan (plan_exchange hi hpush hl)
    exact fun _ => ((hs.flow hphase).exchange (hs.tree hphase) hi hc hb hpush hl).computePotentials
      ((hs.tree hphase).exchange hi hc hb hpush hl) (hs.root_lt hphase hn) hu

theorem stable_carries (hg : g.WellFormed) : Stable (Carries g) where
  start hs h := carries_of_start hg hs h
  pivot hs h := hs.pivot h
  restore hs h := by
    refine ⟨hs.toSound.restore h, ?_⟩
    cases h with
    | noTree => exact hs.flow
    | restored hphase _ hk hu =>
      rw [hs.input] at hk
      have hframe := frame_restore hk
      have hn := numVertices_of_frame hframe
      have htree := (hs.tree hphase).congr (hs.wellFormed.of_frame hframe) hn (map_restore hk fun _ _ => rfl)
      exact fun _ => ((hs.flow hphase).restore hk).computePotentials htree (hs.root_lt hphase hn) hu
  counters _ _ _ hs := ⟨(stable_sound hg).counters _ _ _ hs.toSound, hs.flow⟩

theorem carries_of_reachable (hg : g.WellFormed) {allowed : Options (Signed max) → Prop}
    (h : Reachable allowed g s) : Carries g s :=
  (stable_carries hg).reachable ⟨sound_new hg, fun h => absurd rfl h⟩ (fun hs _ => ⟨hs.toSound.setOptions _, hs.flow⟩) h

/-- Whatever was asked of two solvers of one instance, and with whatever options, their working copies differ outside
the setup in costs, flows, tree flags and potentials only, and if the same arcs are tree arcs in both, then all arcs carry
the same flow. -/
theorem flows_of_reachable (b : Builder (Signed max)) {t : Simplex (Signed max)}
    (hs : Reachable (fun _ => True) b.network s) (ht : Reachable (fun _ => True) b.network t)
    (hps : s.phase ≠ .setup) (hpt : t.phase ≠ .setup)
    (htree : ∀ a, a ∈ s.solution.treeArcs.map Arc.id ↔ a ∈ t.solution.treeArcs.map Arc.id) :
    s.solution.frame = t.solution.frame ∧ s.solution.arcs.map Arc.flow = t.solution.arcs.map Arc.flow := by
  have hg := wellFormed_network b
  have hcs := carries_of_reachable hg hs
  have hct := carries_of_reachable hg ht
  obtain ⟨k, hk, hsframe, hsnet⟩ := (hcs.flow hps).star
  obtain ⟨k', hk', htframe, htnet⟩ := (hct.flow hpt).star
  obtain rfl : k = k' := Except.ok.inj (hk.symm.trans hk')
  have hframe := hsframe.trans htframe.symm
  exact ⟨hframe, flow_eq_of_net hct.wellFormed.toNumbered (hct.tree hpt).forest (hct.flow hpt).idle (hcs.flow hps).idle
    hframe htree fun v => (hsnet v).trans (htnet v).symm⟩

/-- Options with a tolerance of one. -/
def tolerant : Options Signed8 :=
  ⟨.roundRobin, .one, none, none⟩

/-- Options for a phase of at most five pivots. -/
def fivePivots : Options Signed8 :=
  ⟨.roundRobin, .zero, none, some 5⟩

/-- One solver has found the optimum. The other began with a tolerance and has finished the first phase without. -/
theorem flows_of_relay : ∃ s t : Simplex Signed8, Reachable (fun _ => True) Builder.relay.network s ∧
    Reachable (fun _ => True) Builder.relay.network t ∧ s.phase = .optimal ∧ t.phase = .initial ∧
    s.solution ≠ t.solution ∧ s.solution.frame = t.solution.frame ∧
    (∀ a, a ∈ s.solution.treeArcs.map Arc.id ↔ a ∈ t.solution.treeArcs.map Arc.id) ∧
    s.solution.arcs.map Arc.flow = t.solution.arcs.map Arc.flow := by
  have hsolve : (new Builder.relay.network).run solve =
      .ok (.ok .optimal, (new Builder.relay.network).after solve) := by decide +kernel
  have hstart : (fresh Builder.relay.network tolerant).run start =
      .ok (.ok (), (fresh Builder.relay.network tolerant).after start) := by decide +kernel
  let t : Simplex Signed8 := { (fresh Builder.relay.network tolerant).after start with options := fivePivots }
  have hoptimize : t.run optimize = .ok (.ok 2, t.after optimize) := by decide +kernel
  have hs : Reachable (fun _ => True) Builder.relay.network ((new Builder.relay.network).after solve) :=
    .solve .new hsolve
  have ht : Reachable (fun _ => True) Builder.relay.network (t.after optimize) :=
    .optimize (.setOptions (.start (.setOptions .new trivial) hstart) trivial) hoptimize
  have hps : ((new Builder.relay.network).after solve).phase = .optimal := by decide +kernel
  have hpt : (t.after optimize).phase = .initial := by decide +kernel
  have hids : ((new Builder.relay.network).after solve).solution.treeArcs.map Arc.id =
      (t.after optimize).solution.treeArcs.map Arc.id := by decide +kernel
  have htree : ∀ a, a ∈ ((new Builder.relay.network).after solve).solution.treeArcs.map Arc.id ↔
      a ∈ (t.after optimize).solution.treeArcs.map Arc.id := fun a => by rw [hids]
  obtain ⟨hframe, hflow⟩ := flows_of_reachable Builder.relay hs ht (by rw [hps]; decide) (by rw [hpt]; decide) htree
  exact ⟨_, _, hs, ht, hps, hpt, by decide +kernel, hframe, htree, hflow⟩

end Simplex

end Transportation
