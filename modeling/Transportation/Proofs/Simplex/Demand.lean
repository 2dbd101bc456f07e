import Mathlib.Algebra.BigOperators.Group.List.Basic
import Mathlib.Algebra.Order.BigOperators.Group.Finset
import Transportation.Proofs.Simplex.Tolerance
/-!
# Flows and the demand

In a spanning tree the arcs into a vertex carry the net weight of what they lead to: the vertices connected to it
otherwise (`inflow_eq`). So no vertex, and no arc, takes more than the total demand. If the number type holds the
demand, the excess of a vertex can be computed.
-/

namespace Transportation

section
variable {F R : Type} [CommRing R] {l : List (Arc F)} {x : Arc F → R} {u : VertexId}

def inflow (l : List (Arc F)) (x : Arc F → R) (u : VertexId) : R :=
  (l.map fun a => if a.snk = u then x a else 0).sum

def outflow (l : List (Arc F)) (x : Arc F → R) (u : VertexId) : R :=
  (l.map fun a => if a.src = u then x a else 0).sum

theorem netFlow_eq : netFlow l x u = inflow l x u - outflow l x u := by
  induction l with
  | nil => simp [inflow, outflow]
  | cons a l ih =>
    simp only [netFlow_cons, ih, Arc.brings, inflow, outflow, List.map_cons, List.sum_cons]
    ring

end

/-- The arcs that do not lead into `u`. -/
def ArcSet.notInto (T : ArcSet) (u : VertexId) : ArcSet :=
  ⟨fun a => (T.ends a).filter (·.2 ≠ u)⟩

namespace Network

variable {max : Nat} {g h : Network (Signed max)} {t : Incidence} {u : VertexId}

/-- The sum of the weights that are not negative. -/
def totalDemand (g : Network (Signed max)) : Int :=
  ((g.vertices.toList.map fun v => v.weight.val).filter (0 ≤ ·)).sum

theorem totalDemand_eq (g : Network (Signed max)) :
    g.totalDemand = ∑ v ∈ g.vertexSet, if 0 ≤ g.weightAt v then g.weightAt v else 0 := by
  rw [← sum_weights fun w => if 0 ≤ w then w else 0, totalDemand]
  induction g.vertices.toList with
  | nil => rfl
  | cons v l ih =>
    simp only [List.map_cons, List.sum_cons, ← ih, List.filter_cons, decide_eq_true_eq]
    split <;> simp

/-- No set of vertices needs more than the total demand. -/
theorem sum_weights_le (S : VertexId → Prop) [DecidablePred S] :
    (∑ v ∈ g.vertexSet, if S v then g.weightAt v else 0) ≤ g.totalDemand := by
  rw [totalDemand_eq]
  refine Finset.sum_le_sum fun v _ => ?_
  split <;> split <;> omega

/-- The side of `u` when the arcs into `u` are cut. -/
theorem connected_notInto_iff (hs : SpanningTree t h) {x : Arc (Signed max)} (hx : x ∈ h.treeArcs)
    (hu : x.snk ≠ u) : (h.tree.notInto u).Connected u x.snk ↔ (h.tree.notInto u).Connected u x.src := by
  have hl : (h.tree.notInto u).Leads ⟨x.id, true⟩ x.src x.snk := by
    have hends := hs.wellFormed.ends_tree.2 ⟨x, hx, rfl, rfl⟩
    simp [ArcSet.Leads, ArcSet.notInto, hends, hu]
  exact ⟨fun h => h.trans hl.connected.symm, fun h => h.trans hl.connected⟩

theorem not_connected_notInto (hs : SpanningTree t h) {x : Arc (Signed max)} (hx : x ∈ h.treeArcs)
    (hu : x.snk = u) : ¬ (h.tree.notInto u).Connected u x.src := by
  have hl : h.tree.Leads ⟨x.id, true⟩ x.src x.snk := hs.wellFormed.leads_of_mem hx
  have hsub : (h.tree.notInto u).Sub (h.tree.without x.id) := by
    intro a p ha
    obtain ⟨ha, hp⟩ := Option.filter_eq_some_iff.1 ha
    have hne : a ≠ x.id := by
      rintro rfl
      rw [hs.wellFormed.ends_tree.2 ⟨x, hx, rfl, rfl⟩] at ha
      cases ha
      simp [hu] at hp
    simpa [ArcSet.without, hne] using ha
  intro hc
  exact hs.forest hl (hu ▸ (hc.sub hsub).symm)

open Classical in
/-- Into `u` flows what `u` needs and what the vertices need that are connected to it otherwise. -/
theorem inflow_eq (hs : SpanningTree t h) (hf : BasicFlow g h) (hn : h.numVertices = g.numVertices) :
    inflow h.arcs.toList (fun x => x.flow.val) u =
      ∑ v ∈ g.vertexSet, if (h.tree.notInto u).Connected u v then g.weightAt v else 0 := by
  -- The potential is one on the side of `u` and zero elsewhere, so only arcs into `u` cross it.
  let p : VertexId → Int := fun v => if (h.tree.notInto u).Connected u v then 1 else 0
  have hacross : ∀ x ∈ h.arcs.toList, (p x.snk - p x.src) * x.flow.val = if x.snk = u then x.flow.val else 0 := by
    intro x hx
    obtain ⟨i, hi⟩ := mem_arcs_iff.1 hx
    cases ht : x.inTree with
    | false => simp [hf.idle hi ht]
    | true =>
      have hx : x ∈ h.treeArcs := mem_treeArcs_iff.2 ⟨hx, ht⟩
      by_cases hu : x.snk = u
      · have hsnk : p x.snk = 1 := if_pos (by rw [hu])
        have hsrc : p x.src = 0 := if_neg (not_connected_notInto hs hx hu)
        rw [hsnk, hsrc, if_pos hu]
        ring
      · have hsame : p x.snk = p x.src := if_congr (connected_notInto_iff hs hx hu) rfl rfl
        rw [hsame, if_neg hu]
        ring
  calc inflow h.arcs.toList (fun x => x.flow.val) u
      = (h.arcs.toList.map fun x => (p x.snk - p x.src) * x.flow.val).sum := by
        rw [inflow, List.map_congr_left hacross]
    _ = ∑ v ∈ g.vertexSet, p v * h.net v :=
        (sum_mul_netFlow fun x hx => hs.wellFormed.toNumbered.ends_mem hn hx).symm
    _ = ∑ v ∈ g.vertexSet, if (h.tree.notInto u).Connected u v then g.weightAt v else 0 := by
        refine Finset.sum_congr rfl fun v hv => ?_
        rw [hf.meets (mem_vertexSet_iff.1 hv), ite_mul, one_mul, zero_mul]

theorem inflow_le (hs : SpanningTree t h) (hf : BasicFlow g h) (hn : h.numVertices = g.numVertices) :
    inflow h.arcs.toList (fun x => x.flow.val) u ≤ g.totalDemand := by
  classical
  rw [inflow_eq hs hf hn]
  exact sum_weights_le _

/-- Out of `u` flows what the vertices need that `u` sends arcs to, and what is connected to them. -/
theorem outflow_le (hs : SpanningTree t h) (hf : BasicFlow g h) (hn : h.numVertices = g.numVertices)
    (hu : u.index < g.numVertices) : outflow h.arcs.toList (fun x => x.flow.val) u ≤ g.totalDemand := by
  classical
  have hnet : inflow h.arcs.toList (fun x => x.flow.val) u - outflow h.arcs.toList (fun x => x.flow.val) u =
      g.weightAt u := by
    rw [← netFlow_eq]
    exact hf.meets hu
  have hsplit : (∑ v ∈ g.vertexSet, if (h.tree.notInto u).Connected u v ∧ v ≠ u then g.weightAt v else 0) =
      (∑ v ∈ g.vertexSet, if (h.tree.notInto u).Connected u v then g.weightAt v else 0) - g.weightAt u := by
    have hself : (∑ v ∈ g.vertexSet, if u = v then g.weightAt v else 0) = g.weightAt u := by
      rw [Finset.sum_ite_eq, if_pos (mem_vertexSet_iff.2 hu)]
    rw [← hself, ← Finset.sum_sub_distrib]
    refine Finset.sum_congr rfl fun v _ => ?_
    by_cases e : u = v
    · subst e
      simp [ArcSet.Connected.refl]
    · simp [e, Ne.symm e]
  have hle := sum_weights_le (g := g) fun v => (h.tree.notInto u).Connected u v ∧ v ≠ u
  rw [inflow_eq hs hf hn] at hnet
  omega

theorem flow_le_inflow (hf : BasicFlow g h) {x : Arc (Signed max)} (hx : x ∈ h.arcs.toList) :
    x.flow.val ≤ inflow h.arcs.toList (fun x => x.flow.val) x.snk := by
  have hmem : x.flow.val ∈ h.arcs.toList.map fun a => if a.snk = x.snk then a.flow.val else 0 :=
    List.mem_map.2 ⟨x, hx, if_pos rfl⟩
  refine List.single_le_sum ?_ _ hmem
  intro y hy
  obtain ⟨a, ha, rfl⟩ := List.mem_map.1 hy
  obtain ⟨i, hi⟩ := mem_arcs_iff.1 ha
  have := hf.nonneg hi
  split <;> omega

/-! ## Computing the excess -/

variable [NeZero max]

theorem exists_addFlow {x : Signed max} {a : Arc (Signed max)} (ha : a.src ≠ a.snk)
    (hlower : -(max + 1 : Int) ≤ x.val + a.brings a.flow.val u) (hupper : x.val + a.brings a.flow.val u ≤ max) :
    ∃ y, addFlow u x a = .ok y := by
  unfold addFlow
  by_cases hsnk : a.snk = u
  · have hsrc : a.src ≠ u := fun h => ha (h.trans hsnk.symm)
    simp only [Arc.brings, hsnk, hsrc, if_true, if_false, sub_zero] at hlower hupper
    simp only [hsnk, hsrc, if_true, if_false]
    exact ⟨⟨_, hlower, hupper⟩, Checked.bind_eq_ok_iff.2 ⟨_, Signed.add_eq_ok_iff.2 rfl, rfl⟩⟩
  · by_cases hsrc : a.src = u
    · simp only [Arc.brings, hsnk, hsrc, if_true, if_false, zero_sub] at hlower hupper
      simp only [hsnk, hsrc, if_true, if_false, pure_bind]
      exact ⟨⟨_, hlower, hupper⟩, Signed.sub_eq_ok_iff.2 (sub_eq_add_neg _ _)⟩
    · simp only [hsnk, hsrc, if_false, pure_bind]
      exact ⟨x, rfl⟩

/-- If all that flows in, and all that flows out, fits the number type, so does every sum on the way. -/
theorem exists_foldlM_addFlow {l : List (Arc (Signed max))} {x : Signed max}
    (hl : ∀ a ∈ l, a.src ≠ a.snk ∧ 0 ≤ a.flow.val) (hin : x.val + inflow l (fun a => a.flow.val) u ≤ max)
    (hout : -(max + 1 : Int) ≤ x.val - outflow l (fun a => a.flow.val) u) :
    ∃ y, l.foldlM (addFlow u) x = .ok y := by
  induction l generalizing x with
  | nil => exact ⟨x, rfl⟩
  | cons a l ih =>
    obtain ⟨hne, hflow⟩ := hl a List.mem_cons_self
    have hl := fun b hb => hl b (List.mem_cons_of_mem _ hb)
    -- The later arcs add nothing negative on either side, so this step stays within the bounds.
    have hrest : ∀ end' : Arc (Signed max) → VertexId,
        0 ≤ (l.map fun b => if end' b = u then b.flow.val else 0).sum := by
      intro end'
      refine List.sum_nonneg fun y hy => ?_
      obtain ⟨b, hb, rfl⟩ := List.mem_map.1 hy
      have := (hl b hb).2
      split <;> omega
    have hin' := hrest Arc.snk
    have hout' := hrest Arc.src
    simp only [inflow, outflow, List.map_cons, List.sum_cons] at hin hout ih
    have hbrings : a.brings a.flow.val u =
        (if a.snk = u then a.flow.val else 0) - if a.src = u then a.flow.val else 0 := rfl
    have hp : 0 ≤ if a.snk = u then a.flow.val else 0 := by split <;> omega
    have hq : 0 ≤ if a.src = u then a.flow.val else 0 := by split <;> omega
    generalize (if a.snk = u then a.flow.val else 0) = p at hin hbrings hp
    generalize (if a.src = u then a.flow.val else 0) = q at hout hbrings hq
    obtain ⟨y, hy⟩ := exists_addFlow (x := x) (u := u) hne (by omega) (by omega)
    have hval := addFlow_eq_ok hy
    obtain ⟨z, hz⟩ := ih (x := y) hl (by omega) (by omega)
    exact ⟨z, Checked.foldlM_cons_eq_ok_iff.2 ⟨y, hy, hz⟩⟩

theorem exists_excess (hs : SpanningTree t h) (hf : BasicFlow g h) (hn : h.numVertices = g.numVertices)
    (hu : u.index < g.numVertices) (hd : g.totalDemand ≤ max) : ∃ e, h.excess u = .ok e := by
  have hin := inflow_le hs hf hn (u := u)
  have hout := outflow_le hs hf hn hu
  refine exists_foldlM_addFlow (fun a ha => ?_) ?_ ?_
  · obtain ⟨i, hi⟩ := mem_arcs_iff.1 ha
    exact ⟨hs.wellFormed.loopless hi, hf.nonneg hi⟩
  · rw [Signed.zero_val]
    omega
  · rw [Signed.zero_val]
    omega

/-- The excess of a vertex is its weight, unless the sum overflows, which takes a total demand that overflows too. -/
theorem excess_of_basicFlow (hs : SpanningTree t h) (hf : BasicFlow g h) (hn : h.numVertices = g.numVertices)
    {w : Vertex (Signed max)} (hw : g.vertices[u.index]? = some w) :
    h.net u = w.weight.val ∧ (h.excess u = .ok w.weight ∨ ∃ op, h.excess u = .error (.overflow op)) ∧
      (g.totalDemand ≤ max → h.excess u = .ok w.weight) := by
  have hu : u.index < g.numVertices := (Array.getElem?_eq_some_iff.1 hw).1
  have hnet : h.net u = w.weight.val := by rw [hf.meets hu, weightAt_eq hw]
  have hok : ∀ {e}, h.excess u = .ok e → e = w.weight := fun he => Signed.ext ((val_of_excess he).trans hnet)
  refine ⟨hnet, ?_, fun hd => ?_⟩
  · cases he : h.excess u with
    | ok e => exact .inl (by rw [hok he])
    | error e =>
      obtain ⟨op, rfl⟩ := overflow_of_excess he
      exact .inr ⟨op, rfl⟩
  · obtain ⟨e, he⟩ := exists_excess hs hf hn hu hd
    rw [he, hok he]

end Network

namespace Simplex

variable {max : Nat} [NeZero max] {s : Simplex (Signed max)}

/-- Whatever is asked of a solver without a tolerance, outside the setup its working copy carries a basic flow:
every weight is met, arcs outside the tree carry nothing, and no arc carries less than nothing or more than the
total demand. The excess computed is the weight, unless the sum overflows, which takes a total demand that overflows
too. -/
theorem basic_flow_of_reachable (b : Builder (Signed max))
    (h : Reachable (fun o => o.zero = Amount.zero) b.network s) (hs : s.phase ≠ .setup) :
    (∀ (v : VertexId) (w : Vertex (Signed max)), b.network.vertices[v.index]? = some w →
      s.solution.net v = w.weight.val ∧
        (s.solution.excess v = .ok w.weight ∨ ∃ op, s.solution.excess v = .error (.overflow op)) ∧
        (b.network.totalDemand ≤ max → s.solution.excess v = .ok w.weight)) ∧
      (∀ x ∈ s.solution.arcs.toList, x.inTree = false → x.flow.val = 0) ∧
      ∀ x ∈ s.solution.arcs.toList, 0 ≤ x.flow.val ∧ x.flow.val ≤ b.network.totalDemand := by
  have hg := Network.wellFormed_network b
  have hbasic := basic_of_reachable hg h
  have hflow := hbasic.flow hs
  have htree := hbasic.tree hs
  have hn := hbasic.numVertices_eq
  refine ⟨fun v w hw => Network.excess_of_basicFlow htree hflow hn hw, fun x hx ht => ?_, fun x hx => ?_⟩
  · obtain ⟨i, hi⟩ := Network.mem_arcs_iff.1 hx
    exact hflow.idle hi ht
  · obtain ⟨i, hi⟩ := Network.mem_arcs_iff.1 hx
    exact ⟨hflow.nonneg hi, (Network.flow_le_inflow hflow hx).trans (Network.inflow_le htree hflow hn)⟩

theorem basic_flow_of_relay : ∃ s : Simplex Signed8,
    Reachable (fun o => o.zero = Amount.zero) Builder.relay.network s ∧ s.phase ≠ .setup ∧
    (∀ (v : VertexId) (w : Vertex Signed8), Builder.relay.network.vertices[v.index]? = some w →
      s.solution.net v = w.weight.val ∧
        (s.solution.excess v = .ok w.weight ∨ ∃ op, s.solution.excess v = .error (.overflow op)) ∧
        (Builder.relay.network.totalDemand ≤ 127 → s.solution.excess v = .ok w.weight)) ∧
      (∀ x ∈ s.solution.arcs.toList, x.inTree = false → x.flow.val = 0) ∧
      ∀ x ∈ s.solution.arcs.toList, 0 ≤ x.flow.val ∧ x.flow.val ≤ Builder.relay.network.totalDemand := by
  have hrun : (new Builder.relay.network).run start = .ok (.ok (), (new Builder.relay.network).after start) := by
    decide +kernel
  have hreach : Reachable (fun o => o.zero = Amount.zero) Builder.relay.network
      ((new Builder.relay.network).after start) := .start .new hrun
  have hphase : ((new Builder.relay.network).after start).phase ≠ .setup := by decide +kernel
  exact ⟨_, hreach, hphase, basic_flow_of_reachable Builder.relay hreach hphase⟩

end Simplex

end Transportation
