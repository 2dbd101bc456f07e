import Transportation.Proofs.Network.Circulation
import Transportation.Proofs.Simplex.Tight
/-!
# Basic flows

A pivot leaves the arcs outside the tree without flow (`Idle`). A basic flow (`BasicFlow`) also meets all weights and is
nowhere negative. The star begins with such a flow if the weights cancel out, and a pivot keeps it if the arc that leaves
is the first to be emptied. Multiples of a unit of all weights (`Grained`) are kept as well.
-/

namespace Transportation

variable {max : Nat}

namespace Network

variable {g h k : Network (Signed max)} {t t' : Incidence} {a : ArcId} {x : Arc (Signed max)} {c : List Step}
  {delta : Signed max} {u v : VertexId}

/-! ## Arcs outside the tree -/

/-- Arcs outside the tree carry nothing. -/
def Idle (h : Network (Signed max)) : Prop :=
  ∀ (i : Nat) (x : Arc (Signed max)), h.arcs[i]? = some x → x.inTree = false → x.flow.val = 0

theorem Idle.congr (hh : h.Idle) (e : k.arcs.map (fun x => (x.inTree, x.flow)) = h.arcs.map fun x => (x.inTree, x.flow)) :
    k.Idle := by
  intro i x hx ht
  obtain ⟨y, hy, hxy⟩ := exists_of_map_eq e hx
  simp only [Prod.mk.injEq] at hxy
  rw [← hxy.2]
  exact hh i y hy (hxy.1.trans ht)

/-- The entering arc carries nothing. -/
theorem Idle.insert (hh : h.Idle) (e : t.insert h a = .ok (t', k)) :
    k.Idle ∧ ∀ x, k.arcs[a.index]? = some x → x.flow.val = 0 := by
  obtain ⟨x, hx, ht, -, hm⟩ := Incidence.insert_eq_ok_iff.1 e
  refine ⟨fun i z hz htz => ?_, fun z hz => ?_⟩
  · rw [getElem?_modifyArc hm] at hz
    split at hz
    · obtain ⟨y, _, rfl⟩ := Option.map_eq_some_iff.1 hz
      cases htz
    · exact hh i z hz htz
  · rw [getElem?_modifyArc hm, if_pos rfl, hx] at hz
    cases hz
    exact hh _ x hx ht

/-- An arc that carries nothing may leave. -/
theorem Idle.remove (hh : h.Idle) (e : t.remove h a = .ok (t', k))
    (hzero : ∀ x, h.arcs[a.index]? = some x → x.flow.val = 0) : k.Idle := by
  obtain ⟨x, hx, ht, -, hm⟩ := Incidence.remove_eq_ok_iff.1 e
  intro i z hz htz
  rw [getElem?_modifyArc hm] at hz
  split at hz
  · next hi =>
    obtain ⟨y, hy, rfl⟩ := Option.map_eq_some_iff.1 hz
    exact hzero y (hi ▸ hy)
  · exact hh i z hz htz

theorem flows_insert (e : t.insert h a = .ok (t', k)) : k.arcs.map Arc.flow = h.arcs.map Arc.flow := by
  obtain ⟨_, _, _, _, e⟩ := Incidence.insert_eq_ok_iff.1 e
  exact map_modifyArc e fun _ => rfl

theorem flows_remove (e : t.remove h a = .ok (t', k)) : k.arcs.map Arc.flow = h.arcs.map Arc.flow := by
  obtain ⟨_, _, _, _, e⟩ := Incidence.remove_eq_ok_iff.1 e
  exact map_modifyArc e fun _ => rfl

theorem net_insert (e : t.insert h a = .ok (t', k)) (v : VertexId) : k.net v = h.net v := by
  obtain ⟨_, _, _, _, hm⟩ := Incidence.insert_eq_ok_iff.1 e
  exact net_congr (map_modifyArc hm fun _ => rfl) v

theorem net_remove (e : t.remove h a = .ok (t', k)) (v : VertexId) : k.net v = h.net v := by
  obtain ⟨_, _, _, _, hm⟩ := Incidence.remove_eq_ok_iff.1 e
  exact net_congr (map_modifyArc hm fun _ => rfl) v

/-- Arcs outside the tree lie on no cycle of tree arcs. -/
theorem sign_of_walk (hg : g.Numbered) (hw : g.tree.Walk u c v) {i : Nat} (hx : g.arcs[i]? = some x)
    (ht : x.inTree = false) : sign c i = 0 := by
  refine sign_of_not_mem fun hi => ?_
  obtain ⟨p, s, q, y, z, -, hs, -, -, hl, -⟩ := hw.split hi
  obtain ⟨x', hx', hid, -⟩ := hg.leads_tree.1 hl
  obtain ⟨hx', ht'⟩ := mem_treeArcs_iff.1 hx'
  have hx' := hg.getElem?_id hx'
  rw [hid, hs, hx, Option.some.injEq] at hx'
  rw [hx', ht'] at ht
  cases ht

section
variable [NeZero max]

/-- After a push an arc carries what it did before and what the walk adds to it. -/
theorem exists_arc_of_push (e : h.push delta c = .ok k) (hc : (c.map Step.arc).Nodup) {i : Nat}
    {z : Arc (Signed max)} (hz : k.arcs[i]? = some z) :
    ∃ y, h.arcs[i]? = some y ∧ y.inTree = z.inTree ∧ z.flow.val = y.flow.val + sign c i * delta.val := by
  obtain ⟨y, hy, hyz⟩ := exists_arc_of_drained (drained_push e) hz
  obtain ⟨flow, hf, hv⟩ := flow_push e hc hy
  rw [hz, Option.some.injEq] at hf
  subst hf
  exact ⟨y, hy, rfl, hv⟩

theorem Idle.push (hh : h.Idle) (hn : h.Numbered) (e : h.push delta c = .ok k) (hw : h.tree.Walk u c v)
    (hc : (c.map Step.arc).Nodup) : k.Idle := by
  intro i z hz ht
  obtain ⟨y, hy, hyt, hv⟩ := exists_arc_of_push e hc hz
  rw [hv, sign_of_walk hn hw hy (hyt.trans ht), hh i y hy (hyt.trans ht)]
  ring

/-- The arc that leaves gives up all it carries. -/
theorem flow_of_blocking? {tolerance : Signed max} {b : Blocking (Signed max)}
    (hb : h.blocking? tolerance c = .ok (some b)) (e : h.push b.flow c = .ok k) (hc : (c.map Step.arc).Nodup) :
    ∀ x, k.arcs[b.arc.index]? = some x → x.flow.val = 0 := by
  intro z hz
  obtain ⟨x, hx, hbx, -, hmem⟩ := blocks_of_blocking? hb
  obtain ⟨y, hy, -, hv⟩ := exists_arc_of_push e hc hz
  rw [hx, Option.some.injEq] at hy
  rw [show sign c b.arc.index = -1 from sign_of_mem hc hmem, hbx, ← hy] at hv
  rw [hv]
  ring

end

/-! ## Flows that meet the weights -/

/-- The network `h` carries a basic flow for the weights of `g`. -/
structure BasicFlow (g h : Network (Signed max)) : Prop where
  meets : ∀ {v : VertexId}, v.index < g.numVertices → h.net v = g.weightAt v
  idle : ∀ {i : Nat} {x : Arc (Signed max)}, h.arcs[i]? = some x → x.inTree = false → x.flow.val = 0
  nonneg : ∀ {i : Nat} {x : Arc (Signed max)}, h.arcs[i]? = some x → 0 ≤ x.flow.val

theorem BasicFlow.congr (hh : BasicFlow g h)
    (e : k.arcs.map (fun x => (x.src, x.snk, x.inTree, x.flow)) = h.arcs.map fun x => (x.src, x.snk, x.inTree, x.flow)) :
    BasicFlow g k := by
  have hat : ∀ {i : Nat} {x : Arc (Signed max)}, k.arcs[i]? = some x →
      ∃ y, h.arcs[i]? = some y ∧ y.inTree = x.inTree ∧ y.flow = x.flow := by
    intro i x hx
    obtain ⟨y, hy, hxy⟩ := exists_of_map_eq e hx
    simp only [Prod.mk.injEq] at hxy
    exact ⟨y, hy, hxy.2.2⟩
  refine ⟨fun hv => ?_, fun hx ht => ?_, fun hx => ?_⟩
  · rw [net_congr ?_, hh.meets hv]
    simpa [Function.comp_def] using congrArg (Array.map fun p => (p.1, p.2.1, p.2.2.2)) e
  · obtain ⟨y, hy, hyt, hyf⟩ := hat hx
    rw [← hyf]
    exact hh.idle hy (hyt.trans ht)
  · obtain ⟨y, hy, -, hyf⟩ := hat hx
    rw [← hyf]
    exact hh.nonneg hy

theorem BasicFlow.nonneg_of_flows (hh : BasicFlow g h) (e : k.arcs.map Arc.flow = h.arcs.map Arc.flow) {i : Nat}
    {x : Arc (Signed max)} (hx : k.arcs[i]? = some x) : 0 ≤ x.flow.val := by
  obtain ⟨y, hy, hxy⟩ := exists_of_map_eq e hx
  rw [← hxy]
  exact hh.nonneg hy

/-! ## The star -/

section
variable [NeZero max]

theorem Spoke.brings (h : g.Spoke v x) (u : VertexId) :
    x.brings x.flow.val u = (if v = u then g.weightAt v else 0) - if g.hub = u then g.weightAt v else 0 := by
  cases h with
  | supply hw _ hsrc hsnk hf =>
    rw [Arc.brings, hsrc, hsnk, weightAt_eq hw, Signed.neg_eq_ok_iff.1 hf]
    split <;> split <;> ring
  | demand hw _ hsrc hsnk hf => rw [Arc.brings, hsrc, hsnk, weightAt_eq hw, hf]

theorem Spoke.nonneg (h : g.Spoke v x) : 0 ≤ x.flow.val := by
  cases h with
  | supply hw hlt _ _ hf =>
    have hlt := Signed.lt_iff.1 hlt
    rw [Signed.zero_val] at hlt
    rw [Signed.neg_eq_ok_iff.1 hf]
    omega
  | @demand w hw hlt _ _ hf =>
    have hlt : ¬ w.weight.val < (Amount.zero : Signed max).val := by
      rw [← Signed.lt_iff, hlt]
      simp
    rw [Signed.zero_val] at hlt
    rw [hf]
    omega

theorem Spoke.dvd (h : g.Spoke v x) {k : Int} (hk : k ∣ g.weightAt v) : k ∣ x.flow.val := by
  cases h with
  | supply hw _ _ _ hf =>
    rw [weightAt_eq hw] at hk
    rw [Signed.neg_eq_ok_iff.1 hf]
    exact Int.dvd_neg.2 hk
  | demand hw _ _ _ hf =>
    rw [weightAt_eq hw] at hk
    rwa [hf]

theorem Star.spoke (hs : Star g done h) {i : Nat} (hx : h.arcs[i]? = some x) (ht : x.inTree = true) :
    ∃ v ∈ done, g.Spoke v x := by
  obtain ⟨l, hperm, hl⟩ := hs.spokes
  exact Checked.exists_of_forall₂ hl (hperm.mem_iff.1 (mem_treeArcs_iff.2 ⟨mem_arcs_iff.2 ⟨_, hx⟩, ht⟩))

theorem netFlow_spokes {done : List VertexId} {l : List (Arc (Signed max))} (hl : List.Forall₂ g.Spoke done l) :
    netFlow l (fun x => x.flow.val) u =
      (done.map fun v => (if v = u then g.weightAt v else 0) - if g.hub = u then g.weightAt v else 0).sum := by
  induction hl with
  | nil => rfl
  | cons hx _ ih => rw [netFlow_cons, hx.brings, ih, List.map_cons, List.sum_cons]

/-- If the weights cancel out, the star carries a basic flow. At the hub the weight is met since it is met
everywhere else. -/
theorem basicFlow_star (hs : Star g (g.vertexIds.filter (· ≠ g.hub)) h)
    (hb : ∑ v ∈ g.vertexSet, g.weightAt v = 0) : BasicFlow g h := by
  obtain ⟨l, hperm, hl⟩ := hs.spokes
  have hidle : ∀ {i : Nat} {x : Arc (Signed max)}, h.arcs[i]? = some x → x.inTree = false → x.flow.val = 0 :=
    fun hx ht => by rw [hs.idle hx ht, Signed.zero_val]
  refine ⟨fun {v} hv => ?_, hidle, fun {i x} hx => ?_⟩
  · have hhub : g.hub ∈ g.vertexSet := mem_vertexSet_iff.2 (Nat.div_lt_self (by omega) (by omega))
    have hset : (g.vertexIds.filter (· ≠ g.hub)).toFinset = g.vertexSet.erase g.hub := by
      ext w
      simp [vertexSet, and_comm]
    rw [net, ← netFlow_filter Arc.inTree, ← treeArcs, netFlow_perm hperm, netFlow_spokes hl,
      ← List.sum_toFinset _ ((nodup_vertexIds g).filter _), hset, Finset.sum_erase_eq_sub hhub,
      Finset.sum_sub_distrib, Finset.sum_ite_eq' g.vertexSet v, if_pos (mem_vertexSet_iff.2 hv)]
    -- The hub gets all other weights with the sign changed, and these cancel out with its own.
    · by_cases e : g.hub = v
      · simp only [e, if_true, hb]
        ring
      · simp only [e, if_false, Finset.sum_const_zero]
        ring
    · intro x hx ht
      obtain ⟨i, hi⟩ := mem_arcs_iff.1 hx
      exact hidle hi ht
  · cases ht : x.inTree with
    | false => exact (hidle hx ht).ge
    | true =>
      obtain ⟨w, -, hw⟩ := hs.spoke hx ht
      exact hw.nonneg

end

/-! ## Pivots -/

/-- The entering arc carries nothing. -/
theorem BasicFlow.insert (hh : BasicFlow g h) (e : t.insert h a = .ok (t', k)) :
    BasicFlow g k ∧ ∀ x, k.arcs[a.index]? = some x → x.flow.val = 0 := by
  obtain ⟨hidle, hzero⟩ := Idle.insert (fun _ _ => hh.idle) e
  exact ⟨⟨fun hv => (net_insert e _).trans (hh.meets hv), hidle _ _, hh.nonneg_of_flows (flows_insert e)⟩, hzero⟩

/-- An arc that carries nothing may leave. -/
theorem BasicFlow.remove (hh : BasicFlow g h) (e : t.remove h a = .ok (t', k))
    (hzero : ∀ x, h.arcs[a.index]? = some x → x.flow.val = 0) : BasicFlow g k :=
  ⟨fun hv => (net_remove e _).trans (hh.meets hv), Idle.remove (fun _ _ => hh.idle) e hzero _ _,
    hh.nonneg_of_flows (flows_remove e)⟩

variable [NeZero max]

/-- No more is pushed around a cycle than any arc walked backward carries. -/
theorem BasicFlow.push (hh : BasicFlow g h) (hn : h.Numbered) (e : h.push delta c = .ok k) (hw : h.tree.Walk u c u)
    (hc : (c.map Step.arc).Nodup) (hd : 0 ≤ delta.val)
    (hle : ∀ a x, ⟨a, false⟩ ∈ c → h.arcs[a.index]? = some x → delta.val ≤ x.flow.val) : BasicFlow g k := by
  refine ⟨fun {v} hv => ?_, Idle.push (fun _ _ => hh.idle) hn e hw hc _ _, fun {i z} hz => ?_⟩
  · rw [net_push hn e hw, hh.meets hv]
    ring
  · obtain ⟨y, hy, -, hv⟩ := exists_arc_of_push e hc hz
    have hy0 := hh.nonneg hy
    rw [hv]
    by_cases hback : ⟨⟨i⟩, false⟩ ∈ c
    -- Backward the arc gives up `delta`, which it has; otherwise its flow does not shrink.
    · have := hle ⟨i⟩ y hback hy
      rw [show sign c i = -1 from sign_of_mem hc hback]
      omega
    · have hs : 0 ≤ sign c i := by
        rw [sign, if_neg hback]
        split <;> decide
      have := Int.mul_nonneg hs hd
      omega

/-! ## A unit of all flows -/

/-- All flows are multiples of `k`. -/
def Grained (k : Int) (h : Network (Signed max)) : Prop :=
  ∀ x ∈ h.arcs.toList, k ∣ x.flow.val

variable {unit : Int}

omit [NeZero max] in
theorem Grained.congr (hh : h.Grained unit) (e : k.arcs.map Arc.flow = h.arcs.map Arc.flow) : k.Grained unit := by
  intro x hx
  obtain ⟨i, hx⟩ := mem_arcs_iff.1 hx
  obtain ⟨y, hy, hxy⟩ := exists_of_map_eq e hx
  rw [← hxy]
  exact hh y (mem_arcs_iff.2 ⟨i, hy⟩)

omit [NeZero max] in
/-- Multiples of a unit that differ do so by more than a tolerance finer than the unit. -/
theorem Grained.separated (hh : h.Grained unit) {tolerance : Signed max} (hz : 0 ≤ tolerance.val)
    (hfine : tolerance.val < unit) : h.Separated tolerance := by
  refine ⟨hz, fun {i j x y} hx hy hlt => ?_⟩
  have hdvd : unit ∣ y.flow.val - x.flow.val :=
    Int.dvd_sub (hh y (mem_arcs_iff.2 ⟨j, hy⟩)) (hh x (mem_arcs_iff.2 ⟨i, hx⟩))
  have hle : unit ≤ y.flow.val - x.flow.val := Int.le_of_dvd (by omega) hdvd
  omega

theorem grained_star {done : List VertexId} (hs : Star g done h) (hk : ∀ v, unit ∣ g.weightAt v) :
    h.Grained unit := by
  intro x hx
  obtain ⟨i, hx⟩ := mem_arcs_iff.1 hx
  cases ht : x.inTree with
  | false =>
    rw [hs.idle hx ht, Signed.zero_val]
    exact Int.dvd_zero _
  | true =>
    obtain ⟨v, -, hv⟩ := hs.spoke hx ht
    exact hv.dvd (hk v)

theorem Grained.push (hh : h.Grained unit) (e : h.push delta c = .ok k) (hc : (c.map Step.arc).Nodup)
    (hd : unit ∣ delta.val) : k.Grained unit := by
  intro z hz
  obtain ⟨i, hz⟩ := mem_arcs_iff.1 hz
  obtain ⟨y, hy, -⟩ := exists_arc_of_drained (drained_push e) hz
  obtain ⟨flow, hf, hv⟩ := flow_push e hc hy
  rw [hz, Option.some.injEq] at hf
  rw [hf, hv]
  exact Int.dvd_add (hh y (mem_arcs_iff.2 ⟨i, hy⟩)) (Int.dvd_mul_of_dvd_right hd)

end Network

end Transportation
