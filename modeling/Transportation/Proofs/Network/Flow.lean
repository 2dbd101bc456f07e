import Mathlib.Algebra.BigOperators.Ring.Finset
import Mathlib.Tactic.Ring
import Transportation.Amount.Signed
import Transportation.Network.Flow
import Transportation.Proofs.Checked
import Transportation.Proofs.Network.WellFormed
/-!
# Flows

What the arcs of a list bring to a vertex, for any amounts that they carry. Weighing the vertices by potentials, the
arcs are weighed by the differences of potentials (`sum_mul_netFlow`). The excess that a network computes is its net
flow (`val_of_excess`), unless it overflows on the way.
-/

namespace Transportation

section
variable {F R : Type} [CommRing R] {a : Arc F} {l l' : List (Arc F)} {x y : Arc F → R} {u v : VertexId}

/-- What the arc brings to `u` when it carries `x`. -/
def Arc.brings (a : Arc F) (x : R) (u : VertexId) : R :=
  (if a.snk = u then x else 0) - if a.src = u then x else 0

/-- Inflow minus outflow at `u` when each arc `a` of the list carries `x a`. -/
def netFlow (l : List (Arc F)) (x : Arc F → R) (u : VertexId) : R :=
  (l.map fun a => a.brings (x a) u).sum

@[simp] theorem Arc.brings_zero (a : Arc F) (u : VertexId) : a.brings (0 : R) u = 0 := by
  simp [brings]

theorem Arc.brings_congr {b : Arc F} (hsrc : b.src = a.src) (hsnk : b.snk = a.snk) (x : R) (u : VertexId) :
    b.brings x u = a.brings x u := by
  simp only [brings, hsrc, hsnk]

@[simp] theorem netFlow_nil : netFlow ([] : List (Arc F)) x u = 0 := rfl

@[simp] theorem netFlow_cons : netFlow (a :: l) x u = a.brings (x a) u + netFlow l x u := by
  simp [netFlow]

@[simp] theorem netFlow_append : netFlow (l ++ l') x u = netFlow l x u + netFlow l' x u := by
  simp [netFlow]

theorem netFlow_perm (h : l.Perm l') : netFlow l x u = netFlow l' x u :=
  (h.map _).sum_eq

/-- Elements that add nothing may be left out of a sum. -/
theorem sum_map_filter {f : Arc F → R} (p : Arc F → Bool) (h : ∀ a ∈ l, p a = false → f a = 0) :
    ((l.filter p).map f).sum = (l.map f).sum := by
  induction l with
  | nil => rfl
  | cons a l ih =>
    have ih := ih fun b hb => h b (List.mem_cons_of_mem _ hb)
    cases hp : p a with
    | true => rw [List.filter_cons_of_pos hp, List.map_cons, List.map_cons, List.sum_cons, List.sum_cons, ih]
    | false =>
      rw [List.filter_cons_of_neg (by simp [hp]), List.map_cons, List.sum_cons, ih, h a List.mem_cons_self hp,
        zero_add]

/-- Arcs that carry nothing do not matter. -/
theorem netFlow_filter (p : Arc F → Bool) (h : ∀ a ∈ l, p a = false → x a = 0) :
    netFlow (l.filter p) x u = netFlow l x u :=
  sum_map_filter p fun a ha hp => by rw [h a ha hp, Arc.brings_zero]

/-! ## Potentials -/

variable {s : Finset VertexId} {p : VertexId → R}

theorem Arc.sum_mul_brings {x : R} (hsrc : a.src ∈ s) (hsnk : a.snk ∈ s) :
    ∑ v ∈ s, p v * a.brings x v = (p a.snk - p a.src) * x := by
  have hin : ∑ v ∈ s, p v * (if a.snk = v then x else 0) = p a.snk * x := by
    simp [hsnk]
  have hout : ∑ v ∈ s, p v * (if a.src = v then x else 0) = p a.src * x := by
    simp [hsrc]
  simp only [brings, mul_sub, Finset.sum_sub_distrib, hin, hout]
  ring

/-- Weighing vertices by potentials weighs arcs by the differences of potentials along them. -/
theorem sum_mul_netFlow (h : ∀ a ∈ l, a.src ∈ s ∧ a.snk ∈ s) :
    ∑ v ∈ s, p v * netFlow l x v = (l.map fun a => (p a.snk - p a.src) * x a).sum := by
  induction l with
  | nil => simp
  | cons a l ih =>
    have ha := h a List.mem_cons_self
    simp only [netFlow_cons, mul_add, Finset.sum_add_distrib, Arc.sum_mul_brings ha.1 ha.2, List.map_cons,
      List.sum_cons, ih fun b hb => h b (List.mem_cons_of_mem _ hb)]

end

namespace Network

variable {max : Nat} {g h : Network (Signed max)} {u v : VertexId}

/-- The flow that the arcs carry into `u`, less the flow out of it. -/
def net (g : Network (Signed max)) (u : VertexId) : Int :=
  netFlow g.arcs.toList (fun a => a.flow.val) u

def weightAt (g : Network (Signed max)) (u : VertexId) : Int :=
  (g.vertices[u.index]?.map fun v => v.weight.val).getD 0

def vertexSet {F : Type} (g : Network F) : Finset VertexId :=
  g.vertexIds.toFinset

theorem mem_vertexSet_iff {F : Type} {g : Network F} {v : VertexId} : v ∈ g.vertexSet ↔ v.index < g.numVertices := by
  rw [vertexSet, List.mem_toFinset, mem_vertexIds_iff]

theorem Numbered.ends_mem {F : Type} {g h : Network F} (hh : h.Numbered) (hn : h.numVertices = g.numVertices)
    {x : Arc F} (hx : x ∈ h.arcs.toList) : x.src ∈ g.vertexSet ∧ x.snk ∈ g.vertexSet := by
  obtain ⟨i, hi⟩ := mem_arcs_iff.1 hx
  rw [mem_vertexSet_iff, mem_vertexSet_iff, ← hn]
  exact ⟨hh.src_lt hi, hh.snk_lt hi⟩

/-- A sum over the arcs to which one arc alone adds. -/
theorem Numbered.sum_ite_id {F : Type} {g : Network F} (hg : g.Numbered) {x : Arc F} (hx : x ∈ g.arcs.toList)
    (c : Int) : (g.arcs.toList.map fun y => if y.id = x.id then c else 0).sum = c := by
  have hsum := List.sum_toFinset (fun a => if a = x.id then c else 0) hg.nodup_ids
  have hmem : x.id ∈ (g.arcs.toList.map Arc.id).toFinset := List.mem_toFinset.2 (List.mem_map_of_mem hx)
  rw [Finset.sum_ite_eq', if_pos hmem, List.map_map] at hsum
  exact hsum.symm

theorem weightAt_eq {w : Vertex (Signed max)} (hw : g.vertices[u.index]? = some w) : g.weightAt u = w.weight.val := by
  simp [weightAt, hw]

/-- Sums over the vertices in order are sums over their numbers. -/
theorem sum_weights (f : Int → Int) :
    (g.vertices.toList.map fun v => f v.weight.val).sum = ∑ v ∈ g.vertexSet, f (g.weightAt v) := by
  rw [vertexSet, List.sum_toFinset _ (nodup_vertexIds g)]
  congr 1
  refine List.ext_getElem (by simp [vertexIds, numVertices]) fun i hi _ => ?_
  have hi : i < g.vertices.size := by simpa using hi
  simp [vertexIds, weightAt, hi]

theorem overflow_of_checked {op : Operation} {x : Int} {e : Fault}
    (h : (Signed.checked op x : Checked (Signed max)) = .error e) : ∃ op, e = .overflow op := by
  unfold Signed.checked at h
  split at h
  · cases h
  · cases h
    exact ⟨op, rfl⟩

variable [NeZero max]

theorem addFlow_eq_ok {x y : Signed max} {a : Arc (Signed max)} (h : addFlow u x a = .ok y) :
    y.val = x.val + a.brings a.flow.val u := by
  have hout : ∀ z : Signed max, (if a.src = u then Amount.sub z a.flow else pure z) = .ok y →
      y.val = z.val - if a.src = u then a.flow.val else 0 := by
    intro z hz
    split
    · next hsrc => rw [if_pos hsrc] at hz; exact Signed.sub_eq_ok_iff.1 hz
    · next hsrc => rw [if_neg hsrc] at hz; rw [Checked.pure_eq_ok_iff.1 hz, sub_zero]
  unfold addFlow at h
  unfold Arc.brings
  by_cases hsnk : a.snk = u
  · simp only [hsnk, if_true] at h
    obtain ⟨z, hz, h⟩ := Checked.bind_eq_ok_iff.1 h
    rw [hout z h, Signed.add_eq_ok_iff.1 hz, if_pos hsnk]
    ring
  · simp only [hsnk, if_false, pure_bind] at h
    rw [hout x h, if_neg hsnk]
    ring

/-- The excess computed is the net flow. -/
theorem val_of_excess {e : Signed max} (h : g.excess u = .ok e) : e.val = g.net u := by
  refine Checked.foldlM_induction (fun done e => e.val = netFlow done (fun a => a.flow.val) u) h rfl ?_
  intro done a x y _ hx hy
  rw [addFlow_eq_ok hy, hx, netFlow_append, netFlow_cons, netFlow_nil, add_zero]

/-- The excess faults as an overflow only. -/
theorem overflow_of_excess {e : Fault} (h : g.excess u = .error e) : ∃ op, e = .overflow op := by
  obtain ⟨a, -, x, hx⟩ := Checked.exists_of_foldlM_error h
  unfold addFlow at hx
  by_cases hsnk : a.snk = u
  · simp only [hsnk, if_true] at hx
    rcases Checked.bind_eq_error hx with hy | ⟨y, -, hx⟩
    · exact overflow_of_checked hy
    · split at hx
      · exact overflow_of_checked hx
      · cases hx
  · simp only [hsnk, if_false, pure_bind] at hx
    split at hx
    · exact overflow_of_checked hx
    · cases hx

/-- The value computed is the cost of the flow on tree arcs. -/
theorem val_of_value {v : Signed max} (h : g.value = .ok v) :
    v.val = (g.treeArcs.map fun a => a.cost.val * a.flow.val).sum := by
  refine Checked.foldlM_induction (fun done v => v.val = (done.map fun a => a.cost.val * a.flow.val).sum) h rfl ?_
  intro done a x y _ hx hy
  obtain ⟨c, hc, hy⟩ := Checked.bind_eq_ok_iff.1 hy
  rw [Signed.add_eq_ok_iff.1 hy, hx, Signed.mul_eq_ok_iff.1 hc]
  simp

theorem overflow_of_value {e : Fault} (h : g.value = .error e) : ∃ op, e = .overflow op := by
  obtain ⟨a, -, x, hx⟩ := Checked.exists_of_foldlM_error h
  rcases Checked.bind_eq_error hx with hy | ⟨y, -, hx⟩
  · exact overflow_of_checked hy
  · exact overflow_of_checked hx

/-- The sum of the weights of some vertices. -/
theorem val_of_sumWeights {l : List (Vertex (Signed max))} {w : Signed max}
    (h : l.foldlM (fun total v => Amount.add total v.weight) (Amount.zero : Signed max) = .ok w) :
    w.val = (l.map fun v => v.weight.val).sum := by
  refine Checked.foldlM_induction (fun done w => w.val = (done.map fun v => v.weight.val).sum) h rfl ?_
  intro done v x y _ hx hy
  rw [Signed.add_eq_ok_iff.1 hy, hx]
  simp

theorem val_of_totalWeight {w : Signed max} (h : g.totalWeight = .ok w) : w.val = ∑ v ∈ g.vertexSet, g.weightAt v := by
  rw [← sum_weights fun x => x]
  exact val_of_sumWeights h

/-- The weights of a balanced network cancel out up to the tolerance. -/
theorem sum_weights_of_within {zero : Signed max} (h : g.isBalancedWithin zero = .ok true) :
    -zero.val ≤ ∑ v ∈ g.vertexSet, g.weightAt v ∧ ∑ v ∈ g.vertexSet, g.weightAt v ≤ zero.val := by
  unfold isBalancedWithin at h
  obtain ⟨total, ht, h⟩ := Checked.bind_eq_ok_iff.1 h
  rw [← val_of_totalWeight ht]
  split at h
  · next hle =>
    obtain ⟨lower, hl, h⟩ := Checked.bind_eq_ok_iff.1 h
    have hlower := Signed.sub_eq_ok_iff.1 hl
    have hge := Signed.le_iff.1 (Checked.pure_eq_ok_iff.1 h)
    have hle := Signed.le_iff.1 hle
    rw [Signed.zero_val] at hlower
    omega
  · cases h

end Network

end Transportation
