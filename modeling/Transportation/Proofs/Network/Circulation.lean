import Transportation.Proofs.Network.Flow
import Transportation.Proofs.Network.Push
/-!
# Pushing flow around a cycle

Flow pushed along a walk leaves the net flow of all vertices but its ends as it was, so around a cycle it changes
no net flow (`net_push`). If flows are equal or differ by more than the tolerance, the blocking arc has the least flow
of those walked backward (`le_of_blocking?`), and no flow becomes negative.
-/

namespace Transportation.Network

variable {max : Nat} {g h : Network (Signed max)} {a : ArcId} {x y : Arc (Signed max)} {s : Step} {c : List Step}
  {delta : Signed max} {u v w : VertexId} {i : Nat}

theorem net_modifyArc {flow : Signed max} (e : g.modifyArc a ({ · with flow }) = .ok h)
    (hx : g.arcs[a.index]? = some x) (w : VertexId) :
    h.net w = g.net w + x.brings (flow.val - x.flow.val) w := by
  obtain ⟨l, y, r, hy, hg, hh⟩ := exists_split_modifyArc e
  rw [hx, Option.some.injEq] at hy
  subst hy
  simp only [net, hg, hh, netFlow_append, netFlow_cons, Arc.brings]
  split <;> split <;> ring

/-- The net flow depends on the arcs alone. -/
theorem net_congr (e : h.arcs.map (fun x => (x.src, x.snk, x.flow)) = g.arcs.map fun x => (x.src, x.snk, x.flow))
    (w : VertexId) : h.net w = g.net w := by
  have key : ∀ k : Network (Signed max), k.net w =
      ((k.arcs.map fun x => (x.src, x.snk, x.flow)).toList.map fun p =>
        (if p.2.1 = w then p.2.2.val else 0) - if p.1 = w then p.2.2.val else 0).sum := by
    intro k
    simp [net, netFlow, Arc.brings, Function.comp_def]
  rw [key, key g, e]

variable [NeZero max]

theorem net_pushStep (hg : g.Numbered) (e : g.pushStep delta s = .ok h) (hs : g.tree.Leads s u v) (w : VertexId) :
    h.net w = g.net w + ((if v = w then delta.val else 0) - if u = w then delta.val else 0) := by
  obtain ⟨x, flow, hx, hflow, e⟩ := pushStep_eq_ok e
  obtain ⟨x', hx', hid, hends⟩ := hg.leads_tree.1 hs
  have hx' := hg.getElem?_id (mem_treeArcs_iff.1 hx').1
  rw [hid, hx, Option.some.injEq] at hx'
  subst hx'
  rw [net_modifyArc e hx w, Arc.brings]
  cases hf : s.forward with
  | true =>
    simp only [hf, if_true, Prod.mk.injEq] at hflow hends
    rw [Signed.add_eq_ok_iff.1 hflow, hends.1, hends.2]
    split <;> split <;> ring
  | false =>
    simp only [hf, Bool.false_eq_true, if_false, Prod.mk.injEq] at hflow hends
    rw [Signed.sub_eq_ok_iff.1 hflow, hends.1, hends.2]
    split <;> split <;> ring

theorem net_push (hg : g.Numbered) (e : g.push delta c = .ok h) (hc : g.tree.Walk u c v) (w : VertexId) :
    h.net w = g.net w + ((if v = w then delta.val else 0) - if u = w then delta.val else 0) := by
  induction c generalizing g u with
  | nil =>
    cases e
    obtain rfl : u = v := hc
    ring
  | cons s c ih =>
    obtain ⟨k, hk, e⟩ := Checked.foldlM_cons_eq_ok_iff.1 e
    obtain ⟨m, hs, hc⟩ := hc
    obtain ⟨_, _, _, _, hm⟩ := pushStep_eq_ok hk
    have hdrained := drained_modifyArc hm
    -- What this step brings to its end, the rest of the walk takes from there.
    rw [ih (hg.of_frame (frame_of_drained hdrained)) e (by rwa [tree_of_drained hdrained hg]),
      net_pushStep hg hk hs w]
    ring

/-! ## The flow of one arc -/

/-- What is added to the flow of the arc at position `i` when one unit is pushed along `c`. -/
def sign (c : List Step) (i : Nat) : Int :=
  if ⟨⟨i⟩, true⟩ ∈ c then 1 else if ⟨⟨i⟩, false⟩ ∈ c then -1 else 0

theorem sign_of_not_mem (h : ⟨i⟩ ∉ c.map Step.arc) : sign c i = 0 := by
  have hmem : ∀ forward, (⟨⟨i⟩, forward⟩ : Step) ∉ c := fun _ hs => h (List.mem_map_of_mem hs)
  rw [sign, if_neg (hmem true), if_neg (hmem false)]

theorem sign_cons_of_ne (h : s.arc ≠ ⟨i⟩) : sign (s :: c) i = sign c i := by
  have hmem : ∀ forward, (⟨⟨i⟩, forward⟩ : Step) ∈ s :: c ↔ ⟨⟨i⟩, forward⟩ ∈ c := by
    intro forward
    rw [List.mem_cons, or_iff_right]
    rintro rfl
    exact h rfl
  simp only [sign, hmem]

theorem sign_of_mem (hn : (c.map Step.arc).Nodup) (h : s ∈ c) : sign c s.arc.index = if s.forward then 1 else -1 := by
  cases hf : s.forward with
  | true =>
    have e : (⟨⟨s.arc.index⟩, true⟩ : Step) = s := by cases s; simp_all
    rw [sign, e, if_pos h]
    rfl
  | false =>
    have e : (⟨⟨s.arc.index⟩, false⟩ : Step) = s := by cases s; simp_all
    have hnot : (⟨⟨s.arc.index⟩, true⟩ : Step) ∉ c := by
      intro hs
      have := congrArg Step.forward (List.inj_on_of_nodup_map hn h hs rfl)
      simp [hf] at this
    rw [sign, if_neg hnot, e, if_pos h]
    rfl

theorem flow_push (e : g.push delta c = .ok h) (hn : (c.map Step.arc).Nodup) (hx : g.arcs[i]? = some x) :
    ∃ flow : Signed max, h.arcs[i]? = some { x with flow } ∧ flow.val = x.flow.val + sign c i * delta.val := by
  induction c generalizing g x with
  | nil =>
    cases e
    exact ⟨x.flow, hx, by simp [sign]⟩
  | cons s c ih =>
    obtain ⟨k, hk, e⟩ := Checked.foldlM_cons_eq_ok_iff.1 e
    obtain ⟨x', flow, hx', hflow, hm⟩ := pushStep_eq_ok hk
    obtain ⟨hs, hn'⟩ := List.nodup_cons.1 hn
    -- The arc is walked at this step and at no later one, or it is not walked here.
    by_cases hi : s.arc.index = i
    · subst hi
      rw [hx, Option.some.injEq] at hx'
      subst hx'
      have hxk : k.arcs[s.arc.index]? = some { x with flow } := by
        rw [getElem?_modifyArc hm, if_pos rfl, hx]
        rfl
      obtain ⟨flow', hf', hv⟩ := ih e hn' hxk
      refine ⟨flow', hf', ?_⟩
      rw [hv, sign_of_not_mem hs, sign_of_mem hn List.mem_cons_self]
      cases hf : s.forward with
      | true =>
        simp only [hf, if_true] at hflow
        simp [Signed.add_eq_ok_iff.1 hflow]
      | false =>
        simp only [hf, Bool.false_eq_true, if_false] at hflow
        simp [Signed.sub_eq_ok_iff.1 hflow, sub_eq_add_neg]
    · have hxk : k.arcs[i]? = some x := by rw [getElem?_modifyArc hm, if_neg hi, hx]
      obtain ⟨flow', hf', hv⟩ := ih e hn' hxk
      exact ⟨flow', hf', by rw [hv, sign_cons_of_ne fun h => hi (by rw [h])]⟩

/-! ## The blocking arc -/

/-- Flows that differ do so by more than the tolerance. -/
structure Separated (g : Network (Signed max)) (tolerance : Signed max) : Prop where
  nonneg : 0 ≤ tolerance.val
  apart : ∀ {i j : Nat} {x y : Arc (Signed max)}, g.arcs[i]? = some x → g.arcs[j]? = some y →
    x.flow.val < y.flow.val → x.flow.val + tolerance.val < y.flow.val

omit [NeZero max] in
theorem separated_of_zero {tolerance : Signed max} (hz : tolerance.val = 0) : g.Separated tolerance :=
  ⟨hz.ge, fun _ _ hlt => by omega⟩

/-- Of flows that are equal or differ by more than the tolerance the smaller limits more, and of equal flows that at the
larger cost. -/
theorem beats_iff {tolerance : Signed max} (hz : 0 ≤ tolerance.val) {b best : Blocking (Signed max)}
    (hless : b.flow.val < best.flow.val → b.flow.val + tolerance.val < best.flow.val)
    (hmore : best.flow.val < b.flow.val → best.flow.val + tolerance.val < b.flow.val) {r : Bool}
    (e : b.beats tolerance best = .ok r) :
    r = true ↔ b.flow.val < best.flow.val ∨ b.flow.val = best.flow.val ∧ best.cost.val < b.cost.val := by
  unfold Blocking.beats at e
  obtain ⟨bound, hbound, e⟩ := Checked.bind_eq_ok_iff.1 e
  have hbound := Signed.sub_eq_ok_iff.1 hbound
  split at e
  · next hlt =>
    obtain rfl := Checked.pure_eq_ok_iff.1 e
    have hlt := Signed.lt_iff.1 hlt
    exact iff_of_true rfl (.inl (by omega))
  · next hlt =>
    obtain ⟨gap, hgap, e⟩ := Checked.bind_eq_ok_iff.1 e
    obtain ⟨size, hsize, e⟩ := Checked.bind_eq_ok_iff.1 e
    have hgap := Signed.sub_eq_ok_iff.1 hgap
    have hsize := Signed.abs_eq_ok_iff.1 hsize
    rw [Signed.lt_iff] at hlt
    split at e
    · next hle =>
      have hle := Signed.le_iff.1 hle
      obtain rfl := Checked.pure_eq_ok_iff.1 e
      rw [Signed.lt_iff]
      omega
    · next hle =>
      rw [Signed.le_iff] at hle
      obtain rfl := Checked.pure_eq_ok_iff.1 e
      exact iff_of_false (by simp) (by omega)

theorem beats_eq_ok {tolerance : Signed max} (hz : 0 ≤ tolerance.val) {b best : Blocking (Signed max)}
    (hless : b.flow.val < best.flow.val → b.flow.val + tolerance.val < best.flow.val)
    (hmore : best.flow.val < b.flow.val → best.flow.val + tolerance.val < b.flow.val) {r : Bool}
    (e : b.beats tolerance best = .ok r) : if r then b.flow.val ≤ best.flow.val else best.flow.val ≤ b.flow.val := by
  have hiff := beats_iff hz hless hmore e
  cases r with
  | true => simp only [true_iff, if_true] at hiff ⊢; omega
  | false => simp only [Bool.false_eq_true, false_iff, if_false] at hiff ⊢; omega

/-- If flows are separated the blocking arc carries the least flow of all arcs walked backward. -/
theorem le_of_blocking? {tolerance : Signed max} (hsep : g.Separated tolerance) {b : Blocking (Signed max)}
    (e : g.blocking? tolerance c = .ok (some b)) (hs : ⟨a, false⟩ ∈ c) (hx : g.arcs[a.index]? = some x) :
    b.flow.val ≤ x.flow.val := by
  have hmem : a ∈ (c.filter (!·.forward)).map Step.arc :=
    List.mem_map.2 ⟨_, List.mem_filter.2 ⟨hs, rfl⟩, rfl⟩
  have main : (∀ b', some b = some b' → g.Blocks c b') ∧ ∀ a ∈ (c.filter (!·.forward)).map Step.arc,
      ∀ x, g.arcs[a.index]? = some x → ∃ b', some b = some b' ∧ b'.flow.val ≤ x.flow.val := by
    refine Checked.foldlM_induction (fun done o => (∀ b', o = some b' → g.Blocks c b') ∧ ∀ a ∈ done,
      ∀ x, g.arcs[a.index]? = some x → ∃ b' : Blocking (Signed max), o = some b' ∧ b'.flow.val ≤ x.flow.val)
      e (by simp) ?_
    rintro done a best o ⟨rest, hl⟩ ⟨hblocks, ih⟩ e
    have hback := mem_of_mem_backward (c := c) (hl ▸ List.mem_append_right _ List.mem_cons_self)
    refine ⟨blocks_of_tighten hblocks hback e, fun a' ha' x' hx' => ?_⟩
    obtain ⟨y, hy, ho⟩ := tighten_eq_ok e
    rcases ho with ⟨rfl, rfl⟩ | ⟨b₀, beats, rfl, hbeats, rfl⟩
    · refine ⟨_, rfl, ?_⟩
      rcases List.mem_append.1 ha' with ha' | ha'
      · obtain ⟨_, hb, _⟩ := ih a' ha' x' hx'
        cases hb
      · rw [List.mem_singleton.1 ha', hy, Option.some.injEq] at hx'
        rw [hx']
    · -- The best so far has the flow of an arc, so it is tied with this one only if both carry the same.
      obtain ⟨z, hz, hflow, -, -⟩ := hblocks b₀ rfl
      have hle := beats_eq_ok hsep.nonneg (fun hlt => by rw [hflow] at hlt ⊢; exact hsep.apart hy hz hlt)
        (fun hlt => by rw [hflow] at hlt ⊢; exact hsep.apart hz hy hlt) hbeats
      refine ⟨_, rfl, ?_⟩
      rcases List.mem_append.1 ha' with ha' | ha'
      · obtain ⟨_, hb, hx'⟩ := ih a' ha' x' hx'
        cases hb
        cases beats with
        | true => exact hle.trans hx'
        | false => exact hx'
      · rw [List.mem_singleton.1 ha', hy, Option.some.injEq] at hx'
        subst hx'
        cases beats with
        | true => exact le_refl _
        | false => exact hle
  obtain ⟨_, hb, hle⟩ := main.2 a hmem x hx
  cases hb
  exact hle

end Transportation.Network
