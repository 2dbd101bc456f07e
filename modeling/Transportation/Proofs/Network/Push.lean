import Transportation.Proofs.Faults
import Transportation.Proofs.Network.Tree
import Transportation.Simplex.Pivot
/-!
# Pushing flow along a walk

Pushing changes the flow of the arcs walked and nothing else (`drained_push`). The arc that blocks a cycle is one
that is walked backward (`Blocks`). Around a cycle that uses no arc twice a push faults only as the change of a flow
can (`faultsOnly_push`).
-/

namespace Transportation

variable {F : Type} [Amount F]

/-- The arc without its flow. -/
def Arc.drained (x : Arc F) : Arc F :=
  { x with flow := Amount.zero }

theorem Arc.drained_eq_iff {x y : Arc F} : x.drained = y.drained ↔
    x.id = y.id ∧ x.src = y.src ∧ x.snk = y.snk ∧ x.cost = y.cost ∧ x.kind = y.kind ∧ x.inTree = y.inTree := by
  simp [drained]

namespace Network

variable {g h : Network F} {a : ArcId} {x : Arc F} {s : Step} {c : List Step} {delta : F} {i : Nat}

/-- The network without its flow. -/
def drained (g : Network F) : Network F :=
  g.mapArcs Arc.drained

theorem exists_arc_of_drained (e : h.drained = g.drained) (hx : h.arcs[i]? = some x) :
    ∃ y, g.arcs[i]? = some y ∧ y.drained = x.drained :=
  exists_of_map_eq (congrArg (·.arcs) e) hx

theorem vertices_of_drained (e : h.drained = g.drained) : h.vertices = g.vertices := by
  simpa [drained, mapArcs] using congrArg (·.vertices) e

/-- What does not depend on flows can be read off the arcs without their flow. -/
theorem map_arcs_of_map_drained {β : Type} (e : h.arcs.map Arc.drained = g.arcs.map Arc.drained) {f : Arc F → β}
    (hf : ∀ x, f x.drained = f x) : h.arcs.map f = g.arcs.map f := by
  have key : ∀ k : Network F, k.arcs.map f = (k.arcs.map Arc.drained).map f := by
    intro k
    simp [Array.map_map, Function.comp_def, hf]
  rw [key, key g, e]

theorem map_arcs_of_drained {β : Type} (e : h.drained = g.drained) {f : Arc F → β} (hf : ∀ x, f x.drained = f x) :
    h.arcs.map f = g.arcs.map f :=
  map_arcs_of_map_drained (congrArg (·.arcs) e) hf

theorem frame_of_drained (e : h.drained = g.drained) : h.frame = g.frame := by
  have hid : h.id = g.id := by simpa [drained, mapArcs] using congrArg (·.id) e
  have hname : h.name = g.name := by simpa [drained, mapArcs] using congrArg (·.name) e
  simp only [frame, hid, hname, vertices_of_drained e, map_arcs_of_drained e (f := Arc.frame) fun _ => rfl]

theorem tree_of_drained (e : h.drained = g.drained) (hg : g.Numbered) : h.tree = g.tree := by
  refine tree_congr (hg.of_frame (frame_of_drained e)) hg fun i => ?_
  have e := map_arcs_of_drained e (f := fun x => (x.src, x.snk, x.inTree)) fun _ => rfl
  simpa using congrArg (·[i]?) e

/-! ## Pushing -/

theorem pushStep_eq_ok (e : g.pushStep delta s = .ok h) :
    ∃ x flow, g.arcs[s.arc.index]? = some x ∧
      (if s.forward then Amount.add x.flow delta else Amount.sub x.flow delta) = .ok flow ∧
      g.modifyArc s.arc ({ · with flow }) = .ok h := by
  unfold pushStep at e
  obtain ⟨x, hx, e⟩ := Checked.bind_eq_ok_iff.1 e
  rw [arc_eq_ok_iff] at hx
  cases hf : s.forward with
  | true =>
    simp only [hf, if_true] at e
    obtain ⟨flow, hflow, e⟩ := Checked.bind_eq_ok_iff.1 e
    exact ⟨x, flow, hx, by simpa using hflow, e⟩
  | false =>
    simp only [hf, Bool.false_eq_true, if_false] at e
    obtain ⟨flow, hflow, e⟩ := Checked.bind_eq_ok_iff.1 e
    exact ⟨x, flow, hx, by simpa using hflow, e⟩

theorem drained_modifyArc {flow : F} (e : g.modifyArc a ({ · with flow }) = .ok h) : h.drained = g.drained := by
  obtain ⟨-, rfl⟩ := modifyArc_eq_ok_iff.1 e
  simp only [drained, mapArcs, Network.mk.injEq, true_and]
  refine Array.ext_getElem? fun i => ?_
  simp only [Array.getElem?_map, Array.getElem?_modify]
  split
  · cases g.arcs[i]? <;> rfl
  · rfl

theorem drained_push (e : g.push delta c = .ok h) : h.drained = g.drained := by
  refine Checked.foldlM_keeps (fun k => k.drained = g.drained) e rfl ?_
  intro s _ k k' hk e
  obtain ⟨_, _, _, _, e⟩ := pushStep_eq_ok e
  exact (drained_modifyArc e).trans hk

/-! ## Blocking -/

/-- The record `b` is of the arc of a backward step of `c`. -/
def Blocks (g : Network F) (c : List Step) (b : Blocking F) : Prop :=
  ∃ x, g.arcs[b.arc.index]? = some x ∧ b.flow = x.flow ∧ b.cost = x.cost ∧ ⟨b.arc, false⟩ ∈ c

theorem tighten_eq_ok {best : Option (Blocking F)} {tolerance : F} {o : Option (Blocking F)}
    (e : g.tighten tolerance best a = .ok o) :
    ∃ x, g.arcs[a.index]? = some x ∧ ((best = none ∧ o = some ⟨a, x.flow, x.cost⟩) ∨
      ∃ b beats, best = some b ∧ (Blocking.mk a x.flow x.cost).beats tolerance b = .ok beats ∧
        o = some (if beats then ⟨a, x.flow, x.cost⟩ else b)) := by
  unfold tighten at e
  obtain ⟨x, hx, e⟩ := Checked.bind_eq_ok_iff.1 e
  rw [arc_eq_ok_iff] at hx
  refine ⟨x, hx, ?_⟩
  cases best with
  | none => exact .inl ⟨rfl, (Checked.pure_eq_ok_iff.1 e).symm⟩
  | some b =>
    obtain ⟨beats, hb, e⟩ := Checked.bind_eq_ok_iff.1 e
    exact .inr ⟨b, beats, rfl, hb, (Checked.pure_eq_ok_iff.1 e).symm⟩

/-- If no arc blocks a cycle, none is walked backward. -/
theorem forward_of_blocking? {tolerance : F} (e : g.blocking? tolerance c = .ok none) : ∀ s ∈ c, s.forward = true := by
  have hsome : (c.filter (!·.forward)).map Step.arc ≠ [] → (none : Option (Blocking F)).isSome := by
    refine Checked.foldlM_induction (fun done o => done ≠ [] → o.isSome) e (absurd rfl) ?_
    intro done a best o _ _ e _
    obtain ⟨x, -, ⟨-, rfl⟩ | ⟨b, beats, -, -, rfl⟩⟩ := tighten_eq_ok e <;> rfl
  intro s hs
  by_contra hf
  refine Bool.false_ne_true (hsome ?_)
  exact List.ne_nil_of_mem (List.mem_map_of_mem (List.mem_filter.2 ⟨hs, by simpa using hf⟩))

theorem mem_of_mem_backward (ha : a ∈ (c.filter (!·.forward)).map Step.arc) : ⟨a, false⟩ ∈ c := by
  obtain ⟨s, hs, rfl⟩ := List.mem_map.1 ha
  obtain ⟨hs, hf⟩ := List.mem_filter.1 hs
  cases s
  simp_all

theorem blocks_of_tighten {tolerance : F} {best o : Option (Blocking F)} (hbest : ∀ b, best = some b → g.Blocks c b)
    (ha : ⟨a, false⟩ ∈ c) (e : g.tighten tolerance best a = .ok o) : ∀ b, o = some b → g.Blocks c b := by
  rintro b rfl
  obtain ⟨x, hx, ⟨-, ho⟩ | ⟨b', beats, rfl, -, ho⟩⟩ := tighten_eq_ok e
  · cases ho
    exact ⟨x, hx, rfl, rfl, ha⟩
  · cases beats with
    | true => cases ho; exact ⟨x, hx, rfl, rfl, ha⟩
    | false => cases ho; exact hbest _ rfl

theorem blocks_of_blocking? {tolerance : F} {b : Blocking F} (e : g.blocking? tolerance c = .ok (some b)) :
    g.Blocks c b :=
  Checked.foldlM_keeps (fun o => ∀ b, o = some b → g.Blocks c b) e (by simp)
    (fun _ ha _ _ hbest e => blocks_of_tighten hbest (mem_of_mem_backward ha) e) b rfl

/-! ## Faults -/

open Checked

variable {P : Fault → Prop}

theorem faultsOnly_beats {tolerance : F} {b best : Blocking F} (hbound : FaultsOnly P (Amount.sub best.flow tolerance))
    (hgap : FaultsOnly P (Amount.sub b.flow best.flow))
    (habs : ∀ d, Amount.sub b.flow best.flow = .ok d → FaultsOnly P (Amount.abs d)) :
    FaultsOnly P (b.beats tolerance best) := by
  refine .bind hbound fun bound _ => ?_
  split
  · exact .pure _
  · refine .bind hgap fun d hd => .bind (habs d hd) fun size _ => ?_
    split <;> exact .pure _

/-- The search for the blocking arc can fault as comparisons of arcs of the cycle can. -/
theorem faultsOnly_blocking? {tolerance : F} (hc : ∀ s ∈ c, ∃ x, g.arcs[s.arc.index]? = some x)
    (hP : ∀ {b best}, g.Blocks c b → g.Blocks c best → FaultsOnly P (b.beats tolerance best)) :
    FaultsOnly P (g.blocking? tolerance c) := by
  refine .foldlM_of_invariant (fun o => ∀ b, o = some b → g.Blocks c b) (by simp) (fun a ha best hbest => ?_)
    fun a ha best o hbest e => blocks_of_tighten hbest (mem_of_mem_backward ha) e
  have ha := mem_of_mem_backward ha
  obtain ⟨x, hx⟩ := hc _ ha
  refine .bind (.of_ok (arc_eq_ok_iff.2 hx)) fun y hy => ?_
  rw [arc_eq_ok_iff] at hy
  cases best with
  | none => exact .pure _
  | some best => exact .bind (hP ⟨y, hy, rfl, rfl, ha⟩ (hbest best rfl)) fun _ _ => .pure _

/-- A push around a cycle can fault as the change of each flow can. -/
theorem faultsOnly_push (hn : (c.map Step.arc).Nodup)
    (hP : ∀ s ∈ c, ∃ x, g.arcs[s.arc.index]? = some x ∧
      FaultsOnly P (if s.forward then Amount.add x.flow delta else Amount.sub x.flow delta)) :
    FaultsOnly P (g.push delta c) := by
  induction c generalizing g with
  | nil => exact .pure _
  | cons s c ih =>
    obtain ⟨⟨x, hx, hs⟩, hc⟩ := List.forall_mem_cons.1 hP
    obtain ⟨hnot, hn⟩ := List.nodup_cons.1 hn
    rw [push, List.foldlM_cons]
    refine .bind ?_ fun k hk => ih hn fun s' hs' => ?_
    · unfold pushStep
      simp only [arc_eq_ok_iff.2 hx, ok_bind]
      have hm : ∀ flow, FaultsOnly P (g.modifyArc s.arc ({ · with flow })) := fun flow =>
        .of_ok (modifyArc_eq_ok_iff.2 ⟨(Array.getElem?_eq_some_iff.1 hx).1, rfl⟩)
      cases hf : s.forward <;> simp only [hf, Bool.false_eq_true, if_true, if_false] at hs ⊢
      all_goals exact .bind hs fun flow _ => hm flow
    · -- The arcs walked later are as they were.
      obtain ⟨_, _, _, _, hm⟩ := pushStep_eq_ok hk
      obtain ⟨y, hy, hs'y⟩ := hc s' hs'
      have hne : s.arc.index ≠ s'.arc.index := fun h => hnot (ArcId.ext h ▸ List.mem_map_of_mem hs')
      exact ⟨y, by rw [getElem?_modifyArc hm, if_neg hne, hy], hs'y⟩

end Network

end Transportation
