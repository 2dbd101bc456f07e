import Transportation.Proofs.Amount
import Transportation.Proofs.Simplex.Entering
/-!
# Potentials of the first phase

In the first phase no arc saves anything, so potentials do not decrease along tree arcs (`Network.Uphill`), whether the
arithmetic is exact or not. An arc that closes a cycle walked forward all around leads from a potential to one that is
not larger, so it is not found to enter, and the first phase is never said to be unbounded.
-/

namespace Transportation

variable {F : Type} [Amount F] {g h k : Network F} {t : Incidence}

namespace Network

/-- Every arc costs nothing or one. -/
def UnitCosts (g : Network F) : Prop :=
  ∀ x ∈ g.arcs.toList, x.cost = Amount.zero ∨ x.cost = Amount.one

theorem UnitCosts.of_plan (hg : g.UnitCosts) (e : h.plan = g.plan) : h.UnitCosts := by
  intro x hx
  obtain ⟨i, hi⟩ := mem_arcs_iff.1 hx
  obtain ⟨y, hy, hyx⟩ := exists_of_map_eq (plan_eq_iff.1 e).2 hi
  rw [← (Prod.mk.inj hyx).2]
  exact hg y (mem_arcs_iff.2 ⟨_, hy⟩)

theorem unitCosts_of_initial (hh : g.HasCosts .initial h) : h.UnitCosts := by
  intro x hx
  obtain ⟨i, hi⟩ := mem_arcs_iff.1 hx
  have hcost := hh hi
  cases hk : x.kind <;> rw [hk] at hcost
  · exact .inl hcost
  · exact .inr hcost

/-- Along every tree arc the potential does not decrease. -/
def Uphill (g : Network F) : Prop :=
  ∀ x ∈ g.treeArcs, ∃ v w, g.vertices[x.src.index]? = some v ∧ g.vertices[x.snk.index]? = some w ∧
    Amount.le v.potential w.potential = true

theorem Uphill.leave (hg : g.Uphill) (hv : h.vertices = g.vertices) (e : ∀ x ∈ h.treeArcs, x ∈ g.treeArcs) :
    h.Uphill := by
  intro x hx
  rw [hv]
  exact hg x (e x hx)

variable [OrderedAmount F]

theorem carries_le (hg : g.UnitCosts) :
    Incidence.Carries (fun _ p q => Amount.le p q = true) (fun p => Amount.le p p = true) g where
  zero := OrderedAmount.zero_le_zero
  forward hx hp h := by
    have hle := OrderedAmount.le_add_right (hg _ (mem_treeArcs_iff.1 hx).1) hp h
    exact ⟨OrderedAmount.le_refl_right hle, hle⟩
  backward hx hq h := by
    have hle := OrderedAmount.sub_le (hg _ (mem_treeArcs_iff.1 hx).1) hq h
    exact ⟨OrderedAmount.le_refl_left hle, hle⟩

theorem uphill_computePotentials (hs : SpanningTree t g) (hg : h.UnitCosts) {root : VertexId} {all : Bool}
    (hroot : g.numVertices ≠ 0 → root.index < g.numVertices) (e : t.computePotentials g root = .ok (h, all)) :
    h.Uphill := by
  have hunit : g.UnitCosts := by
    obtain ⟨ps, -, rfl⟩ := Incidence.computePotentials_eq_ok_iff.1 e
    exact hg
  exact fun x hx => hs.related (carries_le hunit) hroot e hx

/-- A walk of forward steps leads to a potential that is not smaller. -/
theorem Uphill.le_of_walk (hup : g.Uphill) (hg : g.Numbered) {c : List Step} {u v : VertexId}
    (hw : g.tree.Walk u c v) (hc : c ≠ []) (hf : ∀ s ∈ c, s.forward = true) :
    ∃ p q, g.vertices[u.index]? = some p ∧ g.vertices[v.index]? = some q ∧
      Amount.le p.potential q.potential = true := by
  induction c generalizing u with
  | nil => exact absurd rfl hc
  | cons s c ih =>
    obtain ⟨y, hl, hw⟩ := hw
    obtain ⟨hs, hf⟩ := List.forall_mem_cons.1 hf
    obtain ⟨x, hx, -, hends⟩ := hg.leads_tree.1 hl
    simp only [hs, if_true, Prod.mk.injEq] at hends
    obtain ⟨rfl, rfl⟩ := hends
    obtain ⟨p, q, hp, hq, hle⟩ := hup x hx
    by_cases hnil : c = []
    · subst hnil
      obtain rfl : x.snk = v := hw
      exact ⟨p, q, hp, hq, hle⟩
    · obtain ⟨q', r, hq', hr, hle'⟩ := ih hw hnil hf
      rw [hq, Option.some.injEq] at hq'
      subst hq'
      exact ⟨p, r, hp, hr, OrderedAmount.le_trans hle hle'⟩

end Network

namespace Simplex

open Network

variable [OrderedAmount F] {s s' : Simplex F}

theorem renewed_uphill : Renewed fun _ (h : Network F) => h.UnitCosts → h.Uphill where
  compute hs hroot e := fun hunit => uphill_computePotentials hs hunit hroot e
  leave hg hplan hv htree := fun hunit => (hg (hunit.of_plan hplan.symm)).leave hv htree

/-- With no negative tolerance a pivot of the first phase finds an arc to leave. -/
theorem not_unbounded (hs : Sound g s) (hup : s.solution.Uphill) (hunit : s.solution.UnitCosts)
    (hz : Amount.le Amount.zero s.options.zero = true) : ¬ PivotRun s (.error .unbounded) s' := by
  intro h
  generalize hr : (Except.error .unbounded : Except SolveError (Option (Pivot F))) = r at h
  cases h with
  | noTree | noCycle | optimal => cases hr
  | pivoted => split at hr <;> cases hr
  | @unbounded c cursor t g₁ cycle t' g₂ hphase hp hi hc hb hl =>
    obtain ⟨hcost, bound, hbound, hlt⟩ := attractive_of_price
      (Q := fun r => ∃ bound, Amount.neg s.options.zero = .ok bound ∧ Amount.lt r bound = true)
      (fun hb hlt => ⟨_, hb, hlt⟩) (fun ⟨b, hb, hlt'⟩ hlt => ⟨b, hb, OrderedAmount.lt_trans hlt hlt'⟩) hp
    obtain ⟨x, v, w, d, hx, -, -, hv, hw, hd, hsub⟩ := reducedCost?_eq_some_iff.1 hcost
    obtain ⟨back, rfl, hwalk, -⟩ := (hs.tree hphase).back_of_cycle hx hi hc
    have hne : back ≠ [] := by
      rintro rfl
      exact hs.wellFormed.loopless hx (Eq.symm hwalk)
    obtain ⟨w', v', hw', hv', hle⟩ := hup.le_of_walk hs.wellFormed.toNumbered hwalk hne
      (List.forall_mem_cons.1 (forward_of_blocking? hb)).2
    rw [hw, Option.some.injEq] at hw'
    rw [hv, Option.some.injEq] at hv'
    subst hw' hv'
    -- The reduced cost is what the arc costs and what the potentials have grown on the way back.
    have hgrow := OrderedAmount.le_add_left (hunit x (mem_arcs_iff.2 ⟨_, hx⟩)) (OrderedAmount.le_refl_right hle) hd
    rw [OrderedAmount.not_lt_neg (OrderedAmount.le_trans hle hgrow) hsub hz hbound] at hlt
    cases hlt

end Simplex

end Transportation
