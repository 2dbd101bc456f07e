import Transportation.Proofs.Simplex.Entering
import Transportation.Proofs.Simplex.Optimal
/-!
# What a pivot changes

A pivot that succeeds puts one arc in the place of another in the tree and changes the flow around one cycle
(`Exchanged`). At the potentials before it the reduced cost is zero along the arcs that stay in the tree, and the arc
that leaves carries nothing after it, so the cost of the flow changes by what the entering arc has got, at its reduced
cost (`Basic.cost_of_pivot`). No sum around the cycle is needed for that.
-/

namespace Transportation

variable {max : Nat}

namespace Network

variable {g g₁ g₂ h : Network (Signed max)} {t t₁ t₂ : Incidence} {a b : ArcId} {x z : Arc (Signed max)} {c : List Step}
  {delta : Signed max} {p : Pivot (Signed max)} {i : Nat}

/-- At any potentials a basic flow costs what the weights are worth and what the arcs cost beyond that. -/
theorem BasicFlow.cost_eq_worth_add (hf : BasicFlow g h) (hh : h.Numbered) (hn : h.numVertices = g.numVertices)
    (q : VertexId → Int) : (h.arcs.toList.map fun x => x.cost.val * x.flow.val).sum =
      g.worth q + (h.arcs.toList.map fun x => x.reducedCost q * x.flow.val).sum := by
  rw [hf.worth_eq hh hn, ← List.sum_map_add]
  congr 1
  refine List.map_congr_left fun x _ => ?_
  rw [Arc.reducedCost]
  ring

/-! ## Arcs before and after -/

/-- The pivot `p` has made `h` of `g`: around the cycle `c` it has pushed what the leaving arc had to give. -/
structure Exchanged (g h : Network (Signed max)) (p : Pivot (Signed max)) (c : List Step) : Prop where
  frame : h.frame = g.frame
  nodup : (c.map Step.arc).Nodup
  entering : ⟨p.entering, true⟩ ∈ c
  leaving : ⟨p.leaving, false⟩ ∈ c
  given : ∃ x, g.arcs[p.leaving.index]? = some x ∧ x.inTree = true ∧ x.flow = p.delta
  arc : ∀ {i : Nat} {x : Arc (Signed max)}, g.arcs[i]? = some x → ∃ flow : Signed max,
    h.arcs[i]? = some { x with
      flow
      inTree := if p.leaving.index = i then false else if p.entering.index = i then true else x.inTree } ∧
    flow.val = x.flow.val + sign c i * p.delta.val

/-- The cycle is walked forward along the entering arc and backward along the leaving one. -/
theorem Exchanged.ne (hx : Exchanged g h p c) : p.entering ≠ p.leaving := by
  intro he
  have hsame := List.inj_on_of_nodup_map hx.nodup hx.entering hx.leaving he
  cases congrArg Step.forward hsame

theorem Exchanged.index_ne (hx : Exchanged g h p c) : p.leaving.index ≠ p.entering.index :=
  fun he => hx.ne (ArcId.ext he.symm)

/-- The entering arc gets what is pushed. -/
theorem Exchanged.flow_entering (he : Exchanged g h p c) (hx : g.arcs[p.entering.index]? = some x)
    (hz : h.arcs[p.entering.index]? = some z) : z.flow.val = x.flow.val + p.delta.val := by
  obtain ⟨flow, hz', hflow⟩ := he.arc hx
  rw [hz, Option.some.injEq] at hz'
  rw [hz', hflow, show sign c p.entering.index = 1 from sign_of_mem he.nodup he.entering, one_mul]

theorem Exchanged.exists_arc (he : Exchanged g h p c) (hz : h.arcs[i]? = some z) :
    ∃ x, g.arcs[i]? = some x ∧ (∀ q, z.reducedCost q = x.reducedCost q) ∧
      z.inTree = if p.leaving.index = i then false else if p.entering.index = i then true else x.inTree := by
  obtain ⟨x, hx, -⟩ := exists_arc_of_frame he.frame hz
  obtain ⟨flow, hz', -⟩ := he.arc hx
  rw [hz, Option.some.injEq] at hz'
  subst hz'
  exact ⟨x, hx, fun _ => rfl, rfl⟩

/-- The tree gains the entering arc and loses the leaving one. -/
theorem Exchanged.map_inTree (he : Exchanged g h p c) (i : Nat) : h.arcs[i]?.map Arc.inTree =
    g.arcs[i]?.map fun x => if p.leaving.index = i then false else if p.entering.index = i then true else x.inTree := by
  cases hx : g.arcs[i]? with
  | some x =>
    obtain ⟨flow, hz, -⟩ := he.arc hx
    rw [hz]
    rfl
  | none =>
    cases hz : h.arcs[i]? with
    | none => rfl
    | some z =>
      obtain ⟨x, hx', -⟩ := he.exists_arc hz
      rw [hx] at hx'
      cases hx'

variable [NeZero max]

/-- What entering, pushing and leaving do to one arc. -/
theorem exists_arc_of_exchange (hi : t.insert g a = .ok (t₁, g₁)) (hpush : g₁.push delta c = .ok g₂)
    (hl : t₁.remove g₂ b = .ok (t₂, h)) (hn : (c.map Step.arc).Nodup) (hx : g.arcs[i]? = some x) :
    ∃ flow : Signed max, h.arcs[i]? = some { x with
        flow
        inTree := if b.index = i then false else if a.index = i then true else x.inTree } ∧
      flow.val = x.flow.val + sign c i * delta.val := by
  obtain ⟨_, _, _, _, henter⟩ := Incidence.insert_eq_ok_iff.1 hi
  obtain ⟨_, _, _, _, hleave⟩ := Incidence.remove_eq_ok_iff.1 hl
  have h₁ : g₁.arcs[i]? = some { x with inTree := if a.index = i then true else x.inTree } := by
    rw [getElem?_modifyArc henter, hx]
    split <;> rfl
  obtain ⟨flow, h₂, hflow⟩ := flow_push hpush hn h₁
  refine ⟨flow, ?_, hflow⟩
  rw [getElem?_modifyArc hleave, h₂]
  split <;> rfl

end Network

namespace Simplex

open Network

variable [NeZero max] {g : Network (Signed max)} {s s' : Simplex (Signed max)} {p : Pivot (Signed max)}

/-- A pivot that succeeds exchanges the arc found for another. -/
theorem Sound.exchanged_of_pivot (hs : Sound g s) (h : PivotRun s (.ok (some p)) s') :
    ∃ c, Exchanged s.solution s'.solution p c := by
  have hframe := (plan_eq_iff.1 (pivot_keeps hs.tree (hs.numVertices_eq ▸ hs.root) h).1).1
  generalize hr : (Except.ok (some p) : Except SolveError (Option (Pivot (Signed max)))) = r at h
  cases h with
  | noTree | optimal | noCycle | unbounded => cases hr
  | @pivoted c cursor t g₁ cycle b g₂ t' k k' all hphase hprice hi hc hb hpush hl hu =>
    split at hr
    case isFalse => cases hr
    cases hr
    have huni := (hs.tree hphase).insert hi
    obtain ⟨⟨rest, hfirst⟩, ⟨u, hw⟩, hn⟩ := huni.cycle hc
    obtain ⟨x, hx, hflow, -, hmem⟩ := blocks_of_blocking? hb
    obtain ⟨ps, -, rfl⟩ := Incidence.computePotentials_eq_ok_iff.1 hu
    have hne : c.arc.index ≠ b.arc.index := by
      intro he
      have hsame := List.inj_on_of_nodup_map hn (hfirst ▸ List.mem_cons_self) hmem (ArcId.ext he)
      cases congrArg Step.forward hsame
    refine ⟨cycle, hframe, hn, hfirst ▸ List.mem_cons_self, hmem, ?_,
      fun hx => (exists_arc_of_exchange hi hpush hl hn hx :)⟩
    -- The leaving arc was in the tree with the flow it has when it is found.
    obtain ⟨y, hy, hin⟩ := huni.wellFormed.toNumbered.exists_of_walk hw (List.mem_map_of_mem hmem)
    rw [hx, Option.some.injEq] at hy
    obtain ⟨_, _, _, _, henter⟩ := Incidence.insert_eq_ok_iff.1 hi
    rw [getElem?_modifyArc henter, if_neg hne] at hx
    exact ⟨x, hx, hy ▸ hin, hflow.symm⟩

/-- The flow costs more by what is pushed, at the reduced cost of the entering arc. -/
theorem Basic.cost_of_pivot (hs : Basic g s) (h : PivotRun s (.ok (some p)) s') :
    (s'.solution.arcs.toList.map fun x => x.cost.val * x.flow.val).sum =
      (s.solution.arcs.toList.map fun x => x.cost.val * x.flow.val).sum + p.reducedCost.val * p.delta.val := by
  have hs' := hs.pivot h
  obtain ⟨hphase, cursor, hprice⟩ := h.of_some
  obtain ⟨c, hex⟩ := hs.exchanged_of_pivot h
  have hflow := hs.flow hphase
  have hflow' := hs'.flow (h.constants.2.2.1 ▸ hphase)
  have hnum' := hs'.wellFormed.toNumbered
  obtain ⟨x, hx, hout, -, hcost, -⟩ := entering_of_price hprice
  obtain ⟨z, hz⟩ : ∃ z, s'.solution.arcs[p.entering.index]? = some z := (hex.arc hx).imp' _ fun _ h => h.1
  -- After the pivot the entering arc alone has both flow and a reduced cost at the old potentials.
  have hreduced : ∀ y ∈ s'.solution.arcs.toList, y.reducedCost s.solution.potential * y.flow.val =
      if y.id = p.entering then p.reducedCost.val * p.delta.val else 0 := by
    intro y hy
    obtain ⟨i, hi⟩ := mem_arcs_iff.1 hy
    obtain ⟨w, hw, hreduced, htree⟩ := hex.exists_arc hi
    by_cases he : y.id = p.entering
    · obtain rfl : p.entering.index = i := by rw [← he, hnum'.arc_id hi]
      rw [hx, Option.some.injEq] at hw
      rw [if_pos he, hreduced, hex.flow_entering hx hi, hflow.idle hx hout, zero_add, ← hw, hcost, Arc.reducedCost]
    · have hne : p.entering.index ≠ i := fun hpi => he (by rw [hnum'.arc_id hi, ← hpi])
      rw [if_neg he]
      rw [if_neg hne] at htree
      split at htree
      · rw [hflow'.idle hi htree, mul_zero]
      · cases hin : w.inTree with
        | false => rw [hflow'.idle hi (htree.trans hin), mul_zero]
        | true =>
          have htight := hs.tight hphase w (mem_treeArcs_iff.2 ⟨mem_arcs_iff.2 ⟨i, hw⟩, hin⟩)
          rw [hreduced, htight.reducedCost_eq, zero_mul]
  have hsum := hnum'.sum_ite_id (mem_arcs_iff.2 ⟨_, hz⟩) (p.reducedCost.val * p.delta.val)
  rw [hnum'.arc_id hz] at hsum
  rw [hflow'.cost_eq_worth_add hnum' hs'.numVertices_eq s.solution.potential, List.map_congr_left hreduced, hsum,
    hflow.cost_eq (hs.tight hphase) hs.wellFormed.toNumbered hs.numVertices_eq]

/-- The value changes by the cost of what is pushed. -/
theorem Basic.value_of_pivot (hs : Basic g s) (h : PivotRun s (.ok (some p)) s') {v v' : Signed max}
    (hv : s.solution.value = .ok v) (hv' : s'.solution.value = .ok v') :
    v'.val = v.val + p.reducedCost.val * p.delta.val := by
  obtain ⟨hphase, -⟩ := h.of_some
  rw [((hs.pivot h).flow (h.constants.2.2.1 ▸ hphase)).val_of_value hv', hs.cost_of_pivot h,
    ← (hs.flow hphase).val_of_value hv]

/-- Whatever was asked of a solver without a tolerance: if a pivot succeeds, its reduced cost is negative and it pushes
no less than nothing. Unless the value overflows before or after it, the value changes by the product of the two, so it
does not grow, and shrinks if and only if something is pushed. The entering arc comes from outside the tree and goes into
it, another arc leaves the tree and carries nothing any more, and all others stay where they are. -/
theorem accounting_of_reachable (b : Builder (Signed max)) (h : Reachable (fun o => o.zero = Amount.zero) b.network s)
    (hp : s.run pivot = .ok (.ok (some p), s')) :
    (p.reducedCost.val < 0 ∧ 0 ≤ p.delta.val) ∧
    ((∃ op, s.solution.value = .error (.overflow op)) ∨ (∃ op, s'.solution.value = .error (.overflow op)) ∨
      ∃ v v', s.solution.value = .ok v ∧ s'.solution.value = .ok v' ∧
        v'.val = v.val + p.reducedCost.val * p.delta.val ∧ v'.val ≤ v.val ∧ (v'.val < v.val ↔ 0 < p.delta.val)) ∧
    (p.entering ≠ p.leaving ∧
      s.solution.arcs[p.entering.index]?.map Arc.inTree = some false ∧
      s'.solution.arcs[p.entering.index]?.map Arc.inTree = some true ∧
      s.solution.arcs[p.leaving.index]?.map Arc.inTree = some true ∧
      s'.solution.arcs[p.leaving.index]?.map (fun x => (x.inTree, x.flow.val)) = some (false, 0) ∧
      ∀ a, a ≠ p.entering → a ≠ p.leaving →
        s'.solution.arcs[a.index]?.map Arc.inTree = s.solution.arcs[a.index]?.map Arc.inTree) := by
  have hs := basic_of_reachable (wellFormed_network b) h
  replace hp := pivotRun_of_run hp
  have hs' := hs.pivot hp
  obtain ⟨hphase, cursor, hprice⟩ := hp.of_some
  obtain ⟨c, hex⟩ := hs.exchanged_of_pivot hp
  have hphase' : s'.phase ≠ .setup := hp.constants.2.2.1 ▸ hphase
  obtain ⟨x, hx, hout, -, -, hcost⟩ := entering_of_price hprice
  replace hcost : p.reducedCost.val < 0 := by rwa [hs.exact, neg_zero] at hcost
  obtain ⟨y, hy, hin, hgiven⟩ := hex.given
  have hdelta : 0 ≤ p.delta.val := hgiven ▸ (hs.flow hphase).nonneg hy
  refine ⟨⟨hcost, hdelta⟩, ?_, hex.ne, ?_, ?_, ?_, ?_, fun a ha ha' => ?_⟩
  · cases hv : s.solution.value with
    | error e => exact .inl ((overflow_of_value hv).imp fun _ => congrArg _)
    | ok v =>
      cases hv' : s'.solution.value with
      | error e => exact .inr (.inl ((overflow_of_value hv').imp fun _ => congrArg _))
      | ok v' =>
        have hchange := hs.value_of_pivot hp hv hv'
        have hle := mul_nonpos_of_nonpos_of_nonneg hcost.le hdelta
        have hlt : p.reducedCost.val * p.delta.val < 0 ↔ 0 < p.delta.val := by rw [mul_neg_iff]; omega
        exact .inr (.inr ⟨v, v', rfl, rfl, hchange, by omega, by omega⟩)
  · rw [hx, Option.map_some, hout]
  · rw [hex.map_inTree, hx, Option.map_some, if_neg hex.index_ne, if_pos rfl]
  · rw [hy, Option.map_some, hin]
  · obtain ⟨flow, hz, -⟩ := hex.arc hy
    rw [if_pos rfl] at hz
    rw [hz, Option.map_some, (hs'.flow hphase').idle hz rfl]
  · have hne : p.entering.index ≠ a.index := fun he => ha (ArcId.ext he.symm)
    have hne' : p.leaving.index ≠ a.index := fun he => ha' (ArcId.ext he.symm)
    rw [hex.map_inTree]
    simp only [hne, hne', if_false]

theorem accounting_of_relay : ∃ (s s' : Simplex Signed8) (p : Pivot Signed8),
    Reachable (fun o => o.zero = Amount.zero) Builder.relay.network s ∧ s.phase = .initial ∧
    s.run pivot = .ok (.ok (some p), s') ∧ p.delta.val = 3 ∧
    (p.reducedCost.val < 0 ∧ 0 ≤ p.delta.val) ∧
    ((∃ op, s.solution.value = .error (.overflow op)) ∨ (∃ op, s'.solution.value = .error (.overflow op)) ∨
      ∃ v v', s.solution.value = .ok v ∧ s'.solution.value = .ok v' ∧
        v'.val = v.val + p.reducedCost.val * p.delta.val ∧ v'.val ≤ v.val ∧ (v'.val < v.val ↔ 0 < p.delta.val)) ∧
    (p.entering ≠ p.leaving ∧
      s.solution.arcs[p.entering.index]?.map Arc.inTree = some false ∧
      s'.solution.arcs[p.entering.index]?.map Arc.inTree = some true ∧
      s.solution.arcs[p.leaving.index]?.map Arc.inTree = some true ∧
      s'.solution.arcs[p.leaving.index]?.map (fun x => (x.inTree, x.flow.val)) = some (false, 0) ∧
      ∀ a, a ≠ p.entering → a ≠ p.leaving →
        s'.solution.arcs[a.index]?.map Arc.inTree = s.solution.arcs[a.index]?.map Arc.inTree) := by
  let s₁ := (new Builder.relay.network).after start
  let s₂ := s₁.after pivot
  let first : Pivot Signed8 := ⟨⟨0⟩, ⟨3⟩, ⟨-2, by decide, by decide⟩, .zero⟩
  let p : Pivot Signed8 := ⟨⟨1⟩, ⟨2⟩, .minusOne, .ofNat 3 (by decide)⟩
  have hfirst : s₁.run pivot = .ok (.ok (some first), s₂) := by decide +kernel
  have hpivot : s₂.run pivot = .ok (.ok (some p), s₂.after pivot) := by decide +kernel
  have hreach : Reachable (fun o => o.zero = Amount.zero) Builder.relay.network s₂ :=
    .pivot (.start .new run_start_relay) hfirst
  have hphase : s₂.phase = .initial := by decide +kernel
  have hdelta : p.delta.val = 3 := rfl
  -- With their values, states would be compared by running the solver.
  clear_value s₂ p
  exact ⟨s₂, _, p, hreach, hphase, hpivot, hdelta, accounting_of_reachable Builder.relay hreach hpivot⟩

end Simplex

end Transportation
