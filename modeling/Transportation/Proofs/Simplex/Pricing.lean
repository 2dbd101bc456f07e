import Transportation.Proofs.Faults
import Transportation.Proofs.Network.WellFormed
import Transportation.Simplex.Pricing
/-!
# Pricing misses nothing

The three rules search in different orders and stop at different arcs, but if a rule finds no arc, none may enter
(`unattractive_of_price`). Each of them can fault as the reduced costs can (`faultsOnly_price`).
-/

namespace Transportation

variable {F : Type} {g : Network F} {phase : Phase} {a : ArcId} {arcs : List ArcId} {tolerance bound : F}

namespace Network

theorem mem_arcIdsFrom {start : Nat} (ha : a.index < g.numArcs) : a ∈ g.arcIdsFrom start := by
  have hlt : start % g.numArcs < g.numArcs := Nat.mod_lt _ (by omega)
  have hshift : (start + (a.index + (g.numArcs - start % g.numArcs)) % g.numArcs) % g.numArcs = a.index := by
    rw [Nat.add_mod_mod, ← Nat.mod_add_mod,
      show start % g.numArcs + (a.index + (g.numArcs - start % g.numArcs)) = a.index + g.numArcs by omega,
      Nat.add_mod_right, Nat.mod_eq_of_lt ha]
  refine List.mem_map.2 ⟨(a.index + (g.numArcs - start % g.numArcs)) % g.numArcs, ?_, ?_⟩
  · exact List.mem_range.2 (Nat.mod_lt _ (by omega))
  · rw [hshift]

theorem lt_of_mem_arcIdsFrom {start : Nat} (ha : a ∈ g.arcIdsFrom start) : a.index < g.numArcs := by
  obtain ⟨i, hi, rfl⟩ := List.mem_map.1 ha
  exact Nat.mod_lt _ (Nat.zero_lt_of_lt (List.mem_range.1 hi))

variable [Amount F]

/-- The arc `a` has been priced and its reduced cost, if it has one, is not below `bound`. -/
def Unattractive (g : Network F) (phase : Phase) (bound : F) (a : ArcId) : Prop :=
  ∃ o, g.reducedCost? phase a = .ok o ∧ ∀ c, o = some c → Amount.lt c bound = false

end Network

variable [Amount F]

namespace Pricing

theorem unattractive_of_improve {best : Option (Candidate F)} (h : improve g phase bound best a = .ok none) :
    best = none ∧ g.Unattractive phase bound a := by
  unfold improve at h
  obtain ⟨o, ho, h⟩ := Checked.bind_eq_ok_iff.1 h
  cases o with
  | none => exact ⟨Checked.pure_eq_ok_iff.1 h, none, ho, fun _ hc => (by cases hc)⟩
  | some c =>
    have h := Checked.pure_eq_ok_iff.1 h
    split at h
    · cases h
    · next hlt =>
      subst h
      refine ⟨rfl, some c, ho, fun _ hc => ?_⟩
      cases hc
      simpa using hlt

theorem unattractive_of_improves {best : Option (Candidate F)}
    (h : arcs.foldlM (improve g phase bound) best = .ok none) :
    best = none ∧ ∀ a ∈ arcs, g.Unattractive phase bound a := by
  induction arcs generalizing best with
  | nil => exact ⟨Checked.pure_eq_ok_iff.1 h, by simp⟩
  | cons a arcs ih =>
    obtain ⟨best', h', h⟩ := Checked.foldlM_cons_eq_ok_iff.1 h
    obtain ⟨rfl, hrest⟩ := ih h
    obtain ⟨rfl, ha⟩ := unattractive_of_improve h'
    exact ⟨rfl, List.forall_mem_cons.2 ⟨ha, hrest⟩⟩

theorem unattractive_of_firstBelow (h : firstBelow g phase tolerance arcs = .ok none) :
    ∀ a ∈ arcs, ∃ o, g.reducedCost? phase a = .ok o ∧
      ∀ c, o = some c → ∃ bound, Amount.neg tolerance = .ok bound ∧ Amount.lt c bound = false := by
  induction arcs with
  | nil => simp
  | cons a arcs ih =>
    rw [firstBelow] at h
    obtain ⟨o, ho, h⟩ := Checked.bind_eq_ok_iff.1 h
    cases o with
    | none => exact List.forall_mem_cons.2 ⟨⟨none, ho, fun _ hc => (by cases hc)⟩, ih h⟩
    | some c =>
      obtain ⟨bound, hb, h⟩ := Checked.bind_eq_ok_iff.1 h
      split at h
      · cases h
      · next hlt =>
        refine List.forall_mem_cons.2 ⟨⟨some c, ho, fun _ hc => ?_⟩, ih h⟩
        cases hc
        exact ⟨bound, hb, by simpa using hlt⟩

theorem unattractive_of_bestOfBlock {blockSize count count' : Nat} {best : Option (Candidate F)}
    (h : bestOfBlock g phase blockSize bound arcs count best = .ok (none, count')) :
    best = none ∧ ∀ a ∈ arcs, g.Unattractive phase bound a := by
  induction arcs generalizing count best with
  | nil =>
    cases h
    exact ⟨rfl, by simp⟩
  | cons a arcs ih =>
    rw [bestOfBlock] at h
    obtain ⟨best', h', h⟩ := Checked.bind_eq_ok_iff.1 h
    split at h
    · next hstop =>
      cases h
      simp at hstop
    · obtain ⟨rfl, hrest⟩ := ih h
      obtain ⟨rfl, ha⟩ := unattractive_of_improve h'
      exact ⟨rfl, List.forall_mem_cons.2 ⟨ha, hrest⟩⟩

end Pricing

namespace Simplex

/-- If no arc is found to enter, no arc has a reduced cost below minus the tolerance. -/
theorem unattractive_of_price {s : Simplex F} {cursor : Nat} (h : s.price = .ok (none, cursor))
    (ha : a.index < s.solution.numArcs) : ∃ o, s.solution.reducedCost? s.phase a = .ok o ∧
      ∀ c, o = some c → ∃ bound, Amount.neg s.options.zero = .ok bound ∧ Amount.lt c bound = false := by
  have hbound : ∀ {bound}, Amount.neg s.options.zero = .ok bound → s.solution.Unattractive s.phase bound a →
      ∃ o, s.solution.reducedCost? s.phase a = .ok o ∧
        ∀ c, o = some c → ∃ bound, Amount.neg s.options.zero = .ok bound ∧ Amount.lt c bound = false :=
    fun hb ⟨o, ho, hlt⟩ => ⟨o, ho, fun c hc => ⟨_, hb, hlt c hc⟩⟩
  unfold price at h
  cases hp : s.options.pricing with
  | complete =>
    simp only [hp] at h
    obtain ⟨bound, hb, h⟩ := Checked.bind_eq_ok_iff.1 h
    obtain ⟨best, hbest, h⟩ := Checked.bind_eq_ok_iff.1 h
    cases h
    exact hbound hb ((Pricing.unattractive_of_improves hbest).2 a (by cases a; simpa [Network.arcIds] using ha))
  | roundRobin =>
    simp only [hp] at h
    obtain ⟨o, ho, h⟩ := Checked.bind_eq_ok_iff.1 h
    cases o with
    | none => exact Pricing.unattractive_of_firstBelow ho a (Network.mem_arcIdsFrom ha)
    | some c => cases h
  | block =>
    simp only [hp] at h
    obtain ⟨bound, hb, h⟩ := Checked.bind_eq_ok_iff.1 h
    obtain ⟨⟨best, count⟩, hbest, h⟩ := Checked.bind_eq_ok_iff.1 h
    cases h
    exact hbound hb ((Pricing.unattractive_of_bestOfBlock hbest).2 a (Network.mem_arcIdsFrom ha))

/-- Only the rules that begin where the last search ended move the cursor. -/
theorem cursor_of_price {s : Simplex F} {c : Option (Candidate F)} {cursor : Nat} (hc : s.options.pricing = .complete)
    (h : s.price = .ok (c, cursor)) : cursor = s.cursor := by
  unfold price at h
  simp only [hc] at h
  obtain ⟨bound, -, h⟩ := Checked.bind_eq_ok_iff.1 h
  obtain ⟨best, -, h⟩ := Checked.bind_eq_ok_iff.1 h
  cases h
  rfl

end Simplex

/-! ## Faults -/

open Checked

variable {P : Fault → Prop}

namespace Network

/-- A reduced cost can fault as the steps of arithmetic in it can. -/
theorem faultsOnly_reducedCost? (hg : g.Numbered) (ha : a.index < g.numArcs)
    (hP : ∀ {x v w}, g.arcs[a.index]? = some x → x.inTree = false → g.vertices[x.src.index]? = some v →
      g.vertices[x.snk.index]? = some w → FaultsOnly P (Amount.add x.cost v.potential) ∧
        ∀ d, Amount.add x.cost v.potential = .ok d → FaultsOnly P (Amount.sub d w.potential)) :
    FaultsOnly P (g.reducedCost? phase a) := by
  refine .bind (.get ha) fun x hx => ?_
  rw [arc_eq_ok_iff] at hx
  split
  · exact .pure _
  · next hno =>
    have ht : x.inTree = false := by simp_all
    have hv := Array.getElem?_eq_getElem (hg.src_lt hx)
    have hw := Array.getElem?_eq_getElem (hg.snk_lt hx)
    obtain ⟨hadd, hsub⟩ := hP hx ht hv hw
    simp only [vertex, get_eq_ok_iff.2 hv, get_eq_ok_iff.2 hw, ok_bind]
    exact .bind hadd fun d hd => .bind (hsub d hd) fun _ _ => .pure _

end Network

namespace Pricing

theorem faultsOnly_improve {best : Option (Candidate F)} (h : FaultsOnly P (g.reducedCost? phase a)) :
    FaultsOnly P (improve g phase bound best a) := by
  refine .bind h fun r _ => ?_
  cases r <;> exact .pure _

theorem faultsOnly_firstBelow (hneg : FaultsOnly P (Amount.neg tolerance))
    (h : ∀ a ∈ arcs, FaultsOnly P (g.reducedCost? phase a)) : FaultsOnly P (firstBelow g phase tolerance arcs) := by
  induction arcs with
  | nil => exact .pure _
  | cons a arcs ih =>
    obtain ⟨ha, harcs⟩ := List.forall_mem_cons.1 h
    rw [firstBelow]
    refine .bind ha fun r _ => ?_
    cases r with
    | none => exact ih harcs
    | some r =>
      refine .bind hneg fun bound _ => ?_
      split
      · exact .pure _
      · exact ih harcs

theorem faultsOnly_bestOfBlock {blockSize count : Nat} {best : Option (Candidate F)}
    (h : ∀ a ∈ arcs, FaultsOnly P (g.reducedCost? phase a)) :
    FaultsOnly P (bestOfBlock g phase blockSize bound arcs count best) := by
  induction arcs generalizing count best with
  | nil => exact .pure _
  | cons a arcs ih =>
    obtain ⟨ha, harcs⟩ := List.forall_mem_cons.1 h
    rw [bestOfBlock]
    refine .bind (faultsOnly_improve ha) fun best' _ => ?_
    split
    · exact .pure _
    · exact ih harcs

end Pricing

theorem Simplex.faultsOnly_price {s : Simplex F} (hneg : FaultsOnly P (Amount.neg s.options.zero))
    (h : ∀ a : ArcId, a.index < s.solution.numArcs → FaultsOnly P (s.solution.reducedCost? s.phase a)) :
    FaultsOnly P s.price := by
  have hfrom : ∀ {start}, ∀ a ∈ s.solution.arcIdsFrom start, FaultsOnly P (s.solution.reducedCost? s.phase a) :=
    fun a ha => h a (Network.lt_of_mem_arcIdsFrom ha)
  unfold price
  cases s.options.pricing with
  | complete =>
    refine .bind hneg fun bound _ => .bind (.foldlM fun _ a _ _ hl _ => ?_) fun _ _ => .pure _
    have ha : a ∈ s.solution.arcIds := by simp [hl]
    obtain ⟨i, hi, rfl⟩ := List.mem_map.1 ha
    exact Pricing.faultsOnly_improve (h _ (List.mem_range.1 hi))
  | roundRobin =>
    refine .bind (Pricing.faultsOnly_firstBelow hneg hfrom) fun c _ => ?_
    cases c <;> exact .pure _
  | block => exact .bind hneg fun bound _ => .bind (Pricing.faultsOnly_bestOfBlock hfrom) fun _ _ => .pure _

end Transportation
