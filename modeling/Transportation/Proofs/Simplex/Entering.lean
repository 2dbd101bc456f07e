import Transportation.Proofs.Simplex.Pricing
import Transportation.Proofs.Simplex.Tight
/-!
# The entering arc

Whatever the rule, an arc that is found may enter: it is not in the tree, it is a real arc unless the first phase
is going on, and its reduced cost is below minus the tolerance (`entering_of_price`).
-/

namespace Transportation

section
variable {F : Type} [Amount F] {g : Network F} {phase : Phase} {a : ArcId} {arcs : List ArcId} {c : Candidate F}
  {tolerance bound : F} {Q : F → Prop}

/-- The arc may enter the tree: it is outside it, and real unless the first phase is going on. -/
def Arc.Eligible (x : Arc F) (phase : Phase) : Prop :=
  x.inTree = false ∧ (x.kind = .real ∨ phase = .initial)

omit [Amount F] in
theorem Arc.eligible_iff {x : Arc F} :
    x.Eligible phase ↔ (x.inTree || (x.isArtificial && phase != .initial)) = false := by
  cases hk : x.kind <;> simp [Arc.Eligible, Arc.isArtificial, hk]

namespace Network

theorem reducedCost?_eq_some_iff {r : F} : g.reducedCost? phase a = .ok (some r) ↔
    ∃ x v w d, g.arcs[a.index]? = some x ∧ x.inTree = false ∧ (x.kind = .real ∨ phase = .initial) ∧
      g.vertices[x.src.index]? = some v ∧ g.vertices[x.snk.index]? = some w ∧
      Amount.add x.cost v.potential = .ok d ∧ Amount.sub d w.potential = .ok r := by
  simp only [reducedCost?, Checked.bind_eq_ok_iff, arc_eq_ok_iff]
  constructor
  · rintro ⟨x, hx, h⟩
    split at h
    · cases h
    · next hno =>
      simp only [Checked.bind_eq_ok_iff, vertex_eq_ok_iff, Checked.pure_eq_ok_iff, Option.some.injEq] at h
      obtain ⟨v, hv, d, hd, w, hw, r', hr, rfl⟩ := h
      obtain ⟨ht, hk⟩ := Arc.eligible_iff.2 (Bool.eq_false_iff.2 hno)
      exact ⟨x, v, w, d, hx, ht, hk, hv, hw, hd, hr⟩
  · rintro ⟨x, v, w, d, hx, ht, hk, hv, hw, hd, hr⟩
    refine ⟨x, hx, ?_⟩
    simp only [Arc.eligible_iff.1 ⟨ht, hk⟩, Bool.false_eq_true, if_false, Checked.bind_eq_ok_iff, vertex_eq_ok_iff,
      Checked.pure_eq_ok_iff, Option.some.injEq]
    exact ⟨v, hv, d, hd, w, hw, r, hr, rfl⟩

/-- Only arcs that may enter are priced. -/
theorem eligible_of_reducedCost? {i : Nat} {x : Arc F} (hx : g.arcs[i]? = some x)
    (h : g.reducedCost? phase ⟨i⟩ ≠ .ok none) : x.Eligible phase := by
  rw [Arc.eligible_iff, ← Bool.not_eq_true]
  intro hno
  refine h ?_
  simp only [reducedCost?, arc_eq_ok_iff.2 hx, Checked.ok_bind, hno, if_true]
  rfl

/-- An arc that may enter has a reduced cost, if it can be computed. -/
theorem exists_of_reducedCost? {i : Nat} {x : Arc F} {o : Option F} (hx : g.arcs[i]? = some x) (he : x.Eligible phase)
    (h : g.reducedCost? phase ⟨i⟩ = .ok o) : ∃ r, o = some r := by
  simp only [reducedCost?, arc_eq_ok_iff.2 hx, Checked.ok_bind, Arc.eligible_iff.1 he, Bool.false_eq_true, if_false,
    Checked.bind_eq_ok_iff, Checked.pure_eq_ok_iff] at h
  obtain ⟨v, -, d, -, w, -, r, -, ho⟩ := h
  exact ⟨r, ho.symm⟩

/-- The candidate is an arc that may enter, and its reduced cost has the property `Q`. -/
def Attractive (g : Network F) (phase : Phase) (Q : F → Prop) (c : Candidate F) : Prop :=
  g.reducedCost? phase c.arc = .ok (some c.reducedCost) ∧ Q c.reducedCost

end Network

/-! ## Every rule finds an arc that may enter -/

namespace Pricing

theorem attractive_of_improve (hb : ∀ {r}, Amount.lt r bound = true → Q r)
    (hQ : ∀ {r r'}, Q r' → Amount.lt r r' = true → Q r) {best o : Option (Candidate F)}
    (hbest : ∀ c ∈ best, g.Attractive phase Q c) (h : improve g phase bound best a = .ok o) :
    ∀ c ∈ o, g.Attractive phase Q c := by
  unfold improve at h
  obtain ⟨r, hr, h⟩ := Checked.bind_eq_ok_iff.1 h
  cases r with
  | none => exact Checked.pure_eq_ok_iff.1 h ▸ hbest
  | some r =>
    obtain rfl := Checked.pure_eq_ok_iff.1 h
    split
    · next hlt =>
      intro c hc
      cases hc
      refine ⟨hr, ?_⟩
      cases best with
      | none => exact hb hlt
      | some c => exact hQ (hbest c rfl).2 hlt
    · exact hbest

theorem attractive_of_bestOfBlock (hb : ∀ {r}, Amount.lt r bound = true → Q r)
    (hQ : ∀ {r r'}, Q r' → Amount.lt r r' = true → Q r) {blockSize count count' : Nat}
    {best o : Option (Candidate F)} (hbest : ∀ c ∈ best, g.Attractive phase Q c)
    (h : bestOfBlock g phase blockSize bound arcs count best = .ok (o, count')) :
    ∀ c ∈ o, g.Attractive phase Q c := by
  induction arcs generalizing count best with
  | nil => cases h; exact hbest
  | cons a arcs ih =>
    rw [bestOfBlock] at h
    obtain ⟨best', h', h⟩ := Checked.bind_eq_ok_iff.1 h
    have hbest' := attractive_of_improve hb hQ hbest h'
    split at h
    · cases h; exact hbest'
    · exact ih hbest' h

theorem attractive_of_firstBelow
    (hb : ∀ {bound r}, Amount.neg tolerance = .ok bound → Amount.lt r bound = true → Q r)
    (h : firstBelow g phase tolerance arcs = .ok (some c)) : g.Attractive phase Q c := by
  induction arcs with
  | nil => cases h
  | cons a arcs ih =>
    rw [firstBelow] at h
    obtain ⟨r, hr, h⟩ := Checked.bind_eq_ok_iff.1 h
    cases r with
    | none => exact ih h
    | some r =>
      obtain ⟨bound, hbound, h⟩ := Checked.bind_eq_ok_iff.1 h
      split at h
      · next hlt => cases h; exact ⟨hr, hb hbound hlt⟩
      · exact ih h

end Pricing

/-- What holds of all amounts below minus the tolerance, and of all amounts below such ones, holds of the reduced
cost of the arc found. -/
theorem Simplex.attractive_of_price {s : Simplex F} {cursor : Nat}
    (hb : ∀ {bound r}, Amount.neg s.options.zero = .ok bound → Amount.lt r bound = true → Q r)
    (hQ : ∀ {r r'}, Q r' → Amount.lt r r' = true → Q r) (h : s.price = .ok (some c, cursor)) :
    s.solution.Attractive s.phase Q c := by
  unfold price at h
  cases hp : s.options.pricing with
  | complete =>
    simp only [hp] at h
    obtain ⟨bound, hbound, h⟩ := Checked.bind_eq_ok_iff.1 h
    obtain ⟨best, hbest, h⟩ := Checked.bind_eq_ok_iff.1 h
    cases h
    refine Checked.foldlM_keeps (fun o => ∀ c ∈ o, s.solution.Attractive s.phase Q c) hbest (by simp) ?_ c rfl
    exact fun a _ _ _ ho => Pricing.attractive_of_improve (hb hbound) hQ ho
  | roundRobin =>
    simp only [hp] at h
    obtain ⟨o, ho, h⟩ := Checked.bind_eq_ok_iff.1 h
    cases o with
    | none => cases h
    | some c => cases h; exact Pricing.attractive_of_firstBelow hb ho
  | block =>
    simp only [hp] at h
    obtain ⟨bound, hbound, h⟩ := Checked.bind_eq_ok_iff.1 h
    obtain ⟨⟨best, count⟩, hbest, h⟩ := Checked.bind_eq_ok_iff.1 h
    cases h
    exact Pricing.attractive_of_bestOfBlock (hb hbound) hQ (by simp) hbest c rfl

end

variable {max : Nat} [NeZero max]

namespace Network

variable {g : Network (Signed max)} {phase : Phase} {r : Signed max}

/-- A reduced cost that can be computed is that of an arc that may enter. -/
theorem reducedCost_of_eq_some {a : ArcId} (h : g.reducedCost? phase a = .ok (some r)) :
    ∃ x, g.arcs[a.index]? = some x ∧ x.Eligible phase ∧ r.val = x.reducedCost g.potential := by
  obtain ⟨x, v, w, d, hx, ht, hk, hv, hw, hd, hr⟩ := reducedCost?_eq_some_iff.1 h
  refine ⟨x, hx, ⟨ht, hk⟩, ?_⟩
  rw [Signed.sub_eq_ok_iff.1 hr, Signed.add_eq_ok_iff.1 hd, Arc.reducedCost, potential_eq hv, potential_eq hw]

theorem reducedCost_of_eligible {i : Nat} {x : Arc (Signed max)} {o : Option (Signed max)} (hx : g.arcs[i]? = some x)
    (he : x.Eligible phase) (h : g.reducedCost? phase ⟨i⟩ = .ok o) :
    ∃ r, o = some r ∧ r.val = x.reducedCost g.potential := by
  obtain ⟨r, rfl⟩ := exists_of_reducedCost? hx he h
  obtain ⟨y, hy, -, hr⟩ := reducedCost_of_eq_some h
  rw [hx, Option.some.injEq] at hy
  exact ⟨r, rfl, hy ▸ hr⟩

end Network

namespace Simplex

variable {s : Simplex (Signed max)} {c : Candidate (Signed max)} {cursor : Nat}

/-- If no arc is found, no arc that may enter goes below minus the tolerance. -/
theorem le_reducedCost_of_price (h : s.price = .ok (none, cursor)) {i : Nat} {x : Arc (Signed max)}
    (hx : s.solution.arcs[i]? = some x) (he : x.Eligible s.phase) :
    -s.options.zero.val ≤ x.reducedCost s.solution.potential := by
  have hi : i < s.solution.numArcs := (Array.getElem?_eq_some_iff.1 hx).1
  obtain ⟨o, ho, hlt⟩ := unattractive_of_price h (a := ⟨i⟩) hi
  obtain ⟨r, rfl, hr⟩ := Network.reducedCost_of_eligible hx he ho
  obtain ⟨bound, hb, hlt⟩ := hlt r rfl
  have hge : ¬ r.val < bound.val := by
    rw [← Signed.lt_iff, hlt]
    simp
  rw [Signed.neg_eq_ok_iff.1 hb] at hge
  rw [← hr]
  omega

theorem entering_of_price (h : s.price = .ok (some c, cursor)) :
    ∃ x, s.solution.arcs[c.arc.index]? = some x ∧ x.inTree = false ∧ (x.kind = .real ∨ s.phase = .initial) ∧
      c.reducedCost.val = x.cost.val + s.solution.potential x.src - s.solution.potential x.snk ∧
      c.reducedCost.val < -s.options.zero.val := by
  obtain ⟨hr, hlt⟩ := attractive_of_price (Q := fun r => r.val < -s.options.zero.val)
    (fun hb hlt => by rw [← Signed.neg_eq_ok_iff.1 hb]; exact Signed.lt_iff.1 hlt)
    (fun hr' hlt => (Signed.lt_iff.1 hlt).trans hr') h
  obtain ⟨x, hx, ⟨ht, hk⟩, hr⟩ := Network.reducedCost_of_eq_some hr
  exact ⟨x, hx, ht, hk, hr, hlt⟩

end Simplex

end Transportation
