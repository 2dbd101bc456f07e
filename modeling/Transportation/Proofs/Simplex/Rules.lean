import Transportation.Proofs.Simplex.Limits
import Transportation.Proofs.Simplex.Overflow
/-!
# What the pricing rules have in common

All rules find an arc if and only if there is one to be found (`price_of_unattractive`, `le_reducedCost_of_price`), and
what they find goes below minus the tolerance (`Chosen`). Complete pricing finds the first of the best. But the rules
compute different things on the way: if minus the tolerance overflows, one rule may say that the tree is optimal where
another faults.
-/

namespace Transportation

open Checked

/-! ## Nothing to be found -/

section
variable {F : Type} [Amount F] {g : Network F} {phase : Phase} {a : ArcId} {arcs : List ArcId} {tolerance bound : F}

namespace Pricing

theorem improve_of_unattractive (h : g.Unattractive phase bound a) : improve g phase bound none a = .ok none := by
  obtain ⟨o, ho, hlt⟩ := h
  unfold improve
  rw [ho, ok_bind]
  cases o with
  | none => rfl
  | some r =>
    simp only [Option.map_none, Option.getD_none, hlt r rfl]
    rfl

theorem improves_of_unattractive (h : ∀ a ∈ arcs, g.Unattractive phase bound a) :
    arcs.foldlM (improve g phase bound) none = .ok none := by
  induction arcs with
  | nil => rfl
  | cons a arcs ih =>
    obtain ⟨ha, harcs⟩ := List.forall_mem_cons.1 h
    exact foldlM_cons_eq_ok_iff.2 ⟨none, improve_of_unattractive ha, ih harcs⟩

theorem firstBelow_of_unattractive (hb : Amount.neg tolerance = .ok bound)
    (h : ∀ a ∈ arcs, g.Unattractive phase bound a) : firstBelow g phase tolerance arcs = .ok none := by
  induction arcs with
  | nil => rfl
  | cons a arcs ih =>
    obtain ⟨⟨o, ho, hlt⟩, harcs⟩ := List.forall_mem_cons.1 h
    rw [firstBelow, ho, ok_bind]
    cases o with
    | none => exact ih harcs
    | some r =>
      simp only [hb, ok_bind, hlt r rfl]
      exact ih harcs

/-- Without a candidate the search goes on past the end of a block. -/
theorem bestOfBlock_of_unattractive {blockSize : Nat} (h : ∀ a ∈ arcs, g.Unattractive phase bound a) (count : Nat) :
    bestOfBlock g phase blockSize bound arcs count none = .ok (none, count + arcs.length) := by
  induction arcs generalizing count with
  | nil => rfl
  | cons a arcs ih =>
    obtain ⟨ha, harcs⟩ := List.forall_mem_cons.1 h
    rw [bestOfBlock, improve_of_unattractive ha, ok_bind]
    simp only [Option.isSome_none, Bool.and_false, Bool.false_eq_true, if_false]
    rw [ih harcs, List.length_cons, Nat.add_assoc, Nat.add_comm 1]

end Pricing

/-- If no arc goes below minus the tolerance, no rule finds one. -/
theorem Simplex.price_of_unattractive {s : Simplex F} (hb : Amount.neg s.options.zero = .ok bound)
    (h : ∀ a : ArcId, a.index < s.solution.numArcs → s.solution.Unattractive s.phase bound a) :
    ∃ cursor, s.price = .ok (none, cursor) := by
  have hfrom : ∀ {start}, ∀ a ∈ s.solution.arcIdsFrom start, s.solution.Unattractive s.phase bound a :=
    fun a ha => h a (Network.lt_of_mem_arcIdsFrom ha)
  unfold price
  cases s.options.pricing with
  | complete =>
    have hall : ∀ a ∈ s.solution.arcIds, s.solution.Unattractive s.phase bound a := by
      intro a ha
      obtain ⟨i, hi, rfl⟩ := List.mem_map.1 ha
      exact h _ (List.mem_range.1 hi)
    simp only [hb, ok_bind, Pricing.improves_of_unattractive hall]
    exact ⟨_, rfl⟩
  | roundRobin =>
    simp only [Pricing.firstBelow_of_unattractive hb hfrom, ok_bind]
    exact ⟨_, rfl⟩
  | block =>
    simp only [hb, ok_bind, Pricing.bestOfBlock_of_unattractive hfrom]
    exact ⟨_, rfl⟩

/-- If one rule finds no arc, neither does another, unless minus the tolerance overflows. -/
theorem Simplex.price_of_price_none {s t : Simplex F} {cursor : Nat} (h : s.price = .ok (none, cursor))
    (hsolution : t.solution = s.solution) (hphase : t.phase = s.phase)
    (hzero : t.options.zero = s.options.zero) (hb : Amount.neg s.options.zero = .ok bound) :
    ∃ cursor, t.price = .ok (none, cursor) := by
  refine price_of_unattractive (hzero ▸ hb) fun a ha => ?_
  rw [hsolution] at ha ⊢
  obtain ⟨o, ho, hlt⟩ := unattractive_of_price h ha
  refine ⟨o, hphase ▸ ho, fun r hr => ?_⟩
  obtain ⟨bound', hb', hr⟩ := hlt r hr
  rw [hb, Except.ok.injEq] at hb'
  exact hb' ▸ hr

/-- When the phase has ended, no arc was found. -/
theorem Simplex.OptimizeRun.exists_price {s t : Simplex F} {k : Nat} (h : OptimizeRun s (.ok k) t) :
    ∃ (u : Simplex F) (cursor : Nat), u.price = .ok (none, cursor) ∧ t = { u with cursor } := by
  cases h with
  | optimal _ hp => exact ⟨_, _, hp, rfl⟩

/-- A tree that is optimal under one rule is so under another, unless minus the tolerance overflows. -/
theorem Simplex.run_optimize_again {s t : Simplex F} {k : Nat} (hs : s.phase ≠ .setup)
    (h : s.run optimize = .ok (.ok k, t)) {o : Options F} (hz : o.zero = s.options.zero)
    (hb : Amount.neg o.zero = .ok bound) :
    ∃ cursor, run { t with options := o } optimize = .ok (.ok 0, { t with options := o, cursor }) := by
  replace h := optimizeRun_of_run h
  have hphase : t.phase ≠ .setup := h.phase_eq ▸ hs
  obtain ⟨u, cursor, hp, htu⟩ := h.exists_price
  have hoptions : u.options = s.options := by rw [← h.constants.2, htu]
  obtain ⟨cursor', hprice⟩ := price_of_price_none (t := { t with options := o }) hp (by rw [htu]) (by rw [htu])
    (by rw [hoptions, hz]) (by rw [hoptions, ← hz, hb])
  refine ⟨cursor', ?_⟩
  rw [run_optimize (s := { t with options := o }) hphase]
  exact run_within_of_none (run_pivot_of_price_none hphase hprice)

/-! ## Faults -/

/-- The fault is that of minus the tolerance or of the reduced cost of an arc that may enter. -/
def Simplex.PricingFault (s : Simplex F) (e : Fault) : Prop :=
  Amount.neg s.options.zero = .error e ∨ ∃ (i : Nat) (x : Arc F), s.solution.arcs[i]? = some x ∧
    x.Eligible s.phase ∧ s.solution.reducedCost? s.phase ⟨i⟩ = .error e

theorem Simplex.pricingFault_of_price {s : Simplex F} {e : Fault} (h : s.price = .error e) : s.PricingFault e := by
  refine faultsOnly_price (fun e he => .inl he) (fun a ha e he => .inr ?_) e h
  have hx := Array.getElem?_eq_getElem ha
  exact ⟨a.index, _, hx, Network.eligible_of_reducedCost? hx (by rw [he]; nofun), he⟩

end

/-! ## The first of the best -/

variable {max : Nat} [NeZero max]

namespace Network

variable {g : Network (Signed max)} {phase : Phase} {a : ArcId} {bound r : Signed max}

theorem unattractive_iff_of_eq_some (h : g.reducedCost? phase a = .ok (some r)) :
    g.Unattractive phase bound a ↔ bound.val ≤ r.val := by
  have hlt : Amount.lt r bound = false ↔ bound.val ≤ r.val := by
    rw [← Bool.not_eq_true, Signed.lt_iff, not_lt]
  rw [← hlt]
  constructor
  · rintro ⟨o, ho, hr⟩
    rw [h, Except.ok.injEq] at ho
    exact hr r ho.symm
  · exact fun hr => ⟨some r, h, fun _ hc => by cases hc; exact hr⟩

/-- Arcs that are no better than a bound are no better than a lower one. -/
theorem Unattractive.lower {bound' : Signed max} (h : g.Unattractive phase bound a) (hlt : bound'.val ≤ bound.val) :
    g.Unattractive phase bound' a := by
  obtain ⟨o, ho, hr⟩ := h
  cases o with
  | none => exact ⟨none, ho, by simp⟩
  | some r => exact (unattractive_iff_of_eq_some ho).2 (hlt.trans ((unattractive_iff_of_eq_some ho).1 ⟨_, ho, hr⟩))

/-- The candidate is the first of the best of the arcs `done`. -/
structure FirstLeast (g : Network (Signed max)) (phase : Phase) (done : List ArcId) (c : Candidate (Signed max)) :
    Prop where
  priced : g.reducedCost? phase c.arc = .ok (some c.reducedCost)
  least : ∀ a ∈ done, g.Unattractive phase c.reducedCost a
  first : ∃ before after, done = before ++ c.arc :: after ∧
    ∀ a ∈ before, ∀ r, g.reducedCost? phase a = .ok (some r) → c.reducedCost.val < r.val

/-- What is known of the arcs `done` when the best of them is `o`. -/
def Searched (g : Network (Signed max)) (phase : Phase) (bound : Signed max) (done : List ArcId) :
    Option (Candidate (Signed max)) → Prop
  | none => ∀ a ∈ done, g.Unattractive phase bound a
  | some c => c.reducedCost.val < bound.val ∧ g.FirstLeast phase done c

theorem Searched.unattractive {done : List ArcId} {o : Option (Candidate (Signed max))}
    (h : g.Searched phase bound done o) :
    ∀ a ∈ done, g.Unattractive phase ((o.map Candidate.reducedCost).getD bound) a := by
  cases o with
  | none => exact h
  | some c => exact h.2.least

theorem Searched.le {done : List ArcId} {o : Option (Candidate (Signed max))} (h : g.Searched phase bound done o) :
    ((o.map Candidate.reducedCost).getD bound).val ≤ bound.val := by
  cases o with
  | none => exact le_refl _
  | some c => exact h.1.le

/-- An arc that is no better leaves the best as it is. -/
theorem Searched.keep {done : List ArcId} {o : Option (Candidate (Signed max))} (h : g.Searched phase bound done o)
    (ha : g.Unattractive phase ((o.map Candidate.reducedCost).getD bound) a) :
    g.Searched phase bound (done ++ [a]) o := by
  cases o with
  | none => exact List.forall_mem_append.2 ⟨h, by simpa using ha⟩
  | some c =>
    obtain ⟨hlt, hpriced, hleast, before, after, hdone, hfirst⟩ := h
    refine ⟨hlt, hpriced, List.forall_mem_append.2 ⟨hleast, by simpa using ha⟩, before, after ++ [a], ?_, hfirst⟩
    rw [hdone, List.append_assoc, List.cons_append]

/-- An arc that is better than the best so far is better than all arcs before it. -/
theorem Searched.replace {done : List ArcId} {o : Option (Candidate (Signed max))} (h : g.Searched phase bound done o)
    (hr : g.reducedCost? phase a = .ok (some r)) (hlt : r.val < ((o.map Candidate.reducedCost).getD bound).val) :
    g.Searched phase bound (done ++ [a]) (some ⟨a, r⟩) := by
  refine ⟨hlt.trans_le h.le, hr, List.forall_mem_append.2 ⟨fun b hb => (h.unattractive b hb).lower hlt.le, ?_⟩,
    done, [], rfl, fun b hb r' hr' => ?_⟩
  · simpa using (unattractive_iff_of_eq_some hr).2 (le_refl _)
  · exact hlt.trans_le ((unattractive_iff_of_eq_some hr').1 (h.unattractive b hb))

theorem Searched.improve {done : List ArcId} {o o' : Option (Candidate (Signed max))}
    (h : g.Searched phase bound done o) (e : Pricing.improve g phase bound o a = .ok o') :
    g.Searched phase bound (done ++ [a]) o' := by
  unfold Pricing.improve at e
  obtain ⟨r, hr, e⟩ := bind_eq_ok_iff.1 e
  cases r with
  | none =>
    obtain rfl := pure_eq_ok_iff.1 e
    exact h.keep ⟨none, hr, by simp⟩
  | some r =>
    obtain rfl := pure_eq_ok_iff.1 e
    split
    · next hlt => exact h.replace hr (Signed.lt_iff.1 hlt)
    · next hlt => exact h.keep ⟨some r, hr, fun _ hc => by cases hc; simpa using hlt⟩

/-- Complete pricing searches all arcs. -/
theorem searched_of_improves {arcs : List ArcId} {o : Option (Candidate (Signed max))}
    (e : arcs.foldlM (Pricing.improve g phase bound) none = .ok o) : g.Searched phase bound arcs o :=
  foldlM_induction (fun done o => g.Searched phase bound done o) e (by simp [Searched])
    fun _ _ _ _ _ h e => h.improve e

omit [NeZero max] in
theorem pairwise_arcIds (g : Network (Signed max)) : g.arcIds.Pairwise fun a b => a.index < b.index :=
  List.pairwise_map.2 List.pairwise_lt_range

/-- Of the arcs in order the first of the best has the smallest number. -/
theorem FirstLeast.le_index {c : Candidate (Signed max)} (h : g.FirstLeast phase g.arcIds c)
    (ha : a ∈ g.arcIds) (hr : g.reducedCost? phase a = .ok (some r)) (hle : r.val ≤ c.reducedCost.val) :
    c.arc.index ≤ a.index := by
  obtain ⟨before, after, hdone, hfirst⟩ := h.first
  have hsorted := g.pairwise_arcIds
  rw [hdone] at hsorted ha
  rcases List.mem_append.1 ha with ha | ha
  · exact absurd (hfirst a ha r hr) (not_lt.2 hle)
  · rcases List.mem_cons.1 ha with rfl | ha
    · exact le_refl _
    · exact ((List.pairwise_cons.1 (List.pairwise_append.1 hsorted).2.1).1 a ha).le

end Network

namespace Simplex

open Network

variable {g : Network (Signed max)} {s t : Simplex (Signed max)} {c : Candidate (Signed max)} {cursor k : Nat}

/-- The candidate is an arc that may enter and goes below minus the tolerance, with its reduced cost. With complete
pricing it is the first of those of least reduced cost. -/
structure Chosen (s : Simplex (Signed max)) (c : Candidate (Signed max)) : Prop where
  arc : ∃ x, s.solution.arcs[c.arc.index]? = some x ∧ x.Eligible s.phase ∧
    c.reducedCost.val = x.reducedCost s.solution.potential
  below : c.reducedCost.val < -s.options.zero.val
  least : s.options.pricing = .complete → ∀ (i : Nat) (y : Arc (Signed max)), s.solution.arcs[i]? = some y →
    y.Eligible s.phase → c.reducedCost.val ≤ y.reducedCost s.solution.potential ∧
      (y.reducedCost s.solution.potential = c.reducedCost.val → c.arc.index ≤ i)

theorem firstLeast_of_price (hc : s.options.pricing = .complete) (h : s.price = .ok (some c, cursor)) :
    s.solution.FirstLeast s.phase s.solution.arcIds c := by
  unfold price at h
  simp only [hc] at h
  obtain ⟨bound, -, h⟩ := bind_eq_ok_iff.1 h
  obtain ⟨best, hbest, h⟩ := bind_eq_ok_iff.1 h
  cases h
  exact (searched_of_improves hbest).2

theorem chosen_of_price (h : s.price = .ok (some c, cursor)) : s.Chosen c := by
  obtain ⟨x, hx, hout, hkind, hcost, hlt⟩ := entering_of_price h
  refine ⟨⟨x, hx, ⟨hout, hkind⟩, hcost⟩, hlt, fun hc i y hy he => ?_⟩
  have hfirst := firstLeast_of_price hc h
  have hmem : (⟨i⟩ : ArcId) ∈ s.solution.arcIds :=
    List.mem_map.2 ⟨i, List.mem_range.2 (Array.getElem?_eq_some_iff.1 hy).1, rfl⟩
  obtain ⟨o, ho, hr⟩ := hfirst.least _ hmem
  obtain ⟨r, rfl, hcost'⟩ := reducedCost_of_eligible hy he ho
  rw [← hcost']
  exact ⟨(unattractive_iff_of_eq_some ho).1 ⟨_, ho, hr⟩, fun heq => hfirst.le_index hmem ho heq.le⟩

/-- A pivot finds an arc if and only if one that may enter goes below minus the tolerance, and says which it has found. If
it finds none, it has moved the cursor, if anything. -/
structure Discerns (s : Simplex (Signed max)) : Prop where
  none_iff : (∃ u, s.run pivot = .ok (.ok none, u)) ↔
    ∀ x ∈ s.solution.arcs.toList, x.Eligible s.phase → -s.options.zero.val ≤ x.reducedCost s.solution.potential
  none : ∀ u, s.run pivot = .ok (.ok none, u) → ∃ cursor, u = { s with cursor }
  some : (∃ x ∈ s.solution.arcs.toList, x.Eligible s.phase ∧
      x.reducedCost s.solution.potential < -s.options.zero.val) →
    ∃ c cursor, s.price = .ok (some c, cursor) ∧ s.Chosen c ∧
      ∀ p u, s.run pivot = .ok (.ok (some p), u) → p.entering = c.arc ∧ p.reducedCost = c.reducedCost

theorem discerns_of_price_none (hs : s.phase ≠ .setup) (h : s.price = .ok (none, cursor)) : s.Discerns where
  none_iff := by
    refine iff_of_true ⟨_, run_pivot_of_price_none hs h⟩ fun x hx he => ?_
    obtain ⟨i, hi⟩ := mem_arcs_iff.1 hx
    exact le_reducedCost_of_price h hi he
  none u hrun := by
    rw [run_pivot_of_price_none hs h] at hrun
    cases hrun
    exact ⟨_, rfl⟩
  some := by
    rintro ⟨x, hx, he, hlt⟩
    obtain ⟨i, hi⟩ := mem_arcs_iff.1 hx
    exact absurd hlt (not_lt.2 (le_reducedCost_of_price h hi he))

theorem discerns_of_price_some (h : s.price = .ok (some c, cursor)) : s.Discerns := by
  have hnone : ∀ u, s.run pivot ≠ .ok (.ok none, u) := by
    intro u hrun
    obtain ⟨_, hnone, -⟩ := (pivotRun_of_run hrun).of_none
    rw [h] at hnone
    cases hnone
  refine ⟨iff_of_false (fun ⟨u, hrun⟩ => hnone u hrun) fun hall => ?_, fun u hrun => absurd hrun (hnone u),
    fun _ => ⟨c, cursor, h, chosen_of_price h, fun p u hrun => ?_⟩⟩
  · obtain ⟨⟨x, hx, he, hcost⟩, hlt, -⟩ := chosen_of_price h
    have := hall x (mem_arcs_iff.2 ⟨_, hx⟩) he
    omega
  · obtain ⟨-, cursor', hp⟩ := (pivotRun_of_run hrun).of_some
    rw [h] at hp
    cases hp
    exact ⟨rfl, rfl⟩

theorem discerns_of_price (hs : s.phase ≠ .setup) {o : Option (Candidate (Signed max))}
    (h : s.price = .ok (o, cursor)) : s.Discerns := by
  cases o with
  | none => exact discerns_of_price_none hs h
  | some c => exact discerns_of_price_some h

/-- Whatever was asked of a solver, outside the setup, whichever rule it is given with whatever tolerance, wherever the
search begins and however large the blocks are: a pivot finds an arc if and only if one that may enter goes below minus
the tolerance, or it faults since minus the tolerance or the reduced cost of such an arc overflows. Once the tree is
optimal under one rule it is so under all, unless minus the tolerance overflows. -/
theorem rules_of_reachable (b : Builder (Signed max)) (h : Reachable (fun _ => True) b.network s)
    (hs : s.phase ≠ .setup) :
    (∀ (o : Options (Signed max)) (cursor blockSize : Nat),
      let t : Simplex (Signed max) := { s with options := o, cursor, blockSize }
      t.Discerns ∨ ∃ e, t.run pivot = .error e ∧ e.IsOverflow ∧ t.PricingFault e) ∧
    ∀ k t, s.run optimize = .ok (.ok k, t) → ∀ o : Options (Signed max), o.zero = s.options.zero →
      (∃ cursor, run { t with options := o } optimize = .ok (.ok 0, { t with options := o, cursor })) ∨
        ∃ e, Amount.neg o.zero = .error e ∧ e.IsOverflow := by
  have hsound := sound_of_reachable (wellFormed_network b) h
  constructor
  · intro o cursor blockSize t
    have ht : Sound b.network t :=
      ⟨hsound.input, hsound.base, hsound.wellFormed, hsound.costs, hsound.tree, hsound.root⟩
    have hphase : t.phase ≠ .setup := hs
    cases hp : t.price with
    | ok p => exact .inl (discerns_of_price hphase hp)
    | error e =>
      exact .inr ⟨e, run_pivot_of_price_error hphase hp, ht.overflow_price e hp, pricingFault_of_price hp⟩
  · intro k t hrun o hz
    cases hb : Amount.neg o.zero with
    | error e => exact .inr ⟨e, rfl, LawfulAmount.neg _ e hb⟩
    | ok bound => exact .inl (run_optimize_again hs hrun hz hb)

theorem rules_of_relay : ∃ s t : Simplex Signed8, Reachable (fun _ => True) Builder.relay.network s ∧
    s.phase ≠ .setup ∧ s.run optimize = .ok (.ok 2, t) ∧
    (∀ (o : Options Signed8) (cursor blockSize : Nat),
      let t : Simplex Signed8 := { s with options := o, cursor, blockSize }
      t.Discerns ∨ ∃ e, t.run pivot = .error e ∧ e.IsOverflow ∧ t.PricingFault e) ∧
    ∀ o : Options Signed8, o.zero = s.options.zero →
      ∃ cursor, run { t with options := o } optimize = .ok (.ok 0, { t with options := o, cursor }) := by
  let s := (new Builder.relay.network).after start
  have hreach : Reachable (fun _ => True) Builder.relay.network s := .start .new run_start_relay
  have hphase : s.phase ≠ .setup := by decide +kernel
  have hoptimize : s.run optimize = .ok (.ok 2, s.after optimize) := by decide +kernel
  have hneg : Amount.neg s.options.zero = .ok .zero := by decide +kernel
  obtain ⟨hpivot, hagain⟩ := rules_of_reachable Builder.relay hreach hphase
  refine ⟨s, _, hreach, hphase, hoptimize, hpivot, fun o hz => (hagain _ _ hoptimize o hz).resolve_right ?_⟩
  rintro ⟨e, he, -⟩
  rw [hz, hneg] at he
  cases he

/-- The solver with other pricing rule and tolerance. -/
def pricedBy {F : Type} (s : Simplex F) (pricing : Pricing) (zero : F) : Simplex F :=
  { s with options := { s.options with pricing, zero } }

/-- With the least tolerance there is, the relay is optimal for one rule but not for the others, which fault since minus
the tolerance overflows. In the rebound no arc goes below minus the tolerance, but the reduced cost of one overflows. -/
theorem rules_disagree :
    (∃ s : Simplex Signed8, Reachable (fun _ => True) Builder.relay.network s ∧ s.phase = .optimal ∧
      s.options.zero.val = -128 ∧ s.options.pricing = .roundRobin ∧ s.run optimize = .ok (.ok 0, s) ∧
      (∀ x ∈ s.solution.arcs.toList, ¬ x.Eligible s.phase) ∧
      ∀ rule ∈ [Pricing.complete, .block], (s.pricedBy rule s.options.zero).run pivot = .error (.overflow .neg) ∧
        (s.pricedBy rule s.options.zero).run optimize = .error (.overflow .neg)) ∧
    ∃ s : Simplex Signed8, Reachable (fun _ => True) Builder.rebound.network s ∧ s.phase = .optimal ∧
      s.options.zero.val = 0 ∧
      (∀ x ∈ s.solution.arcs.toList, x.Eligible s.phase → 0 ≤ x.reducedCost s.solution.potential) ∧
      ∀ rule, (s.pricedBy rule s.options.zero).run pivot = .error (.overflow .add) := by
  let r := ((new Builder.relay.network).after solve).pricedBy .roundRobin ⟨-128, by decide, by decide⟩
  have hrelay : ∀ x ∈ r.solution.arcs.toList, (x.inTree || (x.isArtificial && r.phase != .initial)) = true := by
    decide +kernel
  have hpivot : ∀ rule, (ofRebound.pricedBy rule ofRebound.options.zero).run pivot = .error (.overflow .add) := by
    intro rule
    cases rule <;> decide +kernel
  obtain ⟨hreach, hphase, hzero⟩ := reachable_ofRebound
  exact ⟨⟨r, .setOptions (.solve .new run_solve_relay) trivial, by decide +kernel, rfl, rfl, by decide +kernel,
      fun x hx he => by simpa [Arc.eligible_iff.1 he] using hrelay x hx, by decide +kernel⟩,
    ofRebound, hreach, hphase, hzero, reducedCost_ofRebound, hpivot⟩

end Simplex

end Transportation
