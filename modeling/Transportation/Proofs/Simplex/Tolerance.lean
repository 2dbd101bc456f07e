import Transportation.Proofs.Simplex.BasicFlow
/-!
# Tolerances

With a tolerance finer than the unit of all weights the solver always carries a basic flow (`Fine`), as it does
without one (`Basic`). A coarser tolerance makes ties of flows that differ, one after the other, and the arc that
leaves may then carry more than others can give (`flow_of_slide`).
-/

namespace Transportation

open Network

variable {max : Nat}

namespace Simplex

variable [NeZero max] {g : Network (Signed max)} {s s' : Simplex (Signed max)}

/-! ## A tolerance finer than the unit -/

/-- What holds of every solver of the instance `g` with a tolerance finer than the unit `k` of all weights. -/
structure Fine (k : Int) (g : Network (Signed max)) (s : Simplex (Signed max)) : Prop extends Sound g s where
  nonneg : 0 ≤ s.options.zero.val
  finer : s.options.zero.val < k
  flow : s.phase ≠ .setup → BasicFlow g s.solution ∧ s.solution.Grained k

variable {k : Int}

theorem fine_of_start (hg : g.WellFormed) (hk : ∀ v, k ∣ g.weightAt v) (hin : s.input = g)
    (hz : 0 ≤ s.options.zero.val) (hfine : s.options.zero.val < k) {r : Except SolveError Unit} (h : StartRun s r s') :
    (r = .error .unbalanced ∧ s' = s) ∨ (r = .ok () ∧ s'.phase = .initial ∧ Fine k g s') := by
  refine (sound_of_start hg hin h).imp_right fun ⟨hr, hphase, hs⟩ =>
    ⟨hr, hphase, hs, h.constants.2 ▸ hz, h.constants.2 ▸ hfine, fun _ => ?_⟩
  cases h with
  | unbalanced => cases hr
  | started hb hstar _ hu =>
    rw [hin] at hb hstar
    have hstar := star_of_eq_ok hg hstar
    obtain ⟨ps, -, rfl⟩ := Incidence.computePotentials_eq_ok_iff.1 hu
    -- The weights add up to a multiple of the unit, and to no more than the tolerance.
    have hbalance : ∑ v ∈ g.vertexSet, g.weightAt v = 0 := by
      have hdvd := Finset.dvd_sum fun v (_ : v ∈ g.vertexSet) => hk v
      have hwithin := sum_weights_of_within hb
      exact Int.eq_zero_of_abs_lt_dvd hdvd (by rw [abs_lt]; omega)
    exact ⟨(basicFlow_star hstar hbalance).congr rfl, (grained_star hstar hk).congr rfl⟩

theorem Fine.pivot (hs : Fine k g s) {r : Except SolveError (Option (Pivot (Signed max)))} (h : PivotRun s r s') :
    Fine k g s' := by
  refine ⟨hs.toSound.pivot h, h.constants.2.2.2 ▸ hs.nonneg, h.constants.2.2.2 ▸ hs.finer, ?_⟩
  rw [h.constants.2.2.1]
  cases h with
  | noTree => exact hs.flow
  | optimal => exact hs.flow
  | noCycle hphase _ hi _ hl =>
    obtain ⟨hflow, hgrained⟩ := hs.flow hphase
    obtain ⟨hflow, hzero⟩ := hflow.insert hi
    exact fun _ => ⟨hflow.remove hl hzero, hgrained.congr ((flows_remove hl).trans (flows_insert hi))⟩
  | unbounded hphase _ hi _ _ hl =>
    obtain ⟨hflow, hgrained⟩ := hs.flow hphase
    obtain ⟨hflow, hzero⟩ := hflow.insert hi
    exact fun _ => ⟨hflow.remove hl hzero, hgrained.congr ((flows_remove hl).trans (flows_insert hi))⟩
  | @pivoted c cursor t g₁ cycle b g₂ t' g₃ g₄ all hphase _ hi hc hb hpush hl hu =>
    have huni := (hs.tree hphase).insert hi
    obtain ⟨hflow, hgrained⟩ := hs.flow hphase
    obtain ⟨hflow, -⟩ := hflow.insert hi
    replace hgrained := hgrained.congr (flows_insert hi)
    obtain ⟨-, ⟨u, hw⟩, hn⟩ := huni.cycle hc
    obtain ⟨x, hx, hbx, -, -⟩ := blocks_of_blocking? hb
    have hd : 0 ≤ b.flow.val := hbx ▸ hflow.nonneg hx
    have hflow₂ := hflow.push huni.wellFormed.toNumbered hpush hw hn hd fun a y ha hy =>
      le_of_blocking? (hgrained.separated hs.nonneg hs.finer) hb ha hy
    have hgrained₂ := hgrained.push hpush hn (hbx ▸ hgrained x (mem_arcs_iff.2 ⟨_, hx⟩))
    obtain ⟨ps, -, rfl⟩ := Incidence.computePotentials_eq_ok_iff.1 hu
    exact fun _ => ⟨(hflow₂.remove hl (flow_of_blocking? hb hpush hn)).congr rfl,
      (hgrained₂.congr (flows_remove hl)).congr rfl⟩

theorem stable_fine (hg : g.WellFormed) (hk : ∀ v, k ∣ g.weightAt v) : Stable (Fine k g) where
  start hs h := by
    rcases fine_of_start hg hk hs.input hs.nonneg hs.finer h with ⟨-, rfl⟩ | ⟨-, -, hs'⟩
    · exact hs
    · exact hs'
  pivot hs h := hs.pivot h
  restore hs h := by
    have hconstants := h.constants.2
    refine ⟨hs.toSound.restore h, hconstants ▸ hs.nonneg, hconstants ▸ hs.finer, ?_⟩
    cases h with
    | noTree => exact hs.flow
    | restored hphase _ hk hu =>
      obtain ⟨ps, -, rfl⟩ := Incidence.computePotentials_eq_ok_iff.1 hu
      obtain ⟨hflow, hgrained⟩ := hs.flow hphase
      exact fun _ => ⟨hflow.congr (map_restore hk fun _ _ => rfl), hgrained.congr (map_restore hk fun _ _ => rfl)⟩
  counters _ _ _ hs := ⟨(stable_sound hg).counters _ _ _ hs.toSound, hs.nonneg, hs.finer, hs.flow⟩

theorem fine_of_reachable (hg : g.WellFormed) (hpos : 0 < k) (hk : ∀ v, k ∣ g.weightAt v)
    (h : Reachable (fun o => 0 ≤ o.zero.val ∧ o.zero.val < k) g s) : Fine k g s :=
  (stable_fine hg hk).reachable ⟨sound_new hg, le_refl _, hpos, fun h => absurd rfl h⟩
    (fun {_ o} hs ho => ⟨hs.toSound.setOptions o, ho.1, ho.2, hs.flow⟩) h

/-! ## No tolerance -/

/-- What holds of every solver of the instance `g` without a tolerance. -/
structure Basic (g : Network (Signed max)) (s : Simplex (Signed max)) : Prop extends Priced g s where
  exact : s.options.zero.val = 0
  flow : s.phase ≠ .setup → BasicFlow g s.solution

/-- The unit of all integers is one. -/
theorem Basic.fine (hs : Basic g s) : Fine 1 g s :=
  ⟨hs.toSound, hs.exact.ge, by rw [hs.exact]; decide, fun h => ⟨hs.flow h, fun _ _ => Int.one_dvd _⟩⟩

theorem basic_of_start (hg : g.WellFormed) (hin : s.input = g) (hz : s.options.zero.val = 0)
    {r : Except SolveError Unit} (h : StartRun s r s') :
    (r = .error .unbalanced ∧ s' = s) ∨ (r = .ok () ∧ s'.phase = .initial ∧ Basic g s') := by
  refine (priced_of_start hg hin h).imp_right fun ⟨hr, hphase, hs⟩ => ⟨hr, hphase, hs, h.constants.2 ▸ hz, ?_⟩
  rcases fine_of_start hg (fun _ => Int.one_dvd _) hin hz.ge (by omega) h with ⟨hr', -⟩ | ⟨-, -, hfine⟩
  · rw [hr] at hr'
    cases hr'
  · exact fun hne => (hfine.flow hne).1

/-- The first phase begins with a basic flow. -/
theorem basic_of_started (hg : g.WellFormed) (hin : s.input = g) (hz : s.options.zero.val = 0)
    (h : StartRun s (.ok ()) s') : s'.phase = .initial ∧ Basic g s' := by
  obtain ⟨h, -⟩ | ⟨-, hphase, hs⟩ := basic_of_start hg hin hz h
  · cases h
  · exact ⟨hphase, hs⟩

theorem Basic.pivot (hs : Basic g s) {r : Except SolveError (Option (Pivot (Signed max)))} (h : PivotRun s r s') :
    Basic g s' :=
  ⟨hs.toPriced.pivot h, h.constants.2.2.2 ▸ hs.exact, fun hne => ((hs.fine.pivot h).flow hne).1⟩

theorem stable_basic (hg : g.WellFormed) : Stable (Basic g) where
  start hs h := by
    rcases basic_of_start hg hs.input hs.exact h with ⟨-, rfl⟩ | ⟨-, -, hs'⟩
    · exact hs
    · exact hs'
  pivot hs h := hs.pivot h
  restore hs h := ⟨hs.toPriced.restore h, h.constants.2 ▸ hs.exact,
    fun hne => (((stable_fine hg fun _ => Int.one_dvd _).restore hs.fine h).flow hne).1⟩
  counters _ _ _ hs := ⟨(stable_priced hg).counters _ _ _ hs.toPriced, hs.exact, hs.flow⟩

theorem basic_of_reachable (hg : g.WellFormed) (h : Reachable (fun o => o.zero = Amount.zero) g s) : Basic g s := by
  refine (stable_basic hg).reachable ⟨priced_new hg, rfl, fun h => absurd rfl h⟩ (fun {s o} hs ho => ?_) h
  exact ⟨hs.toPriced.setOptions o, by rw [ho]; rfl, hs.flow⟩

end Simplex

/-- A builder of a cycle on which the flows of arcs grow by `n` from one to the next. -/
def Builder.slide (n : Nat) (hn : 2 * n ≤ 127) : Builder Signed8 where
  name := "slide"
  weights := #[⟨-(2 * n : Int), by omega, by omega⟩, .zero, .ofNat n (by omega), .ofNat n (by omega)]
  links := #[⟨⟨0⟩, ⟨2⟩, .ofNat 9 (by decide)⟩, ⟨⟨2⟩, ⟨3⟩, ⟨2, by decide, by decide⟩⟩, ⟨⟨3⟩, ⟨1⟩, .one⟩,
    ⟨⟨0⟩, ⟨1⟩, .zero⟩]
  joins l hl := by
    obtain rfl | rfl | rfl | rfl : l = _ ∨ l = _ ∨ l = _ ∨ l = _ := by simpa using hl
    all_goals exact ⟨by simp, by simp, by decide⟩

namespace Simplex

/-- A new solver of a slide with a tolerance of one. -/
def ofSlide (n : Nat) (hn : 2 * n ≤ 127) : Simplex Signed8 :=
  { new (Builder.slide n hn).network with options := ⟨.roundRobin, .one, none, none⟩ }

variable [NeZero max] {s : Simplex (Signed max)} {k : Int}

/-- Whatever is asked of a solver with a tolerance finer than a unit of all weights, outside the setup no arc carries
less than nothing. All flows are multiples of the unit, and arcs outside the tree carry nothing. -/
theorem nonneg_of_reachable (b : Builder (Signed max)) (hpos : 0 < k) (hk : ∀ w ∈ b.weights, k ∣ w.val)
    (h : Reachable (fun o => 0 ≤ o.zero.val ∧ o.zero.val < k) b.network s) (hs : s.phase ≠ .setup) :
    ∀ x ∈ s.solution.arcs.toList, 0 ≤ x.flow.val ∧ k ∣ x.flow.val ∧ (x.inTree = false → x.flow.val = 0) := by
  have hweight : ∀ v, k ∣ b.network.weightAt v := by
    intro v
    rw [weightAt, getElem?_network_vertices]
    cases hw : b.weights[v.index]? with
    | none => exact Int.dvd_zero _
    | some w => exact hk w (Array.mem_of_getElem? hw)
  obtain ⟨hflow, hgrained⟩ := (fine_of_reachable (wellFormed_network b) hpos hweight h).flow hs
  intro x hx
  obtain ⟨i, hi⟩ := mem_arcs_iff.1 hx
  exact ⟨hflow.nonneg hi, hgrained x hx, hflow.idle hi⟩

theorem nonneg_of_slide : ∃ s : Simplex Signed8,
    Reachable (fun o => 0 ≤ o.zero.val ∧ o.zero.val < 2) (Builder.slide 2 (by decide)).network s ∧ (0 : Int) < 2 ∧
    (∀ w ∈ (Builder.slide 2 (by decide)).weights, 2 ∣ w.val) ∧ s.phase ≠ .setup ∧ s.options.zero.val = 1 ∧
    ∀ x ∈ s.solution.arcs.toList, 0 ≤ x.flow.val ∧ 2 ∣ x.flow.val ∧ (x.inTree = false → x.flow.val = 0) := by
  have hrun : (ofSlide 2 (by decide)).run solve =
      .ok (.ok .degenerate, (ofSlide 2 (by decide)).after solve) := by
    decide +kernel
  have hreach : Reachable (fun o => 0 ≤ o.zero.val ∧ o.zero.val < 2) (Builder.slide 2 (by decide)).network
      ((ofSlide 2 (by decide)).after solve) :=
    .solve (.setOptions .new ⟨by decide, by decide⟩) hrun
  have hphase : ((ofSlide 2 (by decide)).after solve).phase ≠ .setup := by decide +kernel
  have hweights : ∀ w ∈ (Builder.slide 2 (by decide)).weights, (2 : Int) ∣ w.val := by decide
  exact ⟨_, hreach, by decide, hweights, hphase, by decide +kernel,
    nonneg_of_reachable (Builder.slide 2 (by decide)) (by decide) hweights hreach hphase⟩

/-- On a slide of units an arc that carries nothing is tied with one that carries one, and that with one that carries
two. The last costs most and leaves, and the first gives two that it does not have. -/
theorem flow_of_slide : ∃ s₁ s₂ s₃ : Simplex Signed8,
    (ofSlide 1 (by decide)).run start = .ok (.ok (), s₁) ∧ s₁.run optimize = .ok (.ok 0, s₁) ∧
      s₁.run checkStart = .ok (.ok .degenerate, s₁) ∧ s₁.run restoreCosts = .ok (.ok (), s₂) ∧
      s₂.run optimize = .ok (.ok 2, s₃) ∧ s₃.options = (ofSlide 1 (by decide)).options ∧
      ∃ x ∈ s₃.solution.arcs.toList, x.flow.val = -2 ∧ x.flow.val < -s₃.options.zero.val := by
  let s₁ := (ofSlide 1 (by decide)).after start
  let s₂ := s₁.after restoreCosts
  have h₁ : (ofSlide 1 (by decide)).run start = .ok (.ok (), s₁) := by decide +kernel
  have h₂ : s₁.run optimize = .ok (.ok 0, s₁) := by decide +kernel
  have hc : s₁.run checkStart = .ok (.ok .degenerate, s₁) := by decide +kernel
  have h₃ : s₁.run restoreCosts = .ok (.ok (), s₂) := by decide +kernel
  have h₄ : s₂.run optimize = .ok (.ok 2, s₂.after optimize) := by decide +kernel
  exact ⟨_, _, _, h₁, h₂, hc, h₃, h₄, by decide +kernel, by decide +kernel⟩

end Simplex

end Transportation
