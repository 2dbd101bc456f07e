import Transportation.Proofs.Network.Cost
import Transportation.Proofs.Simplex.Artificial
import Transportation.Proofs.Simplex.History
import Transportation.Proofs.Simplex.Input
/-!
# Solving a solution

A solution is an instance again: its real arcs stand where they stood, at the costs they had, and its flows, tree
flags, potentials and artificial arcs are forgotten when the first phase begins. The second phase restores the same
costs, since no artificial arc is left in the tree, and so the solution is found again.
-/

namespace Transportation

namespace Network

variable {F : Type} {g h k : Network F} {c c' : F}

/-! ## Restoring the costs from a solution -/

/-- Costs are restored alike from instances with the same costs of real arcs, if no artificial arc is in the tree. -/
theorem restore_congr (hreal : ∀ x ∈ k.realArcs, ∃ a b, g.arc x.id = .ok a ∧ h.arc x.id = .ok b ∧ b.cost = a.cost)
    (hart : ∀ x ∈ k.artificialArcs, x.inTree = false) : h.restore c' k = g.restore c k := by
  have hcost : ∀ x ∈ k.arcs.toList, h.restoredCost c' x = g.restoredCost c x := by
    intro x hx
    cases hk : x.kind with
    | real =>
      obtain ⟨a, b, ha, hb, hab⟩ := hreal x (List.mem_filter.2 ⟨hx, by simp [Arc.isReal, hk]⟩)
      simp only [restoredCost, hk, ha, hb, Checked.ok_bind, hab]
    | artificial =>
      have ht := hart x (List.mem_filter.2 ⟨hx, by simp [Arc.isArtificial, hk]⟩)
      simp only [restoredCost, hk, ht]
      rfl
  unfold restore
  rw [Checked.mapM_congr fun x hx => by rw [hcost x hx]]

end Network

namespace Simplex

open Network

variable {F : Type} [Amount F] {s s' : Simplex F} {g h : Network F}

/-- The second phase begins in the same way with every instance of which the same costs are restored. -/
theorem run_restoreCosts_withInput (hs : s.phase ≠ .setup) {c c' : F} (hc : s.artificialCost = .ok c)
    (hc' : (s.withInput h).artificialCost = .ok c') (hr : h.restore c' s.solution = s.input.restore c s.solution) :
    (s.withInput h).run restoreCosts = (s.run restoreCosts).map fun p => (p.1, p.2.withInput h) := by
  have hs' : (s.withInput h).phase ≠ .setup := hs
  rw [run_restoreCosts, run_restoreCosts, if_neg hs, if_neg hs', hc, hc']
  simp only [Checked.ok_bind]
  show h.restore c' s.solution >>= _ = _
  rw [hr]
  cases s.input.restore c s.solution with
  | error => rfl
  | ok k => exact IgnoresInput.updatePotentials { s with solution := k, phase := .optimal } h

/-- An artificial arc that is not in the tree when the second phase begins keeps its cost. -/
theorem RestoreRun.cost_eq (h : RestoreRun s (.ok ()) s') (hart : ∀ x ∈ s.solution.artificialArcs, x.inTree = false)
    {i : Nat} {x : Arc F} (hx : s'.solution.arcs[i]? = some x) (hk : x.kind = .artificial) :
    ∃ y, s.solution.arcs[i]? = some y ∧ y.kind = .artificial ∧ x.cost = y.cost := by
  generalize hr : (Except.ok () : Except SolveError Unit) = r at h
  cases h with
  | noTree => cases hr
  | restored _ _ hrestore hu =>
    obtain ⟨ps, -, rfl⟩ := Incidence.computePotentials_eq_ok_iff.1 hu
    obtain ⟨y, hy, hcost, hxy⟩ := restoredCost_of_restore hrestore hx
    have hky : y.kind = .artificial := by rw [hxy] at hk; exact hk
    have ht := hart y (List.mem_filter.2 ⟨mem_arcs_iff.2 ⟨i, hy⟩, by simp [Arc.isArtificial, hky]⟩)
    simp only [restoredCost, hky, ht] at hcost
    exact ⟨y, hy, hky, (Checked.pure_eq_ok_iff.1 hcost).symm⟩

/-- If the tree has no artificial arcs when the second phase begins, artificial arcs always cost one. -/
theorem Sound.cost_of_artificial (hs : Sound g s) (hphase : s.phase = .initial)
    (hart : ∀ x ∈ s.solution.artificialArcs, x.inTree = false) {t : Simplex F} (hr : RestoreRun s (.ok ()) t)
    {r : Except SolveError Nat} (ho : OptimizeRun t r s') {i : Nat} {x : Arc F}
    (hx : s'.solution.arcs[i]? = some x) (hk : x.kind = .artificial) : x.cost = Amount.one := by
  obtain ⟨y, hy, hxy⟩ := exists_of_map_eq (plan_eq_iff.1 ((hs.restore hr).plan_optimize ho)).2 hx
  simp only [Prod.mk.injEq] at hxy
  obtain ⟨z, hz, hkz, hyz⟩ := hr.cost_eq hart hy (hxy.1.trans hk)
  have hcost := hs.costs hz
  simp only [hphase, hkz] at hcost
  rw [← hxy.2, hyz, hcost]

/-- Of two working copies of one instance, one in the second phase, both give the costs of the instance back. -/
theorem Sound.restore_eq (hs : Sound g s) (hs' : Sound g s') (hphase : s'.phase = .optimal)
    (hart : ∀ x ∈ s.solution.artificialArcs, x.inTree = false) (c c' : F) :
    s'.solution.restore c' s.solution = g.restore c s.solution := by
  refine restore_congr (fun x hx => ?_) hart
  obtain ⟨hx, hk⟩ := List.mem_filter.1 hx
  have hk : x.kind = .real := by simpa [Arc.isReal] using hk
  have hx := hs.wellFormed.getElem?_id hx
  obtain ⟨y, hy, hxy⟩ := exists_real_of_base (hs.base.trans hs'.base.symm) hs.wellFormed hs'.wellFormed hx hk
  have hky : y.kind = .real := (Arc.frame_eq_iff.1 hxy).2.2.2.trans hk
  have hcost := hs'.costs hy
  simp only [hphase, hky] at hcost
  obtain ⟨a, ha, hcost⟩ := hcost
  exact ⟨a, y, arc_eq_ok_iff.2 ha, arc_eq_ok_iff.2 hy, hcost⟩

end Simplex

/-! ## Integers -/

namespace Simplex

open Network

variable {max : Nat} [NeZero max] {g : Network (Signed max)} {s s' : Simplex (Signed max)}

/-- From a solution the artificial cost can be computed if it could from the instance. -/
theorem Sound.exists_defaultArtificialCost (hs : Sound g s) (hphase : s.phase = .optimal)
    (hart : ∀ {i : Nat} {x : Arc (Signed max)}, s.solution.arcs[i]? = some x → x.kind = .artificial →
      x.cost = Amount.one) {c : Signed max} (hc : g.defaultArtificialCost = .ok c) :
    ∃ c', s.solution.defaultArtificialCost = .ok c' := by
  obtain ⟨hcosts, hcount⟩ := bounds_of_defaultArtificialCost hc
  refine Checked.FaultsOnly.exists_ok (faultsOnly_defaultArtificialCost_of_count (fun x hx => ?_) rfl ?_)
  · obtain ⟨i, hi⟩ := mem_arcs_iff.1 hx
    cases hk : x.kind with
    | real =>
      have hcost := hs.costs hi
      simp only [hphase, hk] at hcost
      obtain ⟨y, hy, hcost⟩ := hcost
      rw [hcost]
      exact hcosts y (mem_arcs_iff.2 ⟨i, hy⟩)
    | artificial =>
      rw [hart hi hk, Signed.one_val]
      omega
  · rw [hs.numVertices_eq]
    exact hcount

omit [NeZero max] in
theorem solve_eq_ok_iff {F : Type} [Amount F] {g h : Network F} {state : SolutionState} :
    g.solve = .ok (.ok (state, h)) ↔ ∃ t, (new g).run solve = .ok (.ok state, t) ∧ t.solution = h := by
  unfold Network.solve
  rw [Checked.bind_eq_ok_iff]
  constructor
  · rintro ⟨⟨_ | state', t⟩, ht, e⟩
    · cases e
    · cases e
      exact ⟨t, ht, rfl⟩
  · rintro ⟨t, ht, rfl⟩
    exact ⟨_, ht, rfl⟩

/-- A solution that is optimal is its own solution. -/
theorem solve_solution (b : Builder (Signed max)) {h : Network (Signed max)}
    (e : b.network.solve = .ok (.ok (.optimal, h))) : h.solve = .ok (.ok (.optimal, h)) := by
  have hg := wellFormed_network b
  obtain ⟨s', hsolve, rfl⟩ := solve_eq_ok_iff.1 e
  obtain ⟨s₁, s₂, s₃, s₄, k, k', h₁, h₂, hc, h₃, h₄, hn, rfl⟩ := run_solve_eq_ok_iff.1 hsolve
  -- What holds of the solver after each part.
  have hstart := startRun_of_run h₁
  have hopt := optimizeRun_of_run h₂
  have hrestore := restoreRun_of_run h₃
  have hopt' := optimizeRun_of_run h₄
  obtain ⟨h, -⟩ | ⟨-, hphase₁, hs₁⟩ := sound_of_start hg rfl hstart
  · cases h
  have hs₂ := (stable_sound hg).optimize hs₁ hopt
  have hs₃ := hs₂.restore hrestore
  have hs₄ := (stable_sound hg).optimize hs₃ hopt'
  have hphase₂ : s₂.phase = .initial := hopt.phase_eq.trans hphase₁
  have hphase₄ : s₄.phase = .optimal := hopt'.phase_eq.trans hrestore.phase_eq
  have hart := (checkRun_of_run hc).1.not_inTree
  have hinput₂ : s₂.input = b.network := hs₂.input
  have hoptions₂ : s₂.options = .default := hopt.constants.2.trans hstart.constants.2
  -- The artificial cost from the solution may be another one, but no arc has it.
  have hdefault : ∀ g, (s₂.withInput g).artificialCost = g.defaultArtificialCost := by
    intro g
    simp only [artificialCost, withInput, hoptions₂, Options.default]
  obtain ⟨c, hcost⟩ := hrestore.artificialCost_eq
  obtain ⟨c', hcost'⟩ := hs₄.exists_defaultArtificialCost hphase₄
    (hs₂.cost_of_artificial hphase₂ hart hrestore hopt') (by rw [← hinput₂, ← hdefault]; exact hcost)
  have hsame : s₄.solution.restore c' s₂.solution = s₂.input.restore c s₂.solution := by
    rw [hinput₂]
    exact hs₂.restore_eq hs₄ hphase₄ hart c c'
  have hover : ((new b.network).withInput s₄.solution).run solve =
      .ok (.ok .optimal, { s₄.withInput s₄.solution with state := .optimal }) := by
    refine run_solve_eq_ok_iff.2 ⟨s₁.withInput s₄.solution, s₂.withInput s₄.solution, s₃.withInput s₄.solution,
      s₄.withInput s₄.solution, k, k', ?_, ?_, ?_, ?_, ?_, hn, rfl⟩
    · show ((new b.network).renewed.withInput s₄.solution).run start = _
      rw [run_start_withInput hs₄.base, h₁]
      rfl
    · rw [IgnoresInput.optimize, h₂]
      rfl
    · rw [IgnoresInput.checkStart, hc]
      rfl
    · rw [run_restoreCosts_withInput (by rw [hphase₂]; decide) hcost ((hdefault _).trans hcost') hsame, h₃]
      rfl
    · rw [IgnoresInput.optimize, h₄]
      rfl
  -- A new solver differs from that one in the working copy, which is forgotten.
  rcases run_solve_congr (s := (new b.network).withInput s₄.solution) (t := new s₄.solution) rfl rfl with ⟨-, h⟩ | h
  · rw [hover] at h
    cases h
  · exact solve_eq_ok_iff.2 ⟨_, h.trans hover, rfl⟩

/-- The solution of the relay has artificial arcs, flow, tree arcs and potentials. -/
theorem solve_solution_of_relay : ∃ h : Network Signed8,
    Builder.relay.network.solve = .ok (.ok (.optimal, h)) ∧ h.artificialArcs ≠ [] ∧ h.numTreeArcs = 2 ∧
    (∃ x ∈ h.treeArcs, x.flow.val = 3) ∧ (∃ v ∈ h.vertices.toList, v.potential.val = 3) ∧
    h.solve = .ok (.ok (.optimal, h)) := by
  have e : Builder.relay.network.solve =
      .ok (.ok (.optimal, ((new Builder.relay.network).after solve).solution)) := by decide +kernel
  exact ⟨_, e, by decide +kernel, by decide +kernel, by decide +kernel, by decide +kernel,
    solve_solution Builder.relay e⟩

end Simplex

end Transportation
