import Transportation.Proofs.Simplex.Entering
import Transportation.Proofs.Simplex.Sound
import Transportation.Proofs.Tree.Pruning
/-!
# Faults of operations

An operation of a sound solver can fault as the steps of arithmetic in it can: no look-up fails, arcs enter and leave
the tree as they should, and there are numbers for the artificial arcs. Composed operations can fault as their parts
can.
-/

namespace Transportation

variable {F : Type}

/-- After the push the blocking arc of the cycle can leave. -/
theorem Unicyclic.exists_remove_blocking [Amount F] {t : Incidence} {g g' : Network F} {a : ArcId}
    (hs : Unicyclic t g a) {cycle : List Step} (hc : t.findCycle? g a = .ok (some cycle)) {tolerance : F}
    {b : Blocking F} (hb : g.blocking? tolerance cycle = .ok (some b)) (hp : g.push b.flow cycle = .ok g') :
    ∃ t' h, t.remove g' b.arc = .ok (t', h) := by
  obtain ⟨-, ⟨u, hw⟩, -⟩ := hs.cycle hc
  obtain ⟨-, -, -, -, hmem⟩ := Network.blocks_of_blocking? hb
  obtain ⟨x, hx, ht⟩ := hs.wellFormed.toNumbered.exists_of_walk hw (List.mem_map_of_mem hmem)
  have hdrained := Network.drained_push hp
  obtain ⟨y, hy, hxy⟩ := Network.exists_arc_of_drained hdrained.symm hx
  have hs' := hs.of_drained hdrained
  exact hs'.lists.exists_remove hs'.wellFormed.toNumbered hy ((congrArg Arc.inTree hxy).trans ht)

namespace Simplex

open Checked

variable {α β : Type} {s s' : Simplex F} {P : Fault → Prop}

/-! ## Composed operations -/

theorem faultsOnly_run_bind {op : SolverM F α} {f : α → SolverM F β} (h : FaultsOnly P (s.run op))
    (hf : ∀ a t, s.run op = .ok (.ok a, t) → FaultsOnly P (t.run (f a))) : FaultsOnly P (s.run (op >>= f)) := by
  rw [run_bind]
  refine .bind h fun ⟨r, t⟩ hr => ?_
  cases r with
  | ok a => exact hf a t hr
  | error e => exact .pure _

theorem faultsOnly_run_checked_bind {x : Checked α} {f : α → SolverM F β} (hx : FaultsOnly P x)
    (hf : ∀ a, x = .ok a → FaultsOnly P (s.run (f a))) : FaultsOnly P (s.run (liftM x >>= f)) := by
  rw [run_checked_bind]
  exact .bind hx hf

theorem faultsOnly_run_requireTree_bind {f : Unit → SolverM F β}
    (hf : s.phase ≠ .setup → FaultsOnly P (s.run (f ()))) : FaultsOnly P (s.run (requireTree >>= f)) := by
  rw [run_bind, run_requireTree]
  by_cases h : s.phase = .setup
  · rw [if_pos h]
    exact .pure _
  · rw [if_neg h]
    exact hf h

variable {a : ArcId} {t : Incidence} {g h : Network F} {f : Unit → SolverM F β}

theorem run_enter_bind (s : Simplex F) (hi : s.tree.insert s.solution a = .ok (t, g)) :
    s.run (enter a >>= f) = run { s with tree := t, solution := g } (f ()) := by
  unfold enter
  rw [bind_assoc, run_get_bind, bind_assoc, run_bind, run_checked, hi]
  exact run_set_bind (s := s)

theorem run_leave_bind (s : Simplex F) (hl : s.tree.remove s.solution a = .ok (t, g)) :
    s.run (leave a >>= f) = run { s with tree := t, solution := g } (f ()) := by
  unfold leave
  rw [bind_assoc, run_get_bind, bind_assoc, run_bind, run_checked, hl]
  exact run_set_bind (s := s)

variable [Amount F]

theorem faultsOnly_run_findEntering_bind {f : Option (Candidate F) → SolverM F β} (hp : FaultsOnly P s.price)
    (hf : ∀ c cursor, s.price = .ok (c, cursor) → FaultsOnly P (run { s with cursor } (f c))) :
    FaultsOnly P (s.run (findEntering >>= f)) := by
  unfold findEntering
  rw [bind_assoc, run_get_bind, bind_assoc]
  refine faultsOnly_run_checked_bind hp fun ⟨c, cursor⟩ hc => ?_
  rw [bind_assoc, run_set_bind, pure_bind]
  exact hf c cursor hc

theorem faultsOnly_updatePotentials (hu : FaultsOnly P (s.tree.computePotentials s.solution s.root)) :
    FaultsOnly P (s.run updatePotentials) := by
  unfold updatePotentials
  rw [run_get_bind]
  refine faultsOnly_run_checked_bind hu fun ⟨g, all⟩ _ => ?_
  rw [run_set_bind]
  cases all <;> exact .pure _

theorem faultsOnly_exchange {cycle : List Step} {delta : F} (hpush : FaultsOnly P (s.solution.push delta cycle))
    (hl : ∀ g, s.solution.push delta cycle = .ok g → ∃ t h, s.tree.remove g a = .ok (t, h)) :
    FaultsOnly P (s.run (exchange cycle delta a)) := by
  unfold exchange
  rw [run_get_bind]
  refine faultsOnly_run_checked_bind hpush fun g hg => ?_
  obtain ⟨t, h, hl⟩ := hl g hg
  rw [run_set_bind, run_leave_bind { s with solution := g } hl]
  exact .pure _

/-! ## Pivots -/

/-- An arc has been found to enter the tree, and it closes the cycle. -/
structure Closes (s : Simplex F) (c : Candidate F) (t : Incidence) (g : Network F) (cycle : List Step) : Prop where
  phase : s.phase ≠ .setup
  price : ∃ cursor, s.price = .ok (some c, cursor)
  insert : s.tree.insert s.solution c.arc = .ok (t, g)
  cycle : t.findCycle? g c.arc = .ok (some cycle)

theorem Closes.exists_arc {c : Candidate F} {cycle : List Step} (h : s.Closes c t g cycle)
    (ht : s.phase ≠ .setup → SpanningTree s.tree s.solution) :
    ∀ step ∈ cycle, ∃ x, g.arcs[step.arc.index]? = some x := by
  have huni := (ht h.phase).insert h.insert
  obtain ⟨-, ⟨u, hw⟩, -⟩ := huni.cycle h.cycle
  intro step hstep
  obtain ⟨x, hx, -⟩ := huni.wellFormed.toNumbered.exists_of_walk hw (List.mem_map_of_mem hstep)
  exact ⟨x, hx⟩

/-- A pivot can fault as pricing, the search for the blocking arc, the push and the new potentials can. -/
theorem faultsOnly_pivot (ht : s.phase ≠ .setup → SpanningTree s.tree s.solution)
    (hp : s.phase ≠ .setup → FaultsOnly P s.price)
    (hb : ∀ {c t g cycle}, s.Closes c t g cycle → FaultsOnly P (g.blocking? s.options.zero cycle))
    (hpush : ∀ {c t g cycle b}, s.Closes c t g cycle → g.blocking? s.options.zero cycle = .ok (some b) →
      FaultsOnly P (g.push b.flow cycle))
    (hu : ∀ {c t g cycle b g' t' h}, s.Closes c t g cycle → g.blocking? s.options.zero cycle = .ok (some b) →
      g.push b.flow cycle = .ok g' → t.remove g' b.arc = .ok (t', h) →
      FaultsOnly P (t'.computePotentials h s.root)) : FaultsOnly P (s.run pivot) := by
  unfold pivot
  refine faultsOnly_run_requireTree_bind fun hphase => ?_
  refine faultsOnly_run_findEntering_bind (hp hphase) fun c cursor hc => ?_
  cases c with
  | none => exact .pure _
  | some c =>
    have htree := ht hphase
    -- The arc priced is outside the tree, so it can enter.
    obtain ⟨hr, -⟩ := attractive_of_price (Q := fun _ => True) (fun _ _ => trivial) (fun _ _ => trivial) hc
    obtain ⟨x, _, _, _, hx, hout, -⟩ := Network.reducedCost?_eq_some_iff.1 hr
    obtain ⟨t, g, hi⟩ := htree.lists.exists_insert htree.wellFormed.toNumbered hx hout
    have huni := htree.insert hi
    have hg := huni.wellFormed.toNumbered
    obtain ⟨y, hy, hin⟩ := huni.entering
    obtain ⟨t', g', hl⟩ := huni.lists.exists_remove hg hy hin
    rw [run_enter_bind { s with cursor } hi, run_get_bind]
    refine faultsOnly_run_checked_bind (.of_ok (Incidence.exists_findCycle? huni.lists huni.wellFormed.proper hy).choose_spec)
      fun cycle hcycle => ?_
    cases cycle with
    | none =>
      rw [run_leave_bind { s with cursor, tree := t, solution := g } hl]
      exact .pure _
    | some cycle =>
      have hcloses : s.Closes c t g cycle := ⟨hphase, ⟨_, hc⟩, hi, hcycle⟩
      refine faultsOnly_run_checked_bind (hb hcloses) fun b hblock => ?_
      cases b with
      | none =>
        rw [run_leave_bind { s with cursor, tree := t, solution := g } hl]
        exact .pure _
      | some b =>
        refine faultsOnly_run_bind (faultsOnly_exchange (hpush hcloses hblock) fun g' hg' => ?_) fun _ s' hs' => ?_
        · exact huni.exists_remove_blocking hcycle hblock hg'
        · rw [← bind_pure (exchange cycle b.flow b.arc), run_exchange_bind_eq_ok_iff] at hs'
          obtain ⟨g', t', h, hg', hl, hs'⟩ := hs'
          obtain ⟨-, rfl⟩ := run_pure_eq_ok_iff.1 hs'
          exact faultsOnly_run_bind (faultsOnly_updatePotentials (hu hcloses hblock hg' hl)) fun _ _ _ => .pure _

/-- Pivoting on can fault as each pivot and the pricing after the last one can. -/
theorem faultsOnly_optimize {I : Simplex F → Prop} (hs : s.phase ≠ .setup → I s)
    (hI : ∀ {s s' r}, I s → PivotRun s r s' → I s') (hprice : ∀ {s}, I s → FaultsOnly P s.price)
    (hpivot : ∀ {s}, I s → FaultsOnly P (s.run pivot)) : FaultsOnly P (s.run optimize) := by
  have within : ∀ {limit n count : Nat} {s : Simplex F}, I s → FaultsOnly P (s.run (optimizeWithin limit n count)) := by
    intro limit n
    induction n with
    | zero =>
      intro count s hs
      refine faultsOnly_run_findEntering_bind (hprice hs) fun c _ _ => ?_
      cases c <;> exact .pure _
    | succ n ih =>
      intro count s hs
      refine faultsOnly_run_bind (hpivot hs) fun o s' h => ?_
      cases o with
      | none => exact .pure _
      | some _ => exact ih (hI hs (pivotRun_of_run h))
  refine faultsOnly_run_requireTree_bind fun hphase => ?_
  rw [run_get_bind]
  exact within (hs hphase)

/-! ## Beginning a phase -/

/-- The first phase can fault as the sums and sign changes of weights and the first potentials can. -/
theorem faultsOnly_start (hg : s.input.WellFormed) (hb : FaultsOnly P (s.input.isBalancedWithin s.options.zero))
    (hstar : FaultsOnly P s.input.star)
    (hu : ∀ {g t}, s.input.star = .ok g → Incidence.ofNetwork g = .ok t →
      FaultsOnly P (t.computePotentials g g.firstSupplier)) : FaultsOnly P (s.run start) := by
  unfold start
  rw [run_get_bind]
  refine faultsOnly_run_checked_bind hb fun b _ => ?_
  cases b with
  | false => exact .pure _
  | true =>
    refine faultsOnly_run_checked_bind hstar fun g hstar => ?_
    obtain ⟨t, ht⟩ := Incidence.exists_ofNetwork (Network.star_of_eq_ok hg hstar).wellFormed.toNumbered
    refine faultsOnly_run_checked_bind (.of_ok ht) fun t ht => ?_
    rw [run_set_bind]
    exact faultsOnly_updatePotentials (hu hstar ht)

omit [Amount F] in
/-- The costs of the instance can be restored on a working copy. -/
theorem exists_restore {h : Network F} (hg : g.WellFormed) (hh : h.WellFormed) (e : h.base = g.base) (c : F) :
    ∃ k, g.restore c h = .ok k := by
  refine FaultsOnly.exists_ok (.bind (.mapM fun x hx => ?_) fun _ _ => .pure _)
  obtain ⟨i, hi⟩ := Network.mem_arcs_iff.1 hx
  unfold Network.restoredCost
  cases hk : x.kind with
  | artificial => exact .pure _
  | real =>
    obtain ⟨y, hy, -⟩ := Network.exists_real_of_base e hh hg hi hk
    rw [hh.arc_id hi]
    exact .bind (.bind (.of_ok (Network.arc_eq_ok_iff.2 hy)) fun _ _ => .pure _) fun _ _ => .pure _

/-- The second phase can fault as the artificial cost and the new potentials can. -/
theorem faultsOnly_restoreCosts (hg : g.WellFormed) (hs : Sound g s)
    (hc : s.phase ≠ .setup → FaultsOnly P s.artificialCost)
    (hu : ∀ {c k}, s.phase ≠ .setup → s.artificialCost = .ok c → s.input.restore c s.solution = .ok k →
      FaultsOnly P (s.tree.computePotentials k s.root)) : FaultsOnly P (s.run restoreCosts) := by
  refine faultsOnly_run_requireTree_bind fun hphase => ?_
  rw [run_get_bind]
  have hrest : ∀ c, s.artificialCost = .ok c → FaultsOnly P (s.run (do
      let solution ← s.input.restore c s.solution
      set { s with solution, phase := .optimal }
      updatePotentials)) := by
    intro c hc
    obtain ⟨k, hk⟩ := exists_restore hg hs.wellFormed hs.base c
    refine faultsOnly_run_checked_bind (.of_ok (hs.input ▸ hk)) fun k hk => ?_
    rw [run_set_bind]
    exact faultsOnly_updatePotentials (hu hphase hc hk)
  unfold artificialCost at hc hrest
  cases ho : s.options.artificialCost with
  | some c =>
    simp only [ho, pure_bind] at hrest ⊢
    exact hrest c rfl
  | none =>
    simp only [ho] at hc hrest ⊢
    exact faultsOnly_run_checked_bind (hc hphase) hrest

/-- The check between the phases can fault as the costs on artificial arcs can. -/
theorem faultsOnly_checkStart (h : s.phase ≠ .setup → FaultsOnly P s.artificialLoads) :
    FaultsOnly P (s.run checkStart) := by
  unfold checkStart
  refine faultsOnly_run_requireTree_bind fun hphase => ?_
  rw [run_get_bind, run_mapM_bind fun a t => run_load]
  refine .bind (h hphase) fun arcs _ => ?_
  simp only [gt_iff_lt]
  split
  · exact .of_ok rfl
  · exact .of_ok rfl

/-! ## Both phases -/

/-- Solving can fault as its parts can, each after those before it. -/
theorem faultsOnly_solve (h₁ : FaultsOnly P (s.renewed.run start))
    (h₂ : ∀ {s₁}, StartRun s.renewed (.ok ()) s₁ → FaultsOnly P (s₁.run optimize))
    (hc : ∀ {s₁ s₂ k}, StartRun s.renewed (.ok ()) s₁ → OptimizeRun s₁ (.ok k) s₂ →
      FaultsOnly P (s₂.run checkStart) ∧ FaultsOnly P (s₂.run restoreCosts))
    (h₄ : ∀ {s₁ s₂ s₃ k}, StartRun s.renewed (.ok ()) s₁ → OptimizeRun s₁ (.ok k) s₂ → RestoreRun s₂ (.ok ()) s₃ →
      FaultsOnly P (s₃.run optimize)) : FaultsOnly P (s.run solve) := by
  unfold solve
  rw [run_modify_bind]
  refine faultsOnly_run_bind h₁ fun _ s₁ h₁ => ?_
  replace h₁ := startRun_of_run h₁
  refine faultsOnly_run_bind (h₂ h₁) fun k s₂ h₂ => ?_
  replace h₂ := optimizeRun_of_run h₂
  obtain ⟨hc, h₃⟩ := hc h₁ h₂
  refine faultsOnly_run_bind hc fun state t ht => ?_
  obtain ⟨-, rfl⟩ := checkRun_of_run ht
  refine faultsOnly_run_bind h₃ fun _ s₃ h₃ => ?_
  refine faultsOnly_run_bind (h₄ h₁ h₂ (restoreRun_of_run h₃)) fun k' s₄ _ => ?_
  rw [run_get_bind]
  by_cases hn : s₄.numCarryingArtificialArcs > 0 <;> simp only [hn, if_true, if_false]
  · exact .of_ok rfl
  · exact .of_ok rfl

end Simplex

end Transportation
