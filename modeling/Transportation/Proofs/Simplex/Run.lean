import Transportation.Simplex.Solve
/-!
# What an operation does

For each operation of the solver the ways in which it can end, each with its outcome and the state it leaves. The
proofs about the solver are case analyses over these and do not open the operations again.
-/

namespace Transportation.Simplex

variable {F : Type} {α β : Type} {s s' : Simplex F}

theorem run_bind_eq_ok_iff {op : SolverM F α} {f : α → SolverM F β} {r : Except SolveError β} :
    s.run (op >>= f) = .ok (r, s') ↔
      (∃ a t, s.run op = .ok (.ok a, t) ∧ t.run (f a) = .ok (r, s')) ∨
        ∃ e, s.run op = .ok (.error e, s') ∧ r = .error e := by
  rw [run_bind, Checked.bind_eq_ok_iff]
  constructor
  · rintro ⟨⟨_ | a, t⟩, hop, h⟩
    · cases h; exact .inr ⟨_, hop, rfl⟩
    · exact .inl ⟨a, t, hop, h⟩
  · rintro (⟨a, t, hop, h⟩ | ⟨e, hop, rfl⟩)
    · exact ⟨_, hop, h⟩
    · exact ⟨_, hop, rfl⟩

theorem run_pure_eq_ok_iff {a : α} {r : Except SolveError α} :
    s.run (pure a) = .ok (r, s') ↔ r = .ok a ∧ s' = s := by
  simp [run_pure, eq_comm]

theorem run_throw_eq_ok_iff {e : SolveError} {r : Except SolveError α} :
    s.run (throw e : SolverM F α) = .ok (r, s') ↔ r = .error e ∧ s' = s := by
  simp [run_throw, eq_comm]

theorem run_get_bind {f : Simplex F → SolverM F β} : s.run (get >>= f) = s.run (f s) := by
  rw [run_bind, run_get]; rfl

theorem run_set_bind {t : Simplex F} {f : Unit → SolverM F β} : s.run (set t >>= f) = t.run (f ()) := by
  rw [run_bind, run_set]; rfl

theorem run_modify_bind {m : Simplex F → Simplex F} {f : Unit → SolverM F β} :
    s.run (modify m >>= f) = (m s).run (f ()) := by
  rw [run_bind, run_modify]; rfl

theorem run_checked_bind {x : Checked α} {f : α → SolverM F β} :
    s.run (liftM x >>= f) = x >>= fun a => s.run (f a) := by
  rw [run_bind, run_checked]
  cases x <;> rfl

theorem run_checked_bind_eq_ok_iff {x : Checked α} {f : α → SolverM F β} {r : Except SolveError β} :
    s.run (liftM x >>= f) = .ok (r, s') ↔ ∃ a, x = .ok a ∧ s.run (f a) = .ok (r, s') := by
  rw [run_checked_bind, Checked.bind_eq_ok_iff]

/-- A loop of steps that leave the state as it is. -/
theorem run_mapM_bind {γ : Type} {g : α → SolverM F γ} {f : α → Checked γ}
    (hg : ∀ a t, run t (g a) = run t (liftM (f a))) {l : List α} {k : List γ → SolverM F β} :
    s.run (l.mapM g >>= k) = l.mapM f >>= fun l' => s.run (k l') := by
  induction l generalizing k with
  | nil =>
    rw [List.mapM_nil, pure_bind, List.mapM_nil]
    rfl
  | cons a l ih =>
    rw [List.mapM_cons, bind_assoc, run_bind, hg, ← run_bind, run_checked_bind, List.mapM_cons, bind_assoc]
    congr 1
    funext b
    rw [bind_assoc, ih, bind_assoc]
    rfl

theorem run_requireTree_bind_eq_ok_iff {f : Unit → SolverM F β} {r : Except SolveError β} :
    s.run (requireTree >>= f) = .ok (r, s') ↔
      (s.phase = .setup ∧ r = .error .noSpanningTree ∧ s' = s) ∨ (s.phase ≠ .setup ∧ s.run (f ()) = .ok (r, s')) := by
  rw [run_bind, run_requireTree]
  by_cases h : s.phase = .setup <;> simp [h, bind, Except.bind, eq_comm]

/-! ## Parts of operations -/

theorem run_enter_bind_eq_ok_iff {a : ArcId} {f : Unit → SolverM F β} {r : Except SolveError β} :
    s.run (enter a >>= f) = .ok (r, s') ↔
      ∃ t g, s.tree.insert s.solution a = .ok (t, g) ∧
        run { s with tree := t, solution := g } (f ()) = .ok (r, s') := by
  unfold enter
  rw [bind_assoc, run_get_bind, bind_assoc, run_checked_bind_eq_ok_iff]
  constructor
  · rintro ⟨⟨t, g⟩, h, hr⟩
    rw [run_set_bind] at hr
    exact ⟨t, g, h, hr⟩
  · rintro ⟨t, g, h, hr⟩
    refine ⟨(t, g), h, ?_⟩
    rw [run_set_bind]
    exact hr

theorem run_leave_bind_eq_ok_iff {a : ArcId} {f : Unit → SolverM F β} {r : Except SolveError β} :
    s.run (leave a >>= f) = .ok (r, s') ↔
      ∃ t g, s.tree.remove s.solution a = .ok (t, g) ∧
        run { s with tree := t, solution := g } (f ()) = .ok (r, s') := by
  unfold leave
  rw [bind_assoc, run_get_bind, bind_assoc, run_checked_bind_eq_ok_iff]
  constructor
  · rintro ⟨⟨t, g⟩, h, hr⟩
    rw [run_set_bind] at hr
    exact ⟨t, g, h, hr⟩
  · rintro ⟨t, g, h, hr⟩
    refine ⟨(t, g), h, ?_⟩
    rw [run_set_bind]
    exact hr

variable [Amount F]

theorem run_exchange_bind_eq_ok_iff {cycle : List Step} {delta : F} {a : ArcId} {f : Unit → SolverM F β}
    {r : Except SolveError β} :
    s.run (exchange cycle delta a >>= f) = .ok (r, s') ↔
      ∃ g t h, s.solution.push delta cycle = .ok g ∧ s.tree.remove g a = .ok (t, h) ∧
        run { s with tree := t, solution := h, pivots := s.pivots + 1 } (f ()) = .ok (r, s') := by
  unfold exchange
  rw [bind_assoc, run_get_bind, bind_assoc, run_checked_bind_eq_ok_iff]
  constructor
  · rintro ⟨g, hg, hr⟩
    rw [bind_assoc, run_set_bind, bind_assoc, run_leave_bind_eq_ok_iff] at hr
    obtain ⟨t, h, hl, hr⟩ := hr
    rw [run_modify_bind] at hr
    exact ⟨g, t, h, hg, hl, hr⟩
  · rintro ⟨g, t, h, hg, hl, hr⟩
    refine ⟨g, hg, ?_⟩
    rw [bind_assoc, run_set_bind, bind_assoc, run_leave_bind_eq_ok_iff]
    refine ⟨t, h, hl, ?_⟩
    rw [run_modify_bind]
    exact hr

theorem run_findEntering_bind_eq_ok_iff {f : Option (Candidate F) → SolverM F β} {r : Except SolveError β} :
    s.run (findEntering >>= f) = .ok (r, s') ↔
      ∃ c cursor, s.price = .ok (c, cursor) ∧ run { s with cursor } (f c) = .ok (r, s') := by
  unfold findEntering
  rw [bind_assoc, run_get_bind, bind_assoc, run_checked_bind_eq_ok_iff]
  constructor
  · rintro ⟨⟨c, cursor⟩, h, hr⟩
    rw [bind_assoc, run_set_bind, pure_bind] at hr
    exact ⟨c, cursor, h, hr⟩
  · rintro ⟨c, cursor, h, hr⟩
    refine ⟨(c, cursor), h, ?_⟩
    rw [bind_assoc, run_set_bind, pure_bind]
    exact hr

theorem run_updatePotentials_eq_ok_iff {r : Except SolveError Unit} :
    s.run updatePotentials = .ok (r, s') ↔
      ∃ g all, s.tree.computePotentials s.solution s.root = .ok (g, all) ∧ s' = { s with solution := g } ∧
        r = if all then .ok () else .error .noSpanningTree := by
  unfold updatePotentials
  rw [run_get_bind, run_checked_bind_eq_ok_iff]
  constructor
  · rintro ⟨⟨g, all⟩, h, hr⟩
    refine ⟨g, all, h, ?_⟩
    rw [run_set_bind] at hr
    cases all
    · obtain ⟨rfl, rfl⟩ := run_throw_eq_ok_iff.1 hr; exact ⟨rfl, rfl⟩
    · obtain ⟨rfl, rfl⟩ := run_pure_eq_ok_iff.1 hr; exact ⟨rfl, rfl⟩
  · rintro ⟨g, all, h, rfl, rfl⟩
    refine ⟨(g, all), h, ?_⟩
    rw [run_set_bind]
    cases all <;> rfl

/-! ## Pivots -/

/-- The ways a pivot from `s` can end. -/
inductive PivotRun (s : Simplex F) : Except SolveError (Option (Pivot F)) → Simplex F → Prop
  | noTree (hs : s.phase = .setup) : PivotRun s (.error .noSpanningTree) s
  | optimal {cursor} (hs : s.phase ≠ .setup) (hp : s.price = .ok (none, cursor)) :
      PivotRun s (.ok none) { s with cursor }
  | noCycle {c cursor t g t' g'} (hs : s.phase ≠ .setup) (hp : s.price = .ok (some c, cursor))
      (hi : s.tree.insert s.solution c.arc = .ok (t, g)) (hc : t.findCycle? g c.arc = .ok none)
      (hl : t.remove g c.arc = .ok (t', g')) :
      PivotRun s (.error .noSpanningTree) { s with cursor, tree := t', solution := g' }
  | unbounded {c cursor t g cycle t' g'} (hs : s.phase ≠ .setup) (hp : s.price = .ok (some c, cursor))
      (hi : s.tree.insert s.solution c.arc = .ok (t, g)) (hc : t.findCycle? g c.arc = .ok (some cycle))
      (hb : g.blocking? s.options.zero cycle = .ok none) (hl : t.remove g c.arc = .ok (t', g')) :
      PivotRun s (.error .unbounded) { s with cursor, tree := t', solution := g' }
  | pivoted {c cursor t g cycle b g' t' h k all} (hs : s.phase ≠ .setup) (hp : s.price = .ok (some c, cursor))
      (hi : s.tree.insert s.solution c.arc = .ok (t, g)) (hc : t.findCycle? g c.arc = .ok (some cycle))
      (hb : g.blocking? s.options.zero cycle = .ok (some b)) (hpush : g.push b.flow cycle = .ok g')
      (hl : t.remove g' b.arc = .ok (t', h)) (hu : t'.computePotentials h s.root = .ok (k, all)) :
      PivotRun s (if all then .ok (some ⟨c.arc, b.arc, c.reducedCost, b.flow⟩) else .error .noSpanningTree)
        { s with cursor, tree := t', solution := k, pivots := s.pivots + 1 }

theorem pivotRun_of_run {r : Except SolveError (Option (Pivot F))} (h : s.run pivot = .ok (r, s')) :
    PivotRun s r s' := by
  unfold pivot at h
  rw [run_requireTree_bind_eq_ok_iff] at h
  rcases h with ⟨hs, rfl, rfl⟩ | ⟨hs, h⟩
  · exact .noTree hs
  rw [run_findEntering_bind_eq_ok_iff] at h
  obtain ⟨c, cursor, hp, h⟩ := h
  cases c with
  | none =>
    obtain ⟨rfl, rfl⟩ := run_pure_eq_ok_iff.1 h
    exact .optimal hs hp
  | some c =>
    rw [run_enter_bind_eq_ok_iff] at h
    obtain ⟨t, g, hi, h⟩ := h
    rw [run_get_bind, run_checked_bind_eq_ok_iff] at h
    obtain ⟨cycle, hc, h⟩ := h
    cases cycle with
    | none =>
      obtain ⟨t', g', hl, h⟩ := run_leave_bind_eq_ok_iff.1 h
      obtain ⟨rfl, rfl⟩ := run_throw_eq_ok_iff.1 h
      exact .noCycle hs hp hi hc hl
    | some cycle =>
      obtain ⟨b, hb, h⟩ := run_checked_bind_eq_ok_iff.1 h
      cases b with
      | none =>
        obtain ⟨t', g', hl, h⟩ := run_leave_bind_eq_ok_iff.1 h
        obtain ⟨rfl, rfl⟩ := run_throw_eq_ok_iff.1 h
        exact .unbounded hs hp hi hc hb hl
      | some b =>
        obtain ⟨g', t', h', hpush, hl, h⟩ := run_exchange_bind_eq_ok_iff.1 h
        rcases run_bind_eq_ok_iff.1 h with ⟨_, s₁, hr, h⟩ | ⟨e, hr, rfl⟩
        · obtain ⟨k, all, hu, rfl, hall⟩ := run_updatePotentials_eq_ok_iff.1 hr
          obtain ⟨rfl, rfl⟩ := run_pure_eq_ok_iff.1 h
          cases all with
          | false => cases hall
          | true => exact .pivoted hs hp hi hc hb hpush hl hu
        · obtain ⟨k, all, hu, rfl, hall⟩ := run_updatePotentials_eq_ok_iff.1 hr
          cases all with
          | false => cases hall; exact .pivoted hs hp hi hc hb hpush hl hu
          | true => cases hall

/-! ## The other operations -/

/-- The ways to begin the first phase. -/
inductive StartRun (s : Simplex F) : Except SolveError Unit → Simplex F → Prop
  | unbalanced (hb : s.input.isBalancedWithin s.options.zero = .ok false) : StartRun s (.error .unbalanced) s
  | started {g t k all} (hb : s.input.isBalancedWithin s.options.zero = .ok true) (hg : s.input.star = .ok g)
      (ht : Incidence.ofNetwork g = .ok t) (hu : t.computePotentials g g.firstSupplier = .ok (k, all)) :
      StartRun s (if all then .ok () else .error .noSpanningTree)
        { s with
          solution := k
          tree := t
          root := g.firstSupplier
          phase := .initial
          cursor := 0
          blockSize := blockSizeFor g.numArcs }

theorem startRun_of_run {r : Except SolveError Unit} (h : s.run start = .ok (r, s')) : StartRun s r s' := by
  unfold start at h
  rw [run_get_bind, run_checked_bind_eq_ok_iff] at h
  obtain ⟨b, hb, h⟩ := h
  cases b with
  | false =>
    obtain ⟨rfl, rfl⟩ := run_throw_eq_ok_iff.1 h
    exact .unbalanced hb
  | true =>
    obtain ⟨g, hg, h⟩ := run_checked_bind_eq_ok_iff.1 h
    obtain ⟨t, ht, h⟩ := run_checked_bind_eq_ok_iff.1 h
    rw [run_set_bind] at h
    obtain ⟨k, all, hu, rfl, rfl⟩ := run_updatePotentials_eq_ok_iff.1 h
    exact .started hb hg ht hu

/-- The cost of artificial arcs in the second phase. -/
def artificialCost (s : Simplex F) : Checked F :=
  match s.options.artificialCost with
  | some c => pure c
  | none => s.input.defaultArtificialCost

/-- The ways to begin the second phase. -/
inductive RestoreRun (s : Simplex F) : Except SolveError Unit → Simplex F → Prop
  | noTree (hs : s.phase = .setup) : RestoreRun s (.error .noSpanningTree) s
  | restored {c g k all} (hs : s.phase ≠ .setup) (hc : s.artificialCost = .ok c)
      (hg : s.input.restore c s.solution = .ok g) (hu : s.tree.computePotentials g s.root = .ok (k, all)) :
      RestoreRun s (if all then .ok () else .error .noSpanningTree) { s with solution := k, phase := .optimal }

theorem restoreRun_of_run {r : Except SolveError Unit} (h : s.run restoreCosts = .ok (r, s')) :
    RestoreRun s r s' := by
  unfold restoreCosts at h
  rw [run_requireTree_bind_eq_ok_iff] at h
  rcases h with ⟨hs, rfl, rfl⟩ | ⟨hs, h⟩
  · exact .noTree hs
  rw [run_get_bind] at h
  have hc : ∃ c, s.artificialCost = .ok c ∧ s.run (do
      let solution ← s.input.restore c s.solution
      set { s with solution, phase := .optimal }
      updatePotentials) = .ok (r, s') := by
    unfold artificialCost
    cases ho : s.options.artificialCost with
    | some c =>
      simp only [ho, pure_bind] at h
      exact ⟨c, rfl, h⟩
    | none =>
      simp only [ho] at h
      exact run_checked_bind_eq_ok_iff.1 h
  obtain ⟨c, hc, h⟩ := hc
  obtain ⟨g, hg, h⟩ := run_checked_bind_eq_ok_iff.1 h
  rw [run_set_bind] at h
  obtain ⟨k, all, hu, rfl, rfl⟩ := run_updatePotentials_eq_ok_iff.1 h
  exact .restored hs hc hg hu

/-- For each artificial arc, whether it is in the tree and whether it costs more than the tolerance. -/
def artificialLoads (s : Simplex F) : Checked (List (Bool × Bool)) :=
  s.solution.artificialArcs.mapM fun a => do
    return (a.inTree, Amount.lt s.options.zero (← Amount.mul a.cost a.flow))

theorem run_load {zero : F} {a : Arc F} : s.run (do
      let load ← Amount.mul a.cost a.flow
      return (a.inTree, Amount.lt zero load) : SolverM F (Bool × Bool)) = s.run (liftM (do
      let load ← Amount.mul a.cost a.flow
      return (a.inTree, Amount.lt zero load) : Checked (Bool × Bool))) := by
  rw [run_bind, run_checked, run_checked]
  cases Amount.mul a.cost a.flow <;> rfl

/-- The ways in which the check between the phases can end. -/
inductive CheckRun (s : Simplex F) : Except SolveError SolutionState → Prop
  | noTree (hs : s.phase = .setup) : CheckRun s (.error .noSpanningTree)
  | infeasible {arcs} (hs : s.phase ≠ .setup) (ha : s.artificialLoads = .ok arcs)
      (hc : 0 < arcs.countP fun (_, carries) => carries) :
      CheckRun s (.error (.infeasible (arcs.countP fun (_, carries) => carries)))
  | feasible {arcs state} (hs : s.phase ≠ .setup) (ha : s.artificialLoads = .ok arcs)
      (hc : arcs.countP (fun (_, carries) => carries) = 0)
      (hr : state = if arcs.countP (fun (inTree, carries) => inTree && !carries) > 0 then SolutionState.degenerate
        else .optimal) : CheckRun s (.ok state)

/-- The check leaves the state as it is. -/
theorem checkRun_of_run {r : Except SolveError SolutionState} (h : s.run checkStart = .ok (r, s')) :
    CheckRun s r ∧ s' = s := by
  unfold checkStart at h
  rw [run_requireTree_bind_eq_ok_iff] at h
  rcases h with ⟨hs, rfl, rfl⟩ | ⟨hs, h⟩
  · exact ⟨.noTree hs, rfl⟩
  rw [run_get_bind, run_mapM_bind fun a t => run_load, Checked.bind_eq_ok_iff] at h
  obtain ⟨arcs, ha, h⟩ := h
  by_cases hc : 0 < arcs.countP fun (_, carries) => carries
  · simp only [hc, gt_iff_lt, if_true] at h
    rcases run_bind_eq_ok_iff.1 h with ⟨_, _, ht, _⟩ | ⟨e, ht, rfl⟩
    · cases (run_throw_eq_ok_iff.1 ht).1
    · obtain ⟨he, rfl⟩ := run_throw_eq_ok_iff.1 ht
      cases he
      exact ⟨.infeasible hs ha hc, rfl⟩
  · simp only [hc, gt_iff_lt, if_false] at h
    obtain ⟨rfl, rfl⟩ := run_pure_eq_ok_iff.1 h
    exact ⟨.feasible hs ha (Nat.eq_zero_of_not_pos hc) rfl, rfl⟩

/-- Outside the setup the check ends if the costs on artificial arcs can be computed. -/
theorem exists_run_checkStart {arcs : List (Bool × Bool)} (hs : s.phase ≠ .setup)
    (ha : s.artificialLoads = .ok arcs) : ∃ r, s.run checkStart = .ok (r, s) := by
  unfold checkStart
  simp only [run_requireTree_bind_eq_ok_iff, run_get_bind, run_mapM_bind fun a t => run_load, Checked.bind_eq_ok_iff]
  by_cases hc : 0 < arcs.countP fun (_, carries) => carries
  · refine ⟨.error (.infeasible (arcs.countP fun (_, carries) => carries)), .inr ⟨hs, arcs, ha, ?_⟩⟩
    simp only [hc, if_true]
    exact run_bind_eq_ok_iff.2 (.inr ⟨_, run_throw _ _, rfl⟩)
  · refine ⟨.ok (if arcs.countP (fun (inTree, carries) => inTree && !carries) > 0 then .degenerate else .optimal),
      .inr ⟨hs, arcs, ha, ?_⟩⟩
    simp only [hc, if_false]
    exact run_pure _ _

end Transportation.Simplex
