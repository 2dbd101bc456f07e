import Transportation.Proofs.Checked
import Transportation.Proofs.Simplex.Reachable
/-!
# What the parts compute

Operations are made of few parts. Each part, run on a state, is a computation on the tree and the working copy, and
the state that follows is written down here once. Two runs are compared part by part over these equations.
-/

namespace Transportation.Simplex

variable {F : Type} {α β : Type} (s : Simplex F)

theorem run_requireTree_bind (f : Unit → SolverM F β) :
    s.run (requireTree >>= f) = if s.phase = .setup then .ok (.error .noSpanningTree, s) else s.run (f ()) := by
  rw [run_bind, run_requireTree]
  split <;> rfl

/-! ## Parts of a pivot -/

theorem run_enter (a : ArcId) : s.run (enter a) =
    (s.tree.insert s.solution a).map fun (tree, solution) => (.ok (), { s with tree, solution }) := by
  unfold enter
  rw [run_get_bind, run_checked_bind]
  cases s.tree.insert s.solution a <;> rfl

theorem run_leave (a : ArcId) : s.run (leave a) =
    (s.tree.remove s.solution a).map fun (tree, solution) => (.ok (), { s with tree, solution }) := by
  unfold leave
  rw [run_get_bind, run_checked_bind]
  cases s.tree.remove s.solution a <;> rfl

variable [Amount F]

theorem run_findEntering : s.run findEntering =
    s.price.map fun (c, cursor) => (.ok c, { s with cursor }) := by
  unfold findEntering
  rw [run_get_bind, run_checked_bind]
  cases s.price <;> rfl

theorem run_exchange (cycle : List Step) (delta : F) (a : ArcId) : s.run (exchange cycle delta a) =
    (s.solution.push delta cycle >>= (s.tree.remove · a)).map fun (tree, solution) =>
      (.ok (), { s with tree, solution, pivots := s.pivots + 1 }) := by
  unfold exchange
  rw [run_get_bind, run_checked_bind]
  cases s.solution.push delta cycle with
  | error => rfl
  | ok g =>
    simp only [Checked.ok_bind]
    rw [run_set_bind, run_bind, run_leave]
    cases s.tree.remove g a <;> rfl

theorem run_updatePotentials : s.run updatePotentials =
    (s.tree.computePotentials s.solution s.root).map fun (solution, all) =>
      (if all then .ok () else .error .noSpanningTree, { s with solution }) := by
  unfold updatePotentials
  rw [run_get_bind, run_checked_bind]
  cases s.tree.computePotentials s.solution s.root with
  | error => rfl
  | ok p =>
    obtain ⟨g, all⟩ := p
    cases all <;> rfl

/-! ## The check between the phases -/

/-- What the check says of artificial arcs, given whether each is in the tree and whether it carries anything. -/
def verdict (arcs : List (Bool × Bool)) : Except SolveError SolutionState :=
  if arcs.countP (fun (_, carries) => carries) > 0 then
    .error (.infeasible (arcs.countP fun (_, carries) => carries))
  else if arcs.countP (fun (inTree, carries) => inTree && !carries) > 0 then .ok .degenerate
  else .ok .optimal

theorem run_checkStart : s.run checkStart = if s.phase = .setup then .ok (.error .noSpanningTree, s) else
    s.artificialLoads.map fun arcs => (verdict arcs, s) := by
  unfold checkStart
  rw [run_requireTree_bind, run_get_bind, run_mapM_bind fun a t => run_load]
  split
  · rfl
  show s.artificialLoads >>= _ = _
  cases s.artificialLoads with
  | error => rfl
  | ok arcs =>
    simp only [Checked.ok_bind, Except.map, verdict]
    split
    · rfl
    · split <;> rfl

/-! ## The beginning of a phase -/

/-- The state in which the first phase begins, before there are potentials. -/
def begun (g : Network F) (t : Incidence) : Simplex F :=
  { s with
    solution := g
    tree := t
    root := g.firstSupplier
    phase := .initial
    cursor := 0
    blockSize := blockSizeFor g.numArcs }

/-- The first phase begins with the star `g`. -/
def startWith (g : Network F) : Checked (Except SolveError Unit × Simplex F) :=
  Incidence.ofNetwork g >>= fun t => (s.begun g t).run updatePotentials

theorem run_start : s.run start = s.input.isBalancedWithin s.options.zero >>= fun
    | false => .ok (.error .unbalanced, s)
    | true => s.input.star >>= s.startWith := by
  unfold start
  rw [run_get_bind, run_checked_bind]
  congr 1
  funext balanced
  cases balanced with
  | false => rfl
  | true =>
    show s.run (liftM s.input.star >>= _) = _
    rw [run_checked_bind]
    congr 1
    funext g
    rw [run_checked_bind]
    rfl

theorem run_restoreCosts : s.run restoreCosts = if s.phase = .setup then .ok (.error .noSpanningTree, s) else
    s.artificialCost >>= fun c => s.input.restore c s.solution >>= fun g =>
      run { s with solution := g, phase := .optimal } updatePotentials := by
  unfold restoreCosts
  rw [run_requireTree_bind, run_get_bind]
  unfold artificialCost
  split
  · rfl
  cases s.options.artificialCost with
  | some c => exact run_checked_bind
  | none =>
    rw [run_checked_bind]
    congr 1
    funext c
    exact run_checked_bind

/-! ## Both phases -/

variable {s} {s' : Simplex F}

omit [Amount F] in
/-- A sequence has a result if both its parts have. -/
theorem run_bind_eq_ok_ok_iff {op : SolverM F α} {f : α → SolverM F β} {b : β} :
    s.run (op >>= f) = .ok (.ok b, s') ↔ ∃ a t, s.run op = .ok (.ok a, t) ∧ t.run (f a) = .ok (.ok b, s') := by
  rw [run_bind_eq_ok_iff, or_iff_left]
  rintro ⟨e, -, h⟩
  cases h

/-- The instance is solved if no part of the computation fails and no artificial arc carries flow in the end. -/
theorem run_solve_eq_ok_iff {state : SolutionState} : s.run solve = .ok (.ok state, s') ↔
    ∃ s₁ s₂ s₃ s₄ k k', s.renewed.run start = .ok (.ok (), s₁) ∧ s₁.run optimize = .ok (.ok k, s₂) ∧
      s₂.run checkStart = .ok (.ok state, s₂) ∧ s₂.run restoreCosts = .ok (.ok (), s₃) ∧
      s₃.run optimize = .ok (.ok k', s₄) ∧ s₄.numCarryingArtificialArcs = 0 ∧ s' = { s₄ with state } := by
  unfold solve
  rw [run_modify_bind]
  constructor
  · intro h
    obtain ⟨_, s₁, h₁, h⟩ := run_bind_eq_ok_ok_iff.1 h
    obtain ⟨k, s₂, h₂, h⟩ := run_bind_eq_ok_ok_iff.1 h
    obtain ⟨state', t, hc, h⟩ := run_bind_eq_ok_ok_iff.1 h
    obtain ⟨_, s₃, h₃, h⟩ := run_bind_eq_ok_ok_iff.1 h
    obtain ⟨k', s₄, h₄, h⟩ := run_bind_eq_ok_ok_iff.1 h
    rw [run_get_bind] at h
    by_cases hn : 0 < s₄.numCarryingArtificialArcs
    · simp only [hn, if_true] at h
      obtain ⟨_, _, ht, -⟩ := run_bind_eq_ok_ok_iff.1 h
      cases (run_throw_eq_ok_iff.1 ht).1
    · simp only [hn, if_false] at h
      rw [run_modify_bind, run_pure_eq_ok_iff] at h
      obtain ⟨hstate, rfl⟩ := h
      cases hstate
      obtain rfl := (checkRun_of_run hc).2
      exact ⟨s₁, t, s₃, s₄, k, k', h₁, h₂, hc, h₃, h₄, Nat.eq_zero_of_not_pos hn, rfl⟩
  · rintro ⟨s₁, s₂, s₃, s₄, k, k', h₁, h₂, hc, h₃, h₄, hn, rfl⟩
    refine run_bind_eq_ok_ok_iff.2 ⟨_, s₁, h₁, run_bind_eq_ok_ok_iff.2 ⟨k, s₂, h₂, run_bind_eq_ok_ok_iff.2
      ⟨state, s₂, hc, run_bind_eq_ok_ok_iff.2 ⟨_, s₃, h₃, run_bind_eq_ok_ok_iff.2 ⟨k', s₄, h₄, ?_⟩⟩⟩⟩⟩
    rw [run_get_bind]
    simp only [hn, gt_iff_lt, Nat.lt_irrefl, if_false]
    exact run_modify_bind

end Transportation.Simplex
