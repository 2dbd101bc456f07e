import Transportation.Network.Flow
import Transportation.Tree.Incidence

/-!
# The state of the network simplex

The solver keeps the input network as it was given and works on a copy, whose arcs carry the current flow and the
current tree. It runs in two phases: the first drives the flow off the artificial arcs, the second minimises the
cost of the instance. An operation that ends with a `SolveError` leaves a state to go on from.
-/

namespace Transportation

/-- Which arc enters the tree. -/
inductive Pricing where
  /-- The arc of least reduced cost. -/
  | complete
  /-- The first arc of negative reduced cost, from where the last search ended. -/
  | roundRobin
  /-- The arc of least reduced cost in the first block of arcs that has a candidate. -/
  | block
  deriving DecidableEq, Repr

inductive Phase where
  /-- There is no tree yet. -/
  | setup
  /-- The flow on artificial arcs is minimised. -/
  | initial
  /-- The cost of the instance is minimised. -/
  | optimal
  deriving DecidableEq, Repr

/-- What is known of the solution. -/
inductive SolutionState where
  | unknown
  | optimal
  /-- Artificial arcs without flow were left in the tree after the first phase. -/
  | degenerate
  deriving DecidableEq, Repr

inductive SolveError where
  | unbalanced
  | infeasible (artificial : Nat)
  | unbounded
  | iterationLimit (limit : Nat)
  | noSpanningTree
  deriving DecidableEq, Repr

def SolveError.message : SolveError → String
  | unbalanced => "the vertex weights do not sum to zero"
  | infeasible artificial => s!"the problem is infeasible ({artificial} artificial arcs carry flow)"
  | unbounded => "the problem is unbounded"
  | iterationLimit limit => s!"iteration limit of {limit} pivots exceeded"
  | noSpanningTree => "the tree arcs do not form a spanning tree"

structure Options (F : Type) where
  pricing : Pricing
  /-- Amounts at most this far from zero count as zero. -/
  zero : F
  /-- The cost of artificial arcs in the second phase, if it is not to be chosen from the instance. -/
  artificialCost : Option F
  /-- The largest number of pivots in a phase, if it is not to be chosen from the instance. -/
  maxPivots : Option Nat
  deriving DecidableEq, Repr

def Options.default {F : Type} [Amount F] : Options F :=
  ⟨.complete, Amount.zero, none, none⟩

structure Simplex (F : Type) where
  input : Network F
  /-- The working copy. -/
  solution : Network F
  tree : Incidence
  /-- The vertex of potential zero. -/
  root : VertexId
  phase : Phase
  /-- The position at which the next search for an entering arc starts. -/
  cursor : Nat
  blockSize : Nat
  /-- The number of pivots of the latest computation. -/
  pivots : Nat
  state : SolutionState
  options : Options F
  deriving DecidableEq, Repr

/-- An operation of the solver. -/
abbrev SolverM (F : Type) := ExceptT SolveError (StateT (Simplex F) Checked)

namespace Simplex

variable {F : Type}

def new [Amount F] (g : Network F) : Simplex F where
  input := g
  solution := g
  tree := .empty
  root := ⟨0⟩
  phase := .setup
  cursor := 0
  blockSize := 10
  pivots := 0
  state := .unknown
  options := .default

/-- The outcome of an operation and the state that it leaves. -/
def run {α : Type} (s : Simplex F) (op : SolverM F α) : Checked (Except SolveError α × Simplex F) :=
  (ExceptT.run op).run s

/-- Fails while there is no tree. -/
def requireTree : SolverM F Unit := do
  if (← get).phase = .setup then throw .noSpanningTree

/-! ## Runs of composed operations -/

variable {α β : Type} (s : Simplex F)

theorem run_pure (a : α) : s.run (pure a) = .ok (.ok a, s) := rfl

theorem run_throw (e : SolveError) : s.run (throw e : SolverM F α) = .ok (.error e, s) := rfl

theorem run_get : s.run get = .ok (.ok s, s) := rfl

theorem run_set (t : Simplex F) : s.run (set t) = .ok (.ok (), t) := rfl

theorem run_modify (f : Simplex F → Simplex F) : s.run (modify f) = .ok (.ok (), f s) := rfl

theorem run_checked (x : Checked α) : s.run (liftM x) = x.map fun a => (.ok a, s) := by
  cases x <;> rfl

theorem run_bind (op : SolverM F α) (f : α → SolverM F β) :
    s.run (op >>= f) = s.run op >>= fun
      | (.ok a, t) => t.run (f a)
      | (.error e, t) => .ok (.error e, t) := by
  show Except.bind (op.run.run s) (fun (r, t) => (ExceptT.bindCont f r).run t) = Except.bind (op.run.run s) _
  congr 1
  funext ⟨r, t⟩
  cases r <;> rfl

theorem run_requireTree :
    s.run requireTree = .ok (if s.phase = .setup then .error .noSpanningTree else .ok (), s) := by
  rw [requireTree, run_bind, run_get]
  show s.run (if s.phase = .setup then throw .noSpanningTree else pure ()) = _
  split <;> rfl

end Simplex

end Transportation
