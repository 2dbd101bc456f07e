/-!
# Faults

A fault ends a computation for good. Arithmetic faults when a result does not fit the number type, a look-up
faults past the end of its array, and an operation faults when the network it is given breaks one of its
conditions. Unlike a solver error, a fault leaves no state behind.
-/

namespace Transportation

/-- A step of arithmetic. -/
inductive Operation where
  | add
  | sub
  | mul
  | div
  | neg
  deriving DecidableEq, Repr

/-- The cause of a fault. Vertices and arcs are named by their numbers. -/
inductive Fault where
  | overflow (op : Operation)
  | divisionByZero
  | outOfBounds (size index : Nat)
  | vertexCapacity
  | arcCapacity
  | unknownEndVertex (src snk : Nat)
  | loop
  | invalidVertexId
  | invalidArcId
  | arcIdOutOfRange (id size : Nat)
  | notIncident (vertex arc : Nat)
  | alreadyTreeArc (arc : Nat)
  | notTreeArc (arc : Nat)
  deriving DecidableEq, Repr

namespace Operation

def verb : Operation → String
  | add => "add"
  | sub => "subtract"
  | mul => "multiply"
  | div => "divide"
  | neg => "negate"

end Operation

namespace Fault

def message : Fault → String
  | overflow op => s!"attempt to {op.verb} with overflow"
  | divisionByZero => "attempt to divide by zero"
  | outOfBounds size index => s!"index out of bounds: the len is {size} but the index is {index}"
  | vertexCapacity => "Vertex capacity exceeded"
  | arcCapacity => "Arc capacity exceeded"
  | unknownEndVertex src snk => s!"Unknown end vertex of arc ({src},{snk})"
  | loop => "Loops are not allowed"
  | invalidVertexId => "Invalid vertex id"
  | invalidArcId => "Invalid arc id"
  | arcIdOutOfRange id size => s!"Invalid arc id: {id}, must be in 0..{size}"
  | notIncident vertex arc => s!"Vertex {vertex} not incident to arc {arc}"
  | alreadyTreeArc arc => s!"Arc {arc} is already a tree arc"
  | notTreeArc arc => s!"Arc {arc} is not a tree arc"

end Fault

/-- A computation that may fault. -/
abbrev Checked := Except Fault

namespace Checked

variable {α : Type}

/-- Goes on only if `p` holds. -/
def require (p : Prop) [Decidable p] (fault : Fault) : Checked Unit :=
  if p then pure () else throw fault

/-- The entry at `i`. -/
def get (xs : Array α) (i : Nat) : Checked α :=
  if h : i < xs.size then pure xs[i] else throw (.outOfBounds xs.size i)

/-- Applies `f` to the entry at `i`. -/
def modify (xs : Array α) (i : Nat) (f : α → α) : Checked (Array α) :=
  if i < xs.size then pure (xs.modify i f) else throw (.outOfBounds xs.size i)

/-! ## Success -/

theorem pure_eq_ok_iff {x y : α} : (pure x : Checked α) = .ok y ↔ x = y := by
  simp [pure, Except.pure]

theorem throw_ne_ok {fault : Fault} {x : α} : (throw fault : Checked α) ≠ .ok x := by
  simp [throw, throwThe, MonadExceptOf.throw]

/-- A sequence succeeds exactly if its steps do. -/
theorem bind_eq_ok_iff {β : Type} {x : Checked α} {f : α → Checked β} {y : β} :
    (x >>= f) = .ok y ↔ ∃ a, x = .ok a ∧ f a = .ok y := by
  cases x <;> simp [bind, Except.bind]

theorem require_eq_ok_iff {p : Prop} [Decidable p] {fault : Fault} : require p fault = .ok () ↔ p := by
  unfold require
  split <;> simp_all [pure, Except.pure, throw, throwThe, MonadExceptOf.throw]

theorem require_bind_eq_ok_iff {p : Prop} [Decidable p] {fault : Fault} {f : Unit → Checked α} {y : α} :
    (require p fault >>= f) = .ok y ↔ p ∧ f () = .ok y := by
  unfold require
  split <;> simp_all [bind, Except.bind, pure, Except.pure, throw, throwThe, MonadExceptOf.throw]

theorem get_eq_ok_iff {xs : Array α} {i : Nat} {x : α} : get xs i = .ok x ↔ xs[i]? = some x := by
  unfold get
  split
  · next h => simp [pure, Except.pure, Array.getElem?_eq_getElem h]
  · next h => simp [throw, throwThe, MonadExceptOf.throw, Array.getElem?_eq_none (Nat.le_of_not_lt h)]

theorem modify_eq_ok_iff {xs ys : Array α} {i : Nat} {f : α → α} :
    modify xs i f = .ok ys ↔ i < xs.size ∧ xs.modify i f = ys := by
  unfold modify
  split
  · next h => simp [h, pure, Except.pure]
  · next h => simp [h, throw, throwThe, MonadExceptOf.throw]

end Checked

end Transportation
