import Transportation.Network.Builder

/-!
# Families of networks
-/

namespace Transportation.Network

variable {F : Type} [Amount F]

/-- Suppliers with the given supplies, customers with the given demands, and an arc of cost `cost i j` from each
supplier `i` to each customer `j`, row by row. -/
def completeBipartite (supplies demands : List F) (cost : Nat → Nat → F) : Checked (Network F) := do
  let n := supplies.length
  let links := (List.range n).flatMap fun i =>
    (List.range demands.length).map fun j => Link.mk ⟨i⟩ ⟨n + j⟩ (cost i j)
  Builder.build ((← supplies.mapM Amount.neg) ++ demands) links

/-- The weights of a path of `n + 1` vertices that moves `amount` from its first vertex to its last. -/
def chainWeights (amount : F) : Nat → Checked (List F)
  | 0 => pure [Amount.zero]
  | n + 1 => do return (← Amount.neg amount) :: (List.replicate n Amount.zero ++ [amount])

/-- A path with one arc for each cost, from its first vertex, which supplies `amount`, to its last, which demands
it. A path without arcs moves nothing. -/
def chain (amount : F) (costs : List F) : Checked (Network F) := do
  let links := costs.zipIdx.map fun (c, i) => Link.mk ⟨i⟩ ⟨i + 1⟩ c
  Builder.build (← chainWeights amount costs.length) links

/-- Two factories that produce 550 and 350 cars, and three cities that order 400, 300 and 200, over a number type
that has these amounts. The least cost is 3700. -/
def carDistribution (amount : Nat → F) : Checked (Network F) :=
  completeBipartite [amount 550, amount 350] [amount 400, amount 300, amount 200] fun i j =>
    amount (([[5, 6, 3], [3, 5, 4]].getD i []).getD j 0)

end Transportation.Network
