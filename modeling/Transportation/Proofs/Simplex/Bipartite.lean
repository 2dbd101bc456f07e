import Mathlib.Algebra.Order.Ring.Rat
import Transportation.Proofs.Network.Families
import Transportation.Proofs.Simplex.Solvable
/-!
# Complete bipartite instances are solved

If every supplier sends to each customer its share of the total demand, all weights are met
(`Bipartite.feasible_share`), whatever supplies and demands are zero. No arc leads away from a customer, so there is no
directed cycle (`Bipartite.not_directedCycle`). Hence a solver finds a solution unless it reaches its limit on pivots
(`solve_completeBipartite`).
-/

namespace Transportation

/-! ## The links -/

section
variable {F : Type} {n m : Nat} {cost : Nat → Nat → F} {l : Link F}

/-- The links from `n` suppliers to `m` customers, row by row. -/
def bipartiteLinks (n m : Nat) (cost : Nat → Nat → F) : List (Link F) :=
  (List.range n).flatMap fun i => (List.range m).map fun j => ⟨⟨i⟩, ⟨n + j⟩, cost i j⟩

theorem mem_bipartiteLinks : l ∈ bipartiteLinks n m cost ↔ ∃ i < n, ∃ j < m, l = ⟨⟨i⟩, ⟨n + j⟩, cost i j⟩ := by
  simp [bipartiteLinks, eq_comm]

theorem length_bipartiteLinks : (bipartiteLinks n m cost).length = n * m := by
  simp [bipartiteLinks]

theorem joins_bipartiteLinks (h : l ∈ bipartiteLinks n m cost) : l.Joins (n + m) := by
  obtain ⟨i, hi, j, hj, rfl⟩ := mem_bipartiteLinks.1 h
  refine ⟨?_, ?_, fun he => ?_⟩
  · show i < n + m
    omega
  · show n + j < n + m
    omega
  · have he : i = n + j := congrArg VertexId.index he
    omega

theorem sum_bipartiteLinks {R : Type} [AddCommMonoid R] (f : Link F → R) :
    ((bipartiteLinks n m cost).map f).sum =
      ∑ i ∈ Finset.range n, ∑ j ∈ Finset.range m, f ⟨⟨i⟩, ⟨n + j⟩, cost i j⟩ := by
  simp only [bipartiteLinks, List.flatMap_def, List.map_flatten, List.sum_flatten, List.map_map, Function.comp_def,
    sum_map_range]

end

/-! ## Shares of the demand -/

theorem sum_range_getD (l : List Int) : ∑ i ∈ Finset.range l.length, l.getD i 0 = l.sum := by
  rw [Finset.sum_range, ← Fin.sum_univ_getElem]
  refine Finset.sum_congr rfl fun i _ => ?_
  simp

/-- Shares of `x` add up to it. -/
theorem sum_mul_div {d : Nat → Rat} {m : Nat} {x : Rat} (h : ∑ j ∈ Finset.range m, d j = 0 → x = 0) :
    ∑ j ∈ Finset.range m, x * d j / ∑ j ∈ Finset.range m, d j = x := by
  rw [← Finset.sum_div, ← Finset.mul_sum]
  by_cases hd : ∑ j ∈ Finset.range m, d j = 0
  · rw [h hd, zero_mul, zero_div]
  · exact mul_div_cancel_right₀ x hd

/-! ## Supplies and demands -/

variable {max : Nat}

/-- Supplies and demands are not negative and add up to the same sum, which the number type holds. -/
structure Balances (supplies demands : List (Signed max)) : Prop where
  supply : ∀ s ∈ supplies, 0 ≤ s.val
  demand : ∀ d ∈ demands, 0 ≤ d.val
  sum_eq : (supplies.map Signed.val).sum = (demands.map Signed.val).sum
  sum_le : (demands.map Signed.val).sum ≤ max

/-- The amount at position `i` of a list, or nothing. -/
def amountAt (l : List (Signed max)) (i : Nat) : Int :=
  (l.map Signed.val).getD i 0

theorem sum_amountAt (l : List (Signed max)) : ∑ i ∈ Finset.range l.length, amountAt l i = (l.map Signed.val).sum := by
  have h := sum_range_getD (l.map Signed.val)
  rwa [List.length_map] at h

theorem amountAt_nonneg {l : List (Signed max)} (hl : ∀ s ∈ l, 0 ≤ s.val) (i : Nat) : 0 ≤ amountAt l i := by
  unfold amountAt
  rw [List.getD_eq_getElem?_getD, List.getElem?_map]
  cases h : l[i]? with
  | none => simp
  | some s => simpa using hl s (List.mem_of_getElem? h)

/-- An amount of a list that adds up to nothing is nothing. -/
theorem amountAt_eq_zero {l : List (Signed max)} (hl : ∀ s ∈ l, 0 ≤ s.val) (hsum : (l.map Signed.val).sum = 0) {i : Nat}
    (hi : i < l.length) : amountAt l i = 0 := by
  rw [← sum_amountAt] at hsum
  exact (Finset.sum_eq_zero_iff_of_nonneg fun i _ => amountAt_nonneg hl i).1 hsum i (Finset.mem_range.2 hi)

variable {supplies demands : List (Signed max)} {cost : Nat → Nat → Signed max}

/-- What supplier `i` sends to customer `j` when all customers get the same share of every supply. -/
def share (supplies demands : List (Signed max)) (i j : Nat) : Rat :=
  amountAt supplies i * amountAt demands j / ∑ j ∈ Finset.range demands.length, (amountAt demands j : Rat)

namespace Balances

theorem sum_cast_eq (h : Balances supplies demands) :
    ∑ i ∈ Finset.range supplies.length, (amountAt supplies i : Rat) =
      ∑ j ∈ Finset.range demands.length, (amountAt demands j : Rat) := by
  rw [← Int.cast_sum, ← Int.cast_sum, sum_amountAt, sum_amountAt, h.sum_eq]

theorem share_nonneg (h : Balances supplies demands) (i j : Nat) : 0 ≤ share supplies demands i j := by
  have hs : (0 : Rat) ≤ amountAt supplies i := by exact_mod_cast amountAt_nonneg h.supply i
  have hd : ∀ j, (0 : Rat) ≤ amountAt demands j := fun j => by exact_mod_cast amountAt_nonneg h.demand j
  exact div_nonneg (mul_nonneg hs (hd j)) (Finset.sum_nonneg fun j _ => hd j)

/-- A supplier sends what it supplies. -/
theorem sum_share_supplier (h : Balances supplies demands) {i : Nat} (hi : i < supplies.length) :
    ∑ j ∈ Finset.range demands.length, share supplies demands i j = amountAt supplies i := by
  refine sum_mul_div fun hzero => ?_
  have hsum : (supplies.map Signed.val).sum = 0 := by
    rw [h.sum_eq, ← sum_amountAt]
    exact_mod_cast hzero
  exact_mod_cast amountAt_eq_zero h.supply hsum hi

/-- A customer gets what it demands. -/
theorem sum_share_customer (h : Balances supplies demands) {j : Nat} (hj : j < demands.length) :
    ∑ i ∈ Finset.range supplies.length, share supplies demands i j = amountAt demands j := by
  unfold share
  simp only [mul_comm (amountAt supplies _ : Rat), ← h.sum_cast_eq]
  refine sum_mul_div fun hzero => ?_
  have hsum : (demands.map Signed.val).sum = 0 := by
    rw [← h.sum_eq, ← sum_amountAt]
    exact_mod_cast hzero
  exact_mod_cast amountAt_eq_zero h.demand hsum hj

end Balances

/-! ## The network -/

variable [NeZero max]

/-- The weights of suppliers, which do not overflow. -/
theorem exists_neg_supplies (h : ∀ s ∈ supplies, 0 ≤ s.val) :
    ∃ ws, supplies.mapM Amount.neg = .ok ws ∧ ws.map Signed.val = supplies.map fun s => -s.val := by
  induction supplies with
  | nil => exact ⟨[], rfl, rfl⟩
  | cons s supplies ih =>
    obtain ⟨hs, hsupplies⟩ := List.forall_mem_cons.1 h
    obtain ⟨w, hw⟩ := Checked.FaultsOnly.exists_ok (Signed.faultsOnly_neg (a := s) (by omega))
    obtain ⟨ws, hws, hvals⟩ := ih hsupplies
    refine ⟨w :: ws, ?_, ?_⟩
    · rw [List.mapM_cons, hw, hws]
      rfl
    · rw [List.map_cons, List.map_cons, hvals, Signed.neg_eq_ok_iff.1 hw]

/-- A complete bipartite network, given by its suppliers and customers, and what it is built from. -/
structure Bipartite (supplies demands : List (Signed max)) (cost : Nat → Nat → Signed max) (b : Builder (Signed max)) :
    Prop where
  balances : Balances supplies demands
  weights : b.weights.toList.map Signed.val = (supplies.map fun s => -s.val) ++ demands.map Signed.val
  links : b.links.toList = bipartiteLinks supplies.length demands.length cost

theorem exists_bipartite (h : Balances supplies demands)
    (hids : supplies.length * demands.length + (supplies.length + demands.length) < idLimit) :
    ∃ b : Builder (Signed max), Network.completeBipartite supplies demands cost = .ok b.network ∧
      Bipartite supplies demands cost b := by
  obtain ⟨ws, hws, hvals⟩ := exists_neg_supplies h.supply
  have hlength : (ws ++ demands).length = supplies.length + demands.length := by
    have hlength := congrArg List.length hvals
    rw [List.length_map, List.length_map] at hlength
    rw [List.length_append, hlength]
  have hjoins : ∀ l ∈ bipartiteLinks supplies.length demands.length cost, l.Joins (ws ++ demands).length := by
    intro l hl
    rw [hlength]
    exact joins_bipartiteLinks hl
  refine ⟨.ofLists (ws ++ demands) (bipartiteLinks supplies.length demands.length cost) hjoins, ?_, h, ?_, rfl⟩
  · unfold Network.completeBipartite
    rw [hws, Checked.ok_bind]
    show Builder.build (ws ++ demands) (bipartiteLinks supplies.length demands.length cost) = _
    rw [Builder.build_eq hjoins, hlength, length_bipartiteLinks, if_pos (.inr (by omega)), if_pos (.inr (by omega))]
  · rw [← hvals, ← List.map_append]
    rfl

namespace Bipartite

variable {b : Builder (Signed max)}

omit [NeZero max] in
theorem numVertices_eq (h : Bipartite supplies demands cost b) :
    b.numVertices = supplies.length + demands.length := by
  have hlength := congrArg List.length h.weights
  simpa [Builder.numVertices] using hlength

omit [NeZero max] in
theorem numArcs_eq (h : Bipartite supplies demands cost b) : b.numArcs = supplies.length * demands.length := by
  have hlength := congrArg List.length h.links
  rw [length_bipartiteLinks] at hlength
  exact hlength

/-- The shares are a feasible flow. -/
theorem feasible_share (h : Bipartite supplies demands cost b) :
    b.network.Feasible (b.flowOf fun l => share supplies demands l.src.index (l.snk.index - supplies.length)) := by
  refine b.feasible_flowOf (fun l _ => h.balances.share_nonneg _ _) fun v hv => ?_
  rw [h.numVertices_eq] at hv
  rw [h.links, sum_bipartiteLinks, h.weights]
  simp only [Nat.add_sub_cancel_left, Finset.sum_sub_distrib]
  by_cases hsupplier : v < supplies.length
  · have hin : ∑ i ∈ Finset.range supplies.length, ∑ j ∈ Finset.range demands.length,
        (if supplies.length + j = v then share supplies demands i j else 0) = 0 := by
      refine Finset.sum_eq_zero fun i _ => Finset.sum_eq_zero fun j _ => if_neg ?_
      omega
    have hout : ∑ i ∈ Finset.range supplies.length, ∑ j ∈ Finset.range demands.length,
        (if i = v then share supplies demands i j else 0) = amountAt supplies v := by
      rw [Finset.sum_eq_single v, ← h.balances.sum_share_supplier hsupplier]
      · simp
      · intro i _ hi
        simp [hi]
      · simp [hsupplier]
    have hweight : ((supplies.map fun s => -s.val) ++ demands.map Signed.val)[v]?.getD 0 = -amountAt supplies v := by
      rw [List.getElem?_append_left (by simpa using hsupplier)]
      simp [amountAt, hsupplier]
    rw [hin, hout, hweight, Int.cast_neg, zero_sub]
  · obtain ⟨j, rfl⟩ := Nat.exists_eq_add_of_le (Nat.le_of_not_lt hsupplier)
    have hj : j < demands.length := by omega
    have hin : ∑ i ∈ Finset.range supplies.length, ∑ k ∈ Finset.range demands.length,
        (if supplies.length + k = supplies.length + j then share supplies demands i k else 0) = amountAt demands j := by
      rw [← h.balances.sum_share_customer hj]
      refine Finset.sum_congr rfl fun i _ => ?_
      simp [hj]
    have hout : ∑ i ∈ Finset.range supplies.length, ∑ k ∈ Finset.range demands.length,
        (if i = supplies.length + j then share supplies demands i k else 0) = 0 := by
      refine Finset.sum_eq_zero fun i hi => Finset.sum_eq_zero fun k _ => if_neg ?_
      have := Finset.mem_range.1 hi
      omega
    have hweight : ((supplies.map fun s => -s.val) ++ demands.map Signed.val)[supplies.length + j]?.getD 0 =
        amountAt demands j := by
      simp [amountAt, List.getElem?_append_right]
    rw [hin, hout, hweight, sub_zero]

/-- Every arc leads from a supplier to a customer. -/
theorem ends_lt (h : Bipartite supplies demands cost b) {a : Arc (Signed max)}
    (ha : a ∈ b.network.arcs.toList) : a.src.index < supplies.length ∧ supplies.length ≤ a.snk.index ∧
      ∃ i < supplies.length, ∃ j < demands.length, a.cost = cost i j := by
  have hmem : Link.mk a.src a.snk a.cost ∈ b.links.toList := by
    rw [← Network.map_link_network]
    exact List.mem_map_of_mem ha
  rw [h.links] at hmem
  obtain ⟨i, hi, j, hj, hlink⟩ := mem_bipartiteLinks.1 hmem
  injection hlink with hsrc hsnk hcost
  refine ⟨?_, ?_, i, hi, j, hj, hcost⟩
  · rw [hsrc]
    exact hi
  · rw [hsnk]
    exact Nat.le_add_right _ _

/-- No arc leads on from where an arc has led. -/
theorem not_directedCycle (h : Bipartite supplies demands cost b) {l : List (Arc (Signed max))} :
    ¬ b.network.DirectedCycle l := by
  intro hl
  obtain ⟨u, hclosed⟩ := hl.closed
  have hends : ∀ x ∈ l, x.src.index < supplies.length ∧ supplies.length ≤ x.snk.index := by
    intro x hx
    have hx := h.ends_lt (List.mem_filter.1 (hl.real x hx)).1
    exact ⟨hx.1, hx.2.1⟩
  rcases l with _ | ⟨x, _ | ⟨y, l⟩⟩
  · exact hl.ne_nil rfl
  · obtain ⟨hsrc, hsnk⟩ : x.src = u ∧ x.snk = u := hclosed
    have := hends x List.mem_cons_self
    rw [hsrc, hsnk] at this
    omega
  · obtain ⟨-, hsrc, -⟩ := hclosed
    have hx := hends x (by simp)
    have hy := hends y (by simp)
    rw [hsrc] at hy
    omega

theorem maxAbsCost_le (h : Bipartite supplies demands cost b) {C : Nat}
    (hC : ∀ i < supplies.length, ∀ j < demands.length, (cost i j).val.natAbs ≤ C) : b.network.maxAbsCost ≤ C := by
  refine Network.maxAbsCost_le_iff.2 fun a ha => ?_
  obtain ⟨-, -, i, hi, j, hj, hcost⟩ := h.ends_lt ha
  rw [hcost]
  exact hC i hi j hj

theorem map_weight (h : Bipartite supplies demands cost b) : (b.network.vertices.toList.map fun v => v.weight.val) =
    (supplies.map fun s => -s.val) ++ demands.map Signed.val := by
  rw [← h.weights, ← Network.map_weight_network, List.map_map]
  rfl

theorem totalDemand_le (h : Bipartite supplies demands cost b) : b.network.totalDemand ≤ max := by
  have hnone : ((supplies.map fun s => -s.val).filter (0 ≤ ·)).sum = 0 := by
    refine List.sum_eq_zero fun x hx => ?_
    obtain ⟨hx, hnonneg⟩ := List.mem_filter.1 hx
    obtain ⟨s, hs, rfl⟩ := List.mem_map.1 hx
    have := h.balances.supply s hs
    have := of_decide_eq_true hnonneg
    omega
  have hall : (demands.map Signed.val).filter (0 ≤ ·) = demands.map Signed.val := by
    refine List.filter_eq_self.2 fun x hx => ?_
    obtain ⟨d, hd, rfl⟩ := List.mem_map.1 hx
    simpa using h.balances.demand d hd
  have hle := h.balances.sum_le
  unfold Network.totalDemand
  rw [h.map_weight, List.filter_append, List.sum_append, hall]
  omega

theorem totalSupply_le (h : Bipartite supplies demands cost b) : b.network.totalSupply ≤ max := by
  have hnone : (demands.map Signed.val).filter (· < 0) = [] := by
    refine List.filter_eq_nil_iff.2 fun x hx => ?_
    obtain ⟨d, hd, rfl⟩ := List.mem_map.1 hx
    simpa using h.balances.demand d hd
  have hall : (((supplies.map fun s => -s.val).filter (· < 0)).map fun w => |w|).sum ≤
      (supplies.map Signed.val).sum := by
    have hmap : (supplies.map Signed.val) = (supplies.map fun s => -s.val).map fun w => |w| := by
      rw [List.map_map]
      refine List.map_congr_left fun s hs => ?_
      simp [abs_of_nonneg (h.balances.supply s hs)]
    rw [hmap]
    refine (List.filter_sublist.map _).sum_le_sum fun x hx => ?_
    obtain ⟨w, -, rfl⟩ := List.mem_map.1 hx
    exact abs_nonneg w
  have hle := h.balances.sum_le
  have heq := h.balances.sum_eq
  unfold Network.totalSupply
  rw [h.map_weight, List.filter_append, hnone, List.append_nil]
  omega

end Bipartite

/-! ## Solving -/

/-- Instances in which every supplier can send to every customer are solved, unless the solver reaches its limit on
pivots, if supplies and demands balance and costs are moderate. There may be no suppliers, no customers, and any of them
may supply or demand nothing. What is solved has the suppliers, the customers and all links between them. -/
theorem Network.solve_completeBipartite (h : Balances supplies demands) {C : Nat}
    (hC : ∀ i < supplies.length, ∀ j < demands.length, (cost i j).val.natAbs ≤ C)
    (hcap : C < max / (supplies.length + demands.length + 1) / (supplies.length + demands.length))
    (hids : supplies.length * demands.length + (supplies.length + demands.length) < idLimit) :
    ∃ b, completeBipartite supplies demands cost = .ok b.network ∧ Bipartite supplies demands cost b ∧
      ∃ r, b.network.solve = .ok r ∧ ((∃ state solution, r = .ok (state, solution) ∧ solution.base = b.network.base) ∨
        ∃ limit, r = .error (.iterationLimit limit)) := by
  obtain ⟨b, hbuild, hb⟩ : ∃ b, completeBipartite supplies demands cost = .ok b.network ∧
      Bipartite supplies demands cost b := exists_bipartite h hids
  have hg := wellFormed_network b
  have hvertices : b.network.numVertices = supplies.length + demands.length := by
    rw [numVertices_network, hb.numVertices_eq]
  have hcost : b.network.maxAbsCost < max / (b.network.numVertices + 1) / b.network.numVertices := by
    rw [hvertices]
    exact (hb.maxAbsCost_le hC).trans_lt hcap
  have hroom : b.network.numArcs + b.network.numVertices ≤ idLimit := by
    rw [hvertices, numArcs_network, hb.numArcs_eq]
    omega
  obtain ⟨r, s', hrun, hr⟩ := Simplex.exists_run_solve_of_feasible (s := .new b.network) hg rfl rfl rfl hcost
    hb.totalDemand_le hb.totalSupply_le hroom hb.feasible_share fun l hl => absurd hl hb.not_directedCycle
  refine ⟨b, hbuild, hb, r.map fun state => (state, s'.solution), ?_, ?_⟩
  · unfold Network.solve
    rw [hrun]
    rfl
  · rcases hr with ⟨state, rfl⟩ | ⟨limit, rfl⟩
    · have hreach : Simplex.Reachable (fun _ => True) b.network s' := .solve .new hrun
      exact .inl ⟨state, s'.solution, rfl, (Simplex.sound_of_reachable hg hreach).base⟩
    · exact .inr ⟨limit, rfl⟩

/-- Among two suppliers one has nothing to supply. -/
theorem Network.solve_completeBipartite_idle :
    let supplies : List Signed8 := [.zero, .ofNat 3 (by decide)]
    let demands : List Signed8 := [.ofNat 2 (by decide), .one]
    let cost : Nat → Nat → Signed8 := fun i _ => if i = 0 then .one else .minusOne
    Balances supplies demands ∧
    (∀ i < supplies.length, ∀ j < demands.length, (cost i j).val.natAbs ≤ 1) ∧
    1 < 127 / (supplies.length + demands.length + 1) / (supplies.length + demands.length) ∧
    supplies.length * demands.length + (supplies.length + demands.length) < idLimit ∧
    ∃ b, completeBipartite supplies demands cost = .ok b.network ∧ Bipartite supplies demands cost b ∧
      ∃ r, b.network.solve = .ok r ∧ ((∃ state solution, r = .ok (state, solution) ∧ solution.base = b.network.base) ∨
        ∃ limit, r = .error (.iterationLimit limit)) := by
  intro supplies demands cost
  have h : Balances supplies demands := ⟨by decide, by decide, by decide, by decide⟩
  have hC : ∀ i < supplies.length, ∀ j < demands.length, (cost i j).val.natAbs ≤ 1 := by decide
  have hcap : 1 < 127 / (supplies.length + demands.length + 1) / (supplies.length + demands.length) := by decide
  have hids : supplies.length * demands.length + (supplies.length + demands.length) < idLimit := by decide
  exact ⟨h, hC, hcap, hids, solve_completeBipartite h hC hcap hids⟩

end Transportation
