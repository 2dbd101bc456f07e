import Transportation.Proofs.Simplex.Solve
import Transportation.Proofs.Simplex.WorkingCopy
import Transportation.Proofs.Solution.Reading
import Transportation.Proofs.Text.Written
/-!
# Solution files are read back

What is written of a flow is read back: the value of the network and what its real arcs carry, unless it is nothing
(`read_write_of_value`). If the flow is the answer of a solver without a tolerance, the file is consistent in itself
(`Accounts`), although the value is summed over the tree and the lines are those of the real arcs: what is listed meets the
weights, and the value is what it costs.
-/

namespace Transportation.Solution

open Text

variable {max : Nat} {g : Network (Signed max)} {v : Signed max}

theorem spells_valueLine (v : Signed max) : Spells ("s " ++ Numeral.write v) ['s'] [(Numeral.write v).toList] := by
  refine ⟨?_, ?_⟩
  · rw [String.toList_append, List.intercalate_cons_cons, List.intercalate_singleton]
    rfl
  · exact List.forall_mem_cons.2 ⟨plain_singleton (by decide) (by decide),
      List.forall_mem_singleton.2 (Numeral.plain_write v)⟩

theorem spells_flowLine (a : Arc (Signed max)) : Spells (flowLine a) ['f']
    [(toString a.src.index).toList, (toString a.snk.index).toList, (Numeral.write a.flow).toList] := by
  refine ⟨?_, ?_⟩
  · simp only [flowLine, String.toList_append, List.intercalate_cons_cons, List.intercalate_singleton, List.append_assoc]
    rfl
  · simp only [List.forall_mem_cons]
    exact ⟨plain_singleton (by decide) (by decide), Numeral.plain_toString_nat _, Numeral.plain_toString_nat _,
      Numeral.plain_write _, by simp⟩

/-- The flows that are not nothing, of the real arcs in order. -/
def listed (g : Network (Signed max)) : List (Nat × Nat × Signed max) :=
  (g.arcs.toList.filter fun a => a.kind = .real ∧ a.flow.val ≠ 0).map fun a => (a.src.index, a.snk.index, a.flow)

theorem usedArcs_eq [NeZero max] (g : Network (Signed max)) : usedArcs g = g.realArcs.filter fun a => a.flow.val ≠ 0 := by
  refine List.filter_congr fun a _ => ?_
  rw [Bool.eq_iff_iff]
  simp [← Bool.not_eq_true, Signed.isZero_iff]

theorem listed_eq [NeZero max] (g : Network (Signed max)) :
    listed g = (usedArcs g).map fun a => (a.src.index, a.snk.index, a.flow) := by
  rw [listed, usedArcs_eq, Network.realArcs, List.filter_filter]
  congr 1
  refine List.filter_congr fun a _ => ?_
  simp [Arc.isReal, Bool.and_comm]

/-- The ends of arcs are numbers of 32 bits. -/
theorem saysFlows {arcs : List (Arc (Signed max))} (h : ∀ a ∈ arcs, a.src.index ≤ idLimit ∧ a.snk.index ≤ idLimit)
    (count : Nat) : List.Forall₂ SaysFlow (numberLines ((arcs.map flowLine).map fun l => encode l.toList) count)
      (arcs.map fun a => (a.src.index, a.snk.index, a.flow)) := by
  have hlimit : idLimit < 2 ^ 64 := by decide
  induction arcs generalizing count with
  | nil => exact .nil
  | cons a arcs ih =>
    obtain ⟨hsrc, hsnk⟩ := h a List.mem_cons_self
    rw [List.map_cons, List.map_cons, List.map_cons, numberLines_of_spells (spells_flowLine a)]
    refine .cons ⟨_, _, _, _, rfl, Numeral.count_toString ?_, Numeral.count_toString ?_, Numeral.read_write a.flow⟩ ?_
    · exact Nat.lt_of_le_of_lt hsrc hlimit
    · exact Nat.lt_of_le_of_lt hsnk hlimit
    · exact ih (fun a ha => h a (List.mem_cons_of_mem _ ha)) _

theorem read_write [NeZero max] (hends : ∀ a ∈ g.arcs, a.src.index ≤ idLimit ∧ a.snk.index ≤ idLimit)
    (hv : g.value = .ok v) :
    ∃ text, write g = .ok text ∧ read text.toUTF8.data.toList = .ok ⟨v, listed g⟩ := by
  have hused : ∀ a ∈ usedArcs g, a.src.index ≤ idLimit ∧ a.snk.index ≤ idLimit := fun a ha =>
    hends a (Array.mem_toList_iff.1 (List.mem_filter.1 (List.mem_filter.1 ha).1).1)
  have hlines : ∀ l ∈ ("s " ++ Numeral.write v) :: (usedArcs g).map flowLine, '\n' ∉ l.toList :=
    List.forall_mem_cons.2 ⟨(spells_valueLine v).line_feed_not_mem,
      List.forall_mem_map.2 fun a _ => (spells_flowLine a).line_feed_not_mem⟩
  refine ⟨_, by rw [write, hv, Checked.ok_bind]; rfl, ?_⟩
  rw [toList_toUTF8, read, lines, splitLines_unlines_of_not_mem hlines, List.map_cons,
    numberLines_of_spells (spells_valueLine v), ofLinesAfter_of_value ⟨_, _, rfl, Numeral.read_write v⟩,
    ← List.append_nil (numberLines _ _), ofLinesAfter_of_flows (saysFlows hused _), listed_eq]
  simp [ofLinesAfter]

/-! ## The answer of a solver -/

/-- What is listed as flow to the vertex. -/
def inflow (x : Solution (Signed max)) (u : Nat) : Int :=
  ((x.flows.filter fun f => f.2.1 = u).map fun f => f.2.2.val).sum

/-- What is listed as flow from the vertex. -/
def outflow (x : Solution (Signed max)) (u : Nat) : Int :=
  ((x.flows.filter fun f => f.1 = u).map fun f => f.2.2.val).sum

/-- The links of a builder that are used in its working copy, with what they carry. -/
def usedLinks (b : Builder (Signed max)) (g : Network (Signed max)) : List (Link (Signed max) × Signed max) :=
  (b.links.toList.zip (g.realArcs.map Arc.flow)).filter fun p => p.2.val ≠ 0

/-- The solution lists the flows of used links, its value is their cost, and they meet the weights. -/
structure Accounts (b : Builder (Signed max)) (used : List (Link (Signed max) × Signed max))
    (x : Solution (Signed max)) : Prop where
  flows_eq : x.flows = used.map fun p => (p.1.src.index, p.1.snk.index, p.2)
  value_eq : x.value.val = (used.map fun p => p.1.cost.val * p.2.val).sum
  meets : ∀ (u : Nat) (w : Signed max), b.weights[u]? = some w → x.inflow u - x.outflow u = w.val

/-- What is said of used arcs by their links is said of the used links. -/
theorem map_usedLinks [NeZero max] {β : Type} {b : Builder (Signed max)} {phase : Phase}
    (h : List.Forall₂ (Simplex.Traces phase) b.links.toList g.realArcs) {f : Arc (Signed max) → β}
    {k : Link (Signed max) × Signed max → β} (hk : ∀ l x, Simplex.Traces phase l x → f x = k (l, x.flow)) :
    (usedArcs g).map f = (usedLinks b g).map k := by
  rw [usedArcs_eq, usedLinks]
  generalize b.links.toList = links at h
  generalize g.realArcs = arcs at h
  induction h with
  | nil => rfl
  | @cons l x links arcs hx _ ih =>
    rw [List.map_cons, List.zip_cons_cons]
    by_cases hflow : x.flow.val = 0
    · rw [List.filter_cons_of_neg (by simpa using hflow), List.filter_cons_of_neg (by simpa using hflow), ih]
    · rw [List.filter_cons_of_pos (by simpa using hflow), List.filter_cons_of_pos (by simpa using hflow), List.map_cons,
        List.map_cons, hk l x hx, ih]

theorem sum_usedArcs [NeZero max] (hg : g.WellFormed) {f : Arc (Signed max) → Int}
    (hf : ∀ x ∈ g.arcs.toList, x.flow.val = 0 → f x = 0) (hart : ∀ x ∈ g.artificialArcs, x.flow.val = 0) :
    ((usedArcs g).map f).sum = (g.arcs.toList.map f).sum := by
  rw [usedArcs_eq, sum_map_filter (fun x : Arc (Signed max) => x.flow.val ≠ 0) fun x hx hflow => ?_,
    Network.sum_realArcs hg fun x hx => ?_]
  · exact hf x (List.mem_filter.1 hx).1 (hart x hx)
  · exact hf x (List.mem_filter.1 hx).1 (by simpa using hflow)

theorem sum_filter_cons {α : Type} (p : α → Prop) [DecidablePred p] (f : α → Int) (x : α) (xs : List α) :
    (((x :: xs).filter p).map f).sum = (if p x then f x else 0) + ((xs.filter p).map f).sum := by
  by_cases h : p x
  · rw [if_pos h, List.filter_cons_of_pos (by simpa using h), List.map_cons, List.sum_cons]
  · rw [if_neg h, List.filter_cons_of_neg (by simpa using h), zero_add]

theorem inflow_sub_outflow {x : Solution (Signed max)} {arcs : List (Arc (Signed max))}
    (h : x.flows = arcs.map fun a => (a.src.index, a.snk.index, a.flow)) (u : VertexId) :
    x.inflow u.index - x.outflow u.index = netFlow arcs (fun a => a.flow.val) u := by
  rw [inflow, outflow, h]
  clear h
  induction arcs with
  | nil => rfl
  | cons a arcs ih =>
    have hends : ∀ w : VertexId, w = u ↔ w.index = u.index := fun w => ⟨congrArg _, VertexId.ext⟩
    rw [netFlow_cons, ← ih, Arc.brings, List.map_cons, sum_filter_cons, sum_filter_cons]
    simp only [hends]
    ring

theorem accounts_of_solveRun [NeZero max] {b : Builder (Signed max)} {id : Nat} {s s' : Simplex (Signed max)}
    {state : SolutionState} (hin : s.input = b.network.setId id) (hz : s.options.zero = Amount.zero)
    (h : s.run Simplex.solve = .ok (.ok state, s')) (hv : s'.solution.value = .ok v) :
    Accounts b (usedLinks b s'.solution) ⟨v, listed s'.solution⟩ := by
  have hg := Simplex.wellFormed_setId (Network.wellFormed_network b) id
  obtain ⟨hs, hphase, hart, -⟩ :=
    Simplex.basic_of_solveRun hg hin (by rw [hz]; rfl) (Simplex.solveRun_of_run h)
  have hflow := hs.flow (by rw [hphase]; decide)
  have htraces := hs.traces
  rw [hphase] at htraces
  refine ⟨?_, ?_, fun u w hw => ?_⟩
  · rw [listed_eq]
    exact map_usedLinks htraces fun l x hx => by rw [hx.src, hx.snk]
  · rw [hflow.val_of_value hv, ← sum_usedArcs hs.wellFormed (fun x _ hx => by rw [hx, mul_zero]) hart]
    exact congrArg List.sum (map_usedLinks htraces fun l x hx => by rw [hx.optimal rfl])
  · have hu : (b.network.setId id).vertices[u]? = some (Builder.vertex u w) := by
      rw [show (b.network.setId id).vertices = b.network.vertices from rfl, Network.getElem?_network_vertices, hw,
        Option.map_some]
    calc inflow ⟨v, listed s'.solution⟩ u - outflow ⟨v, listed s'.solution⟩ u
        = netFlow (usedArcs s'.solution) (fun a => a.flow.val) ⟨u⟩ := inflow_sub_outflow (listed_eq _) ⟨u⟩
      _ = s'.solution.net ⟨u⟩ :=
        sum_usedArcs hs.wellFormed (fun x _ hx => by dsimp only; rw [hx, Arc.brings_zero]) hart
      _ = (b.network.setId id).weightAt ⟨u⟩ := hflow.meets (Array.getElem?_eq_some_iff.1 hu).1
      _ = w.val := Network.weightAt_eq hu

/-- What is written of a network is read back if its value does not overflow. If the network is the working copy of a
solver without a tolerance that has solved an instance, the value is what the flows cost that are listed, and these meet
the weights of the instance. -/
theorem read_write_of_value [NeZero max] (hends : ∀ a ∈ g.arcs, a.src.index ≤ idLimit ∧ a.snk.index ≤ idLimit)
    (hv : g.value = .ok v) :
    (∃ text, write g = .ok text ∧ read text.toUTF8.data.toList = .ok ⟨v, listed g⟩) ∧
      ∀ (b : Builder (Signed max)) (id : Nat) (s s' : Simplex (Signed max)) (state : SolutionState),
        s.input = b.network.setId id → s.options.zero = Amount.zero → s.run Simplex.solve = .ok (.ok state, s') →
          s'.solution = g → Accounts b (usedLinks b g) ⟨v, listed g⟩ := by
  refine ⟨read_write hends hv, ?_⟩
  rintro b id s s' state hin hz h rfl
  exact accounts_of_solveRun hin hz h hv

/-- Both links of the relay carry three, and the first costs twice as much. -/
theorem read_write_of_solved_relay : ∃ (s' : Simplex Signed8) (v : Signed8) (text : String),
    (Simplex.new (Builder.relay.network.setId 7)).run Simplex.solve = .ok (.ok .optimal, s') ∧
      (∀ a ∈ s'.solution.arcs, a.src.index ≤ idLimit ∧ a.snk.index ≤ idLimit) ∧
      s'.solution.value = .ok v ∧ v.val = 9 ∧ write s'.solution = .ok text ∧
      read text.toUTF8.data.toList = .ok ⟨v, listed s'.solution⟩ ∧ (listed s'.solution).length = 2 ∧
      Accounts Builder.relay (usedLinks Builder.relay s'.solution) ⟨v, listed s'.solution⟩ := by
  have h : (Simplex.new (Builder.relay.network.setId 7)).run Simplex.solve =
      .ok (.ok .optimal, (Simplex.new (Builder.relay.network.setId 7)).after Simplex.solve) := by decide +kernel
  have hends : ∀ a ∈ ((Simplex.new (Builder.relay.network.setId 7)).after Simplex.solve).solution.arcs,
      a.src.index ≤ idLimit ∧ a.snk.index ≤ idLimit := by decide +kernel
  have hv : ((Simplex.new (Builder.relay.network.setId 7)).after Simplex.solve).solution.value =
      .ok (.ofNat 9 (by decide)) := by decide +kernel
  obtain ⟨⟨text, hwrite, hread⟩, haccounts⟩ := read_write_of_value hends hv
  exact ⟨_, _, text, h, hends, hv, rfl, hwrite, hread, by decide +kernel, haccounts Builder.relay 7 _ _ _ rfl rfl h rfl⟩

end Transportation.Solution
