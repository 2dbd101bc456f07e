import Transportation.Amount.Signed
import Transportation.Proofs.Network.Building
import Transportation.Proofs.Network.WellFormed
/-!
# Calls of a builder

A builder is asked for vertices and arcs in any order. The answers are told without a builder (`Answered`): vertices and
arcs are numbered in the order in which they are taken, and an arc is refused if it does not join two different vertices
that are there or if there is no room left for it. A run of calls is answered so, and what it builds are the vertices of
all calls and the links of those that were not refused (`network_of_calls`).
-/

namespace Transportation.Builder

variable {F : Type}

/-- What can be asked of a builder. -/
inductive Call (F : Type) where
  | addVertex (weight : F)
  | addVertices (weights : List F)
  | addArc (link : Link F)
  | setName (name : String)
  /-- Room is wanted for as many vertices and arcs more. -/
  | reserve (vertices arcs : Nat)
  deriving DecidableEq, Repr

/-- What a builder answers: the numbers it hands out, or why there is no arc. -/
inductive Answer where
  | vertex (id : VertexId)
  | vertices (ids : List VertexId)
  | arc (id : ArcId)
  | refused (fault : Fault)
  | done
  deriving DecidableEq, Repr

/-- The answer to a call, and the builder after it. An arc that is refused leaves the builder as it was, and so does
making room. -/
def call (b : Builder F) : Call F → Checked (Answer × Builder F)
  | .addVertex w => do
    let (id, b) ← b.addVertex w
    return (.vertex id, b)
  | .addVertices ws => do
    let (ids, b) ← b.addVertices ws
    return (.vertices ids, b)
  | .addArc l =>
    match b.addArc l with
    | .ok (id, b) => return (.arc id, b)
    | .error fault => return (.refused fault, b)
  | .setName name => return (.done, b.setName name)
  | .reserve _ _ => return (.done, b)

/-- The answers to calls one after the other. -/
def calls (b : Builder F) : List (Call F) → Checked (List Answer × Builder F)
  | [] => return ([], b)
  | c :: cs => do
    let (a, b) ← b.call c
    let (as, b) ← b.calls cs
    return (a :: as, b)

theorem calls_cons {b b₁ b₂ : Builder F} {c : Call F} {cs : List (Call F)} {a : Answer} {as : List Answer}
    (h : b.call c = .ok (a, b₁)) (hs : b₁.calls cs = .ok (as, b₂)) : b.calls (c :: cs) = .ok (a :: as, b₂) := by
  rw [calls, h, Checked.ok_bind]
  simp only [hs, Checked.ok_bind]
  rfl

/-! ## What calls ask for and answers give -/

/-- The weights of the vertices that a call adds. -/
def Call.weights : Call F → List F
  | .addVertex w => [w]
  | .addVertices ws => ws
  | _ => []

def Call.name? : Call F → Option String
  | .setName name => some name
  | _ => none

def Answer.vertexIds : Answer → List VertexId
  | .vertex id => [id]
  | .vertices ids => ids
  | _ => []

def Answer.arcIds : Answer → List ArcId
  | .arc id => [id]
  | _ => []

/-- The link of a call that was answered by the number of an arc. -/
def accepted? : Call F × Answer → Option (Link F)
  | (.addArc l, .arc _) => some l
  | _ => none

/-- The links of the calls that were accepted. -/
def accepted (cs : List (Call F)) (as : List Answer) : List (Link F) :=
  (cs.zip as).filterMap accepted?

/-- The last name given by the calls, or else `name`. -/
def nameAfter (name : String) (cs : List (Call F)) : String :=
  (cs.filterMap Call.name?).getLastD name

/-- The answer to a call when there are `n` vertices and `m` arcs. -/
inductive Answers (n m : Nat) : Call F → Answer → Prop
  | vertex {w} : Answers n m (.addVertex w) (.vertex ⟨n⟩)
  | vertices {ws} : Answers n m (.addVertices ws) (.vertices ((List.range' n ws.length).map VertexId.mk))
  | unknown {l} (ends : ¬ (l.src.index < n ∧ l.snk.index < n)) :
      Answers n m (.addArc l) (.refused (.unknownEndVertex l.src.index l.snk.index))
  | loop {l} (ends : l.src.index < n ∧ l.snk.index < n) (same : l.src = l.snk) :
      Answers n m (.addArc l) (.refused .loop)
  | full {l} (joins : l.Joins n) (room : idLimit ≤ m + n + 1) : Answers n m (.addArc l) (.refused .arcCapacity)
  | arc {l} (joins : l.Joins n) (room : m + n + 1 < idLimit) : Answers n m (.addArc l) (.arc ⟨m⟩)
  | setName {name} : Answers n m (.setName name) .done
  | reserve {i j} : Answers n m (.reserve i j) .done

/-- The answers to calls one after the other when there are `n` vertices and `m` arcs. -/
inductive Answered : Nat → Nat → List (Call F) → List Answer → Prop
  | nil {n m} : Answered n m [] []
  | cons {n m c a cs as} (h : Answers n m c a) (hs : Answered (n + c.weights.length) (m + a.arcIds.length) cs as) :
      Answered n m (c :: cs) (a :: as)

/-! ## The numbers handed out -/

section
variable {n m : Nat} {c : Call F} {a : Answer} {cs : List (Call F)} {as : List Answer}

theorem Answers.vertexIds_eq (h : Answers n m c a) :
    a.vertexIds = (List.range' n c.weights.length).map VertexId.mk := by
  cases h <;> rfl

theorem Answers.arcIds_eq (h : Answers n m c a) :
    a.arcIds = (List.range' m (accepted [c] [a]).length).map ArcId.mk := by
  cases h <;> rfl

theorem accepted_cons : accepted (c :: cs) (a :: as) = accepted [c] [a] ++ accepted cs as :=
  List.filterMap_append (l := [(c, a)])

theorem Answered.vertexIds_eq (h : Answered n m cs as) :
    as.flatMap Answer.vertexIds = (List.range' n (cs.flatMap Call.weights).length).map VertexId.mk := by
  induction h with
  | nil => rfl
  | cons h _ ih =>
    rw [List.flatMap_cons, ih, h.vertexIds_eq, ← List.map_append, List.range'_append_1, List.flatMap_cons,
      List.length_append]

theorem Answered.arcIds_eq (h : Answered n m cs as) :
    as.flatMap Answer.arcIds = (List.range' m (accepted cs as).length).map ArcId.mk := by
  induction h with
  | nil => rfl
  | cons h _ ih =>
    rw [List.flatMap_cons, ih, accepted_cons, List.length_append, h.arcIds_eq, List.length_map, List.length_range',
      ← List.map_append, List.range'_append_1]

end

/-! ## What calls leave behind -/

/-- The builder `b'` is `b` with this name and with more vertices and arcs. -/
structure Grown (b : Builder F) (name : String) (ws : List F) (links : List (Link F)) (b' : Builder F) : Prop where
  name_eq : b'.name = name
  weights_eq : b'.weights = b.weights ++ ws.toArray
  links_eq : b'.links = b.links ++ links.toArray

theorem Grown.refl {b : Builder F} : Grown b b.name [] [] b :=
  ⟨rfl, (Array.append_empty).symm, (Array.append_empty).symm⟩

theorem Grown.trans {b b' b'' : Builder F} {name name' : String} {ws ws' : List F} {links links' : List (Link F)}
    (h : Grown b name ws links b') (h' : Grown b' name' ws' links' b'') :
    Grown b name' (ws ++ ws') (links ++ links') b'' where
  name_eq := h'.name_eq
  weights_eq := by simp [h'.weights_eq, h.weights_eq]
  links_eq := by simp [h'.links_eq, h.links_eq]

theorem Grown.numVertices_eq {b b' : Builder F} {name : String} {ws : List F} {links : List (Link F)}
    (h : Grown b name ws links b') : b'.numVertices = b.numVertices + ws.length := by
  simp [numVertices, h.weights_eq]

theorem Grown.numArcs_eq {b b' : Builder F} {name : String} {ws : List F} {links : List (Link F)}
    (h : Grown b name ws links b') : b'.numArcs = b.numArcs + links.length := by
  simp [numArcs, h.links_eq]

/-- The builder `b'` is `b` after calls with these answers. -/
def After (b : Builder F) (cs : List (Call F)) (as : List Answer) (b' : Builder F) : Prop :=
  Grown b (nameAfter b.name cs) (cs.flatMap Call.weights) (accepted cs as) b'

theorem nameAfter_cons (name : String) (c : Call F) (cs : List (Call F)) :
    nameAfter name (c :: cs) = nameAfter (nameAfter name [c]) cs := by
  rw [nameAfter, nameAfter, nameAfter, List.filterMap_cons, List.filterMap_cons]
  cases c.name? <;> simp [List.getLast?_cons]

theorem addArc_of_unknown {b : Builder F} {l : Link F}
    (h : ¬ (l.src.index < b.numVertices ∧ l.snk.index < b.numVertices)) :
    b.addArc l = .error (.unknownEndVertex l.src.index l.snk.index) :=
  dif_neg h

theorem addArc_of_loop {b : Builder F} {l : Link F} (h : l.src.index < b.numVertices ∧ l.snk.index < b.numVertices)
    (same : l.src = l.snk) : b.addArc l = .error .loop := by
  rw [addArc, dif_pos h, dif_neg (not_not_intro same)]
  rfl

/-- There are numbers for the vertices that the call adds. -/
def Fits (b : Builder F) (c : Call F) : Prop :=
  c.weights = [] ∨ b.numVertices + c.weights.length < idLimit

/-- A call that asks for no more vertices than there are numbers for is answered. -/
theorem exists_call {b : Builder F} {c : Call F} (hfit : b.Fits c) :
    ∃ a b', b.call c = .ok (a, b') ∧ Answers b.numVertices b.numArcs c a ∧ After b [c] [a] b' := by
  cases c with
  | addVertex w =>
    have hfit : b.numVertices + 1 < idLimit := hfit.resolve_left (List.cons_ne_nil _ _)
    refine ⟨_, b.withWeights [w], ?_, .vertex, rfl, rfl, (Array.append_empty).symm⟩
    rw [call, addVertex_eq, if_pos hfit]
    rfl
  | addVertices ws =>
    have hfit : ws = [] ∨ b.numVertices + ws.length < idLimit := hfit
    refine ⟨_, b.withWeights ws, ?_, .vertices, rfl, by rw [List.flatMap_singleton]; rfl, (Array.append_empty).symm⟩
    rw [call, addVertices_eq, if_pos hfit]
    rfl
  | addArc l =>
    by_cases ends : l.src.index < b.numVertices ∧ l.snk.index < b.numVertices
    · by_cases hloop : l.src = l.snk
      · refine ⟨_, b, ?_, .loop ends hloop, .refl⟩
        rw [call, addArc_of_loop ends hloop]
        rfl
      · have joins : l.Joins b.numVertices := ⟨ends.1, ends.2, hloop⟩
        by_cases room : b.numArcs + b.numVertices + 1 < idLimit
        · refine ⟨_, b.withLinks [l] (List.forall_mem_singleton.2 joins), ?_, .arc joins room, rfl,
            (Array.append_empty).symm, rfl⟩
          rw [call, addArc_eq b joins, if_pos room]
          rfl
        · refine ⟨_, b, ?_, .full joins (Nat.le_of_not_lt room), .refl⟩
          rw [call, addArc_eq b joins, if_neg room]
          rfl
    · refine ⟨_, b, ?_, .unknown ends, .refl⟩
      rw [call, addArc_of_unknown ends]
      rfl
  | setName name =>
    exact ⟨.done, b.setName name, rfl, .setName, rfl, (Array.append_empty).symm, (Array.append_empty).symm⟩
  | reserve i j => exact ⟨.done, b, rfl, .reserve, .refl⟩

theorem call_of_not_fits {b : Builder F} {c : Call F} (hfit : ¬ b.Fits c) : b.call c = .error .vertexCapacity := by
  cases c with
  | addVertex w =>
    have hfit : ¬ b.numVertices + 1 < idLimit := fun h => hfit (.inr h)
    rw [call, addVertex_eq, if_neg hfit]
    rfl
  | addVertices ws =>
    have hfit : ¬ (ws = [] ∨ b.numVertices + ws.length < idLimit) := hfit
    rw [call, addVertices_eq, if_neg hfit]
    rfl
  | addArc _ => exact absurd (.inl rfl) hfit
  | setName _ => exact absurd (.inl rfl) hfit
  | reserve _ _ => exact absurd (.inl rfl) hfit

theorem answers_of_call {b b' : Builder F} {c : Call F} {a : Answer} (h : b.call c = .ok (a, b')) :
    Answers b.numVertices b.numArcs c a ∧ After b [c] [a] b' := by
  by_cases hfit : b.Fits c
  · obtain ⟨_, _, hcall, ha, hb⟩ := exists_call hfit
    cases hcall.symm.trans h
    exact ⟨ha, hb⟩
  · cases (call_of_not_fits hfit).symm.trans h

/-- Calls that ask for no more vertices than there are numbers for are answered. -/
theorem exists_calls (b : Builder F) (cs : List (Call F))
    (hfit : b.numVertices + (cs.flatMap Call.weights).length < idLimit) :
    ∃ as b', b.calls cs = .ok (as, b') ∧ Answered b.numVertices b.numArcs cs as ∧ After b cs as b' := by
  induction cs generalizing b with
  | nil => exact ⟨[], b, rfl, .nil, .refl⟩
  | cons c cs ih =>
    rw [List.flatMap_cons, List.length_append] at hfit
    obtain ⟨a, b₁, hcall, ha, h₁⟩ := exists_call (b := b) (c := c) (.inr (by omega))
    have hn : b₁.numVertices = b.numVertices + c.weights.length := by
      rw [h₁.numVertices_eq, List.flatMap_singleton]
    have hm : b₁.numArcs = b.numArcs + a.arcIds.length := by
      rw [h₁.numArcs_eq, ha.arcIds_eq, List.length_map, List.length_range']
    obtain ⟨as, b₂, hcalls, has, h₂⟩ := ih b₁ (by omega)
    rw [hn, hm] at has
    refine ⟨a :: as, b₂, calls_cons hcall hcalls, .cons ha has, ?_⟩
    have h := h₁.trans h₂
    rwa [h₁.name_eq, ← nameAfter_cons, List.flatMap_singleton, ← List.flatMap_cons, ← accepted_cons] at h

/-! ## The finished network -/

/-- The network holds what the calls asked for and were not refused, under the numbers that they were answered. -/
structure Outcome [Amount F] (cs : List (Call F)) (as : List Answer) (g : Network F) : Prop where
  name_eq : g.name = nameAfter "" cs
  vertexIds_eq : g.vertices.toList.map Vertex.id = as.flatMap Answer.vertexIds
  weights_eq : g.vertices.toList.map Vertex.weight = cs.flatMap Call.weights
  arcIds_eq : g.arcs.toList.map Arc.id = as.flatMap Answer.arcIds
  links_eq : (g.arcs.toList.map fun a => Link.mk a.src a.snk a.cost) = accepted cs as
  wellFormed : g.WellFormed
  unpriced : ∀ v ∈ g.vertices, v.potential = Amount.zero
  unused : ∀ a ∈ g.arcs, a.flow = Amount.zero ∧ a.kind = .real ∧ a.inTree = false

/-- Calls in any order that ask for no more vertices than there are numbers for are answered as they come: an arc is
refused for unknown or equal end vertices or for want of room and leaves the builder as it is. The network then holds the
vertices of all calls and the arcs that were taken, in this order and under the numbers that were answered, and nothing
flows on it yet. -/
theorem network_of_calls [Amount F] (cs : List (Call F)) (hfit : (cs.flatMap Call.weights).length < idLimit) :
    ∃ as b, empty.calls cs = .ok (as, b) ∧ Answered 0 0 cs as ∧ Outcome cs as b.network := by
  obtain ⟨as, b, hcalls, has, hb⟩ := exists_calls empty cs (by rwa [numVertices_empty, Nat.zero_add])
  have hweights : b.weights = (cs.flatMap Call.weights).toArray := by rw [hb.weights_eq]; exact Array.empty_append
  have hlinks : b.links = (accepted cs as).toArray := by rw [hb.links_eq]; exact Array.empty_append
  refine ⟨as, b, hcalls, has, ?_⟩
  exact {
    name_eq := hb.name_eq
    vertexIds_eq := by rw [(Network.map_id_network b).1, has.vertexIds_eq, hweights]; rfl
    weights_eq := by rw [Network.map_weight_network, hweights]
    arcIds_eq := by rw [(Network.map_id_network b).2, has.arcIds_eq, hlinks]; rfl
    links_eq := by rw [Network.map_link_network, hlinks]
    wellFormed := Network.wellFormed_network b
    unpriced := by
      intro v hv
      obtain ⟨i, -, rfl⟩ := Array.mem_mapIdx.1 hv
      rfl
    unused := by
      intro a ha
      obtain ⟨i, -, rfl⟩ := Array.mem_mapIdx.1 ha
      exact ⟨rfl, rfl, rfl⟩ }

/-- Calls of which three ask for arcs that cannot be: too early, from a vertex to itself, and to a vertex that is never
added. -/
def depots [Amount F] : List (Call F) :=
  [.addVertex Amount.one, .addArc ⟨⟨0⟩, ⟨1⟩, Amount.one⟩, .setName "depots",
    .addVertices [Amount.zero, Amount.largest], .addArc ⟨⟨0⟩, ⟨1⟩, Amount.one⟩, .addArc ⟨⟨1⟩, ⟨1⟩, Amount.zero⟩,
    .reserve 4 8, .addArc ⟨⟨2⟩, ⟨3⟩, Amount.one⟩, .addArc ⟨⟨1⟩, ⟨2⟩, Amount.zero⟩, .addVertex Amount.zero]

theorem network_of_depots :
    ((depots : List (Call Signed8)).flatMap Call.weights).length < idLimit ∧ ∃ as b,
      empty.calls (depots : List (Call Signed8)) = .ok (as, b) ∧
      as = [.vertex ⟨0⟩, .refused (.unknownEndVertex 0 1), .done, .vertices [⟨1⟩, ⟨2⟩], .arc ⟨0⟩, .refused .loop, .done,
        .refused (.unknownEndVertex 2 3), .arc ⟨1⟩, .vertex ⟨3⟩] ∧ Outcome depots as b.network := by
  have hfit : ((depots : List (Call Signed8)).flatMap Call.weights).length < idLimit := by decide
  obtain ⟨as, b, hcalls, -, h⟩ := network_of_calls depots hfit
  cases hcalls.symm.trans rfl
  exact ⟨hfit, _, _, hcalls, rfl, h⟩

end Transportation.Builder
