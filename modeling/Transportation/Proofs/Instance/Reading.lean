import Transportation.Proofs.Instance.Grammar
import Transportation.Proofs.Network.Building
import Transportation.Proofs.Text.Lines
/-!
# Reading is the grammar

`read_spec` is the whole of what reading does: it returns the network of the instance that the lines say, or the error
of the first line that offends. It faults only for want of numbers, which takes a file of as many bytes.
-/

namespace Transportation.Instance

open Text

variable {F : Type}

/-! ## The words of a line -/

section
variable {α β : Type} {read : Word → Except NumeralError α} {line : Nat}

theorem nextNumber_of_ok {w : Word} {x : α} (h : read w = .ok x) (ws : List Word) :
    nextNumber read line (w :: ws) = .ok (x, ws) := by
  rw [nextNumber, readNumber, h]
  rfl

theorem nextNumber_of_count {w : Word} {n : Nat} (h : Numeral.Count w n) (ws : List Word) :
    nextNumber Numeral.readCount line (w :: ws) = .ok (n, ws) :=
  nextNumber_of_ok (Numeral.readCount_eq_ok_iff.2 h) ws

/-- A number that is refused or missing ends the reading of the line. -/
theorem nextNumber_bind_of_breaks {ts : List (Word → Option NumeralError)} {ws : List Word} {e : FormatError}
    {k : α × List Word → Except ReadError β} (h : Breaks (refusal read :: ts) ws e)
    (hk : ∀ x ws, Breaks ts ws e → k (x, ws) = .error (.format line e)) :
    (nextNumber read line ws >>= k) = .error (.format line e) := by
  cases h with
  | missing => rfl
  | invalid hw =>
    rw [nextNumber, readNumber, refusal_eq_some_iff.1 hw]
    rfl
  | later hw h =>
    obtain ⟨x, hx⟩ := refusal_eq_none_iff.1 hw
    rw [nextNumber_of_ok hx]
    exact hk x _ h

theorem endOfLine_bind_of_breaks {ws : List Word} {e : FormatError} {k : Unit → Except ReadError β}
    (h : Breaks [] ws e) : (endOfLine line ws >>= k) = .error (.format line e) := by
  cases h
  rfl

theorem mapM_readNumber_of_ok {ws : List Word} {xs : List α} (h : List.Forall₂ (fun w x => read w = .ok x) ws xs) :
    ws.mapM (readNumber read line) = .ok xs := by
  induction h with
  | nil => rfl
  | @cons w x ws xs hx _ ih =>
    rw [List.mapM_cons, readNumber, hx, ih]
    rfl

theorem mapM_readNumber_of_breaks {ws : List Word} {e : FormatError}
    (h : Breaks (List.replicate ws.length (refusal read)) ws e) :
    ws.mapM (readNumber read line) = .error (.format line e) := by
  induction ws with
  | nil => cases h
  | cons w ws ih =>
    rw [List.mapM_cons, readNumber]
    cases h with
    | invalid hw =>
      rw [refusal_eq_some_iff.1 hw]
      rfl
    | later hw h =>
      obtain ⟨x, hx⟩ := refusal_eq_none_iff.1 hw
      rw [hx, ih h]
      rfl

end



/-! ## The lines -/

section
variable [Numeral F] {n : Nat} {l : Line} {e : ReadError}

theorem checkVertex_of_lt {line x : Nat} (h : x < n) : checkVertex n line x = .ok ⟨x⟩ :=
  if_pos h

theorem checkVertex_of_le {line x : Nat} (h : n ≤ x) : checkVertex n line x = .error (.data line (.unknownVertex x n)) :=
  if_neg (Nat.not_lt.2 h)

theorem readLink_of_says {link : Link F} (h : SaysLink n l link) : readLink n l = .ok link := by
  obtain ⟨k, u, v, c, rfl, hu, hv, hc, hsrc, hsnk, hne⟩ := h
  have hloop : link.src.index ≠ link.snk.index := fun he => hne (congrArg VertexId.mk he)
  simp only [readLink, nextNumber_of_count hu, nextNumber_of_count hv, nextNumber_of_ok hc, checkVertex_of_lt hsrc,
    checkVertex_of_lt hsnk, if_neg hloop, endOfLine, bind, Except.bind]
  rfl

theorem readLink_of_offends (h : OffendsLink F n l e) : readLink (F := F) n l = .error e := by
  cases h with
  | access => rfl
  | format h =>
    refine nextNumber_bind_of_breaks h fun u ws h => nextNumber_bind_of_breaks h fun v ws h =>
      nextNumber_bind_of_breaks h fun cost ws h => endOfLine_bind_of_breaks h
  | data h =>
    obtain ⟨u, v, c, x, y, cost, hws, hu, hv, hc, he⟩ := h
    cases hws
    simp only [readLink, nextNumber_of_count hu, nextNumber_of_count hv, nextNumber_of_ok hc, endOfLine, bind,
      Except.bind]
    cases he with
    | source hx => rw [checkVertex_of_le hx]
    | sink hx hy => rw [checkVertex_of_lt hx, checkVertex_of_le hy]
    | loop hx =>
      rw [checkVertex_of_lt hx]
      simp only [if_true]
      rfl

theorem readWeights_of_says {first second : Line} {xs : List F} (hcount : SaysCount first xs.length)
    (hweights : SaysWeights second xs) (ls : List Line) : readWeights (first :: second :: ls) = .ok (xs, ls) := by
  obtain ⟨k, w, rfl, hw⟩ := hcount
  obtain ⟨k', w', ws, rfl, hws⟩ := hweights
  simp only [readWeights, nextLine, nextNumber_of_count hw, endOfLine, mapM_readNumber_of_ok hws, bind, Except.bind]
  simp
  rfl

theorem readWeights_of_offendsCount (h : OffendsCount l e) (ls : List Line) :
    readWeights (F := F) (l :: ls) = .error e := by
  cases h with
  | access => rfl
  | format h => exact nextNumber_bind_of_breaks h fun n ws h => endOfLine_bind_of_breaks h
  | data h => exact h.elim

theorem readWeights_of_noWeights {k : Nat} {w : Word} {ws : List Word} (h : SaysCount (.words k w ws) n) :
    readWeights (F := F) [.words k w ws] = .error (.format k (.endOfFile "vertex weights")) := by
  obtain ⟨k, w, hl, hw⟩ := h
  cases hl
  simp only [readWeights, nextLine, nextNumber_of_count hw, endOfLine, bind, Except.bind]

theorem readWeights_of_offendsWeights {first : Line} (hcount : SaysCount first n) (h : OffendsWeights F n l e)
    (ls : List Line) : readWeights (F := F) (first :: l :: ls) = .error e := by
  obtain ⟨k, w, rfl, hw⟩ := hcount
  cases h with
  | access => simp only [readWeights, nextLine, nextNumber_of_count hw, endOfLine, bind, Except.bind]
  | format h =>
    simp only [readWeights, nextLine, nextNumber_of_count hw, endOfLine, mapM_readNumber_of_breaks h, bind, Except.bind]
  | data h =>
    obtain ⟨xs, hxs, hn, rfl⟩ := h
    simp only [readWeights, nextLine, nextNumber_of_count hw, endOfLine, mapM_readNumber_of_ok hxs, bind, Except.bind]
    rw [if_pos hn]
    rfl

end

/-! ## The links -/

theorem Says.joins [Numeral F] {ls : List Line} {i : Instance F} (h : Says ls i) :
    ∀ l ∈ i.links, l.Joins i.weights.length := by
  cases h with
  | intro count weights joins =>
    intro l hl
    obtain ⟨_, _, k, u, v, c, _, _, _, _, hj⟩ := Checked.exists_of_forall₂ joins hl
    exact hj

/-- The builder that has taken all of an instance. -/
def builder (i : Instance F) (h : ∀ l ∈ i.links, l.Joins i.weights.length) : Builder F :=
  (Builder.empty.withWeights i.weights).withLinks i.links (by simpa using h)

theorem network_builder [Amount F] (i : Instance F) (h : ∀ l ∈ i.links, l.Joins i.weights.length) :
    (i.builder h).network = i.network := by
  simp [builder, Builder.network, network, Builder.withLinks, Builder.withWeights, Builder.empty]

theorem numVertices_network [Amount F] (i : Instance F) : i.network.numVertices = i.weights.length := by
  simp [network, Network.numVertices]

theorem numArcs_network [Amount F] (i : Instance F) : i.network.numArcs = i.links.length := by
  simp [network, Network.numArcs]

/-- Links are added as long as there is room. -/
theorem addLinks_append [Numeral F] {b : Builder F} {n : Nat} (hn : b.numVertices = n) {before : List Line}
    {links : List (Link F)} (h : List.Forall₂ (SaysLink n) before links) (hjoins : ∀ l ∈ links, l.Joins b.numVertices)
    (hroom : b.numArcs + n < idLimit) (after : List Line) :
    addLinks n b (before ++ after) =
      if b.numArcs + links.length + n < idLimit then addLinks n (b.withLinks links hjoins) after
      else .error .arcCapacity := by
  induction h generalizing b with
  | nil => rw [List.length_nil, Nat.add_zero, if_pos hroom, Builder.withLinks_nil, List.nil_append]
  | @cons l link before links hl _ ih =>
    have hlink : link.Joins b.numVertices := hjoins link List.mem_cons_self
    rw [List.cons_append, addLinks, readLink_of_says hl]
    simp only [Builder.addArc_eq b hlink]
    have hlen : (link :: links).length = links.length + 1 := rfl
    by_cases hone : b.numArcs + b.numVertices + 1 < idLimit
    · have hn' : (b.withLinks [link] (List.forall_mem_singleton.2 hlink)).numVertices = n := hn
      have harcs : (b.withLinks [link] (List.forall_mem_singleton.2 hlink)).numArcs = b.numArcs + 1 :=
        Builder.numArcs_withLinks _
      have hsum : b.numArcs + 1 + links.length + n = b.numArcs + (link :: links).length + n := by omega
      rw [if_pos hone, Checked.ok_bind]
      dsimp only
      rw [ih hn' (fun l hl => hjoins l (List.mem_cons_of_mem _ hl)) (by omega), Builder.withLinks_cons _ hjoins, harcs,
        hsum]
    · rw [if_neg hone, if_neg (by omega)]
      rfl

/-! ## Size -/

section
variable [Numeral F] {bytes : List UInt8} {before after : List Line} {i : Instance F}

/-- An instance that is said has no more weights and links than its lines have words. -/
theorem Says.length_le (h : Says before i) : i.weights.length + i.links.length ≤ (before.map Line.numWords).sum := by
  cases h with
  | @intro first second ls xs links count weights joins =>
    obtain ⟨k, w, ws, rfl, hws⟩ := weights
    have hlinks : links.length ≤ (ls.map Line.numWords).sum := by
      clear count hws
      induction joins with
      | nil => exact Nat.le_refl _
      | @cons l link ls links hl _ ih =>
        obtain ⟨k, u, v, c, rfl, -⟩ := hl
        simp only [List.map_cons, List.sum_cons, List.length_cons, Line.numWords]
        omega
    have hxs : ws.length + 1 = xs.length := hws.length_eq
    simp only [List.map_cons, List.sum_cons, Line.numWords]
    omega

theorem idLimit_le_of_not_fits (hc : contents bytes = before ++ after) (h : Says before i) (hfit : ¬ i.Fits) :
    idLimit ≤ bytes.length := by
  have hwords := sum_numWords_le bytes
  rw [hc, List.map_append, List.sum_append] at hwords
  have hlen := h.length_le
  rw [Fits] at hfit
  omega

end

/-! ## The whole file -/

section
variable [Amount F] [Numeral F] {bytes : List UInt8} {before after : List Line} {i : Instance F}

theorem read_eq_of_says (hc : contents bytes = before ++ after) (h : Says before i) : ∃ ls,
    List.Forall₂ (SaysLink i.weights.length) ls i.links ∧ read bytes = (do
      let (_, b) ← Builder.empty.addVertices i.weights
      return (← addLinks i.weights.length b (ls ++ after)).map Builder.network) := by
  cases h with
  | intro count weights joins =>
    rw [read, lines_eq, hc, List.cons_append, List.cons_append, readWeights_of_says count weights]
    exact ⟨_, joins, rfl⟩

/-- What comes after lines that say an instance is read with that instance. -/
theorem read_of_fits (hc : contents bytes = before ++ after) (h : Says before i) (hfit : i.Fits) :
    read bytes = (do return (← addLinks i.weights.length (i.builder h.joins) after).map Builder.network) := by
  obtain ⟨ls, hls, hread⟩ := read_eq_of_says hc h
  have hfit' : i.weights.length + i.links.length < idLimit := hfit
  rw [hread, Builder.addVertices_eq, if_pos (.inr (by rw [Builder.numVertices_empty]; omega)), Checked.ok_bind]
  dsimp only
  rw [addLinks_append (by simp) hls (by simpa using h.joins) (by simp; omega), if_pos (by simp; omega)]
  rfl

/-- For want of numbers it is the links that are not taken, unless there are too many weights. -/
theorem read_of_not_fits (hc : contents bytes = before ++ after) (h : Says before i) (hfit : ¬ i.Fits) :
    read (F := F) bytes = .error (if i.weights.length < idLimit then .arcCapacity else .vertexCapacity) := by
  obtain ⟨ls, hls, hread⟩ := read_eq_of_says hc h
  have hfit' : ¬ i.weights.length + i.links.length < idLimit := hfit
  rw [hread, Builder.addVertices_eq]
  by_cases hweights : i.weights.length < idLimit
  · rw [if_pos (.inr (by rw [Builder.numVertices_empty]; omega)), if_pos hweights, Checked.ok_bind]
    dsimp only
    rw [addLinks_append (by simp) hls (by simpa using h.joins) (by simpa using hweights), if_neg (by simp; omega)]
    rfl
  · have hvertices : ¬ (i.weights = [] ∨ Builder.empty.numVertices (F := F) + i.weights.length < idLimit) := by
      rintro (hnil | hlt)
      · rw [hnil, List.length_nil] at hweights
        exact hweights (by decide)
      · rw [Builder.numVertices_empty] at hlt
        omega
    rw [if_neg hvertices, if_neg hweights]
    rfl

theorem read_of_says (h : Says (contents bytes) i) (hfit : i.Fits) : read bytes = .ok (.ok i.network) := by
  rw [read_of_fits (List.append_nil _).symm h hfit, addLinks, ← network_builder i h.joins]
  rfl

theorem read_of_fails {e : ReadError} (h : Fails F (contents bytes) e) : read (F := F) bytes = .ok (.error e) := by
  have hhead : ∀ {ls : List Line}, contents bytes = ls → readWeights (F := F) ls = .error e →
      read (F := F) bytes = .ok (.error e) := by
    intro ls hc hls
    rw [read, lines_eq, hc, hls]
    rfl
  generalize hc : contents bytes = ls at h
  cases h with
  | noCount => exact hhead hc rfl
  | count h => exact hhead hc (readWeights_of_offendsCount h _)
  | noWeights h => exact hhead hc (readWeights_of_noWeights h)
  | weights hcount h => exact hhead hc (readWeights_of_offendsWeights hcount h _)
  | link hsays hfit h =>
    rw [read_of_fits hc hsays hfit, addLinks, readLink_of_offends h]
    rfl

variable (F) in
/-- What reading does, by what the lines say. -/
theorem read_cases (bytes : List UInt8) :
    (∃ i : Instance F, Says (contents bytes) i ∧ i.Fits ∧ read bytes = .ok (.ok i.network)) ∨
      (∃ e, Fails F (contents bytes) e ∧ read (F := F) bytes = .ok (.error e)) ∨
      ∃ (before after : List Line) (i : Instance F), contents bytes = before ++ after ∧ Says before i ∧ ¬ i.Fits ∧
        ∃ fault, read (F := F) bytes = .error fault := by
  rcases says_or_fails (F := F) (contents bytes) with ⟨i, h, hfit⟩ | ⟨e, h⟩ | ⟨before, after, i, hc, h, hfit⟩
  · exact .inl ⟨i, h, hfit, read_of_says h hfit⟩
  · exact .inr (.inl ⟨e, h, read_of_fails h⟩)
  · exact .inr (.inr ⟨before, after, i, hc, h, hfit, _, read_of_not_fits hc h hfit⟩)

theorem says_of_read {g : Network F} (hg : read bytes = .ok (.ok g)) :
    ∃ i : Instance F, Says (contents bytes) i ∧ i.Fits ∧ g = i.network := by
  rcases read_cases F bytes with ⟨i, h, hfit, hread⟩ | ⟨e, -, hread⟩ | ⟨_, _, _, -, -, -, fault, hread⟩ <;>
    rw [hg] at hread <;> cases hread
  exact ⟨i, h, hfit, rfl⟩

/-- There are numbers for all that is read. -/
theorem room_of_read {g : Network F} (hg : read bytes = .ok (.ok g)) : g.numVertices + g.numArcs < idLimit := by
  obtain ⟨i, -, hfit, rfl⟩ := says_of_read hg
  rw [numVertices_network, numArcs_network]
  exact hfit

end

/-- Reading returns what the lines of a file say, or the error of the first one that offends. It faults only after lines
that say more vertices and links than there are numbers for, which takes a file of as many bytes. -/
theorem read_spec [Amount F] [Numeral F] (bytes : List UInt8) :
    (∀ g, read (F := F) bytes = .ok (.ok g) ↔ ∃ i : Instance F, Says (contents bytes) i ∧ i.Fits ∧ g = i.network) ∧
    (∀ e, read (F := F) bytes = .ok (.error e) ↔ Fails F (contents bytes) e) ∧
    (∀ fault, read (F := F) bytes = .error fault → idLimit ≤ bytes.length ∧
      ∃ (before after : List Line) (i : Instance F), contents bytes = before ++ after ∧ Says before i ∧ ¬ i.Fits) := by
  refine ⟨fun g => ⟨says_of_read, ?_⟩, fun e => ⟨fun he => ?_, read_of_fails⟩, fun fault hfault => ?_⟩
  · rintro ⟨i, h, hfit, rfl⟩
    exact read_of_says h hfit
  · rcases read_cases F bytes with ⟨i, -, -, hread⟩ | ⟨e', h, hread⟩ | ⟨_, _, _, -, -, -, fault, hread⟩ <;>
      rw [he] at hread <;> cases hread
    exact h
  · rcases read_cases F bytes with ⟨i, -, -, hread⟩ | ⟨e, -, hread⟩ | ⟨before, after, i, hc, h, hfit, -⟩
    · rw [hfault] at hread
      cases hread
    · rw [hfault] at hread
      cases hread
    · exact ⟨idLimit_le_of_not_fits hc h hfit, before, after, i, hc, h, hfit⟩

-- The empty line has a number too, and the words of a line are looked at before its vertices.
example : read (F := Signed8) "2 // two\n\n1 -1\n0 0 x\n".toUTF8.data.toList =
    .ok (.error (.format 4 (.invalidNumber ['x'] .invalidDigit))) := by decide +kernel

end Transportation.Instance
