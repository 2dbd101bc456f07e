import Transportation.Proofs.Instance.Reading
import Transportation.Solution
/-!
# Solution files are read as they say

What the lines of a solution file say (`Says`) and where they first go wrong (`Fails`), told line by line and without
reading. Which lines offend depends on what came before in one point only: once the value has been said, another line
`s` offends by itself, whatever stands on it. Every file is of one kind or the other (`says_or_fails`), and reading tells
which (`read_iff`).
-/

namespace Transportation.Solution

open Text Instance

variable {F : Type} [Numeral F] {l : Line} {ls : List Line} {x : F} {f : Nat × Nat × F} {fs flows : List (Nat × Nat × F)}
  {value? : Option F} {valued : Bool} {e : ReadError}

/-! ## The grammar -/

/-- The line is the value `x`. Integers are the numerals of `Numeral.read_eq_ok_iff`. -/
def SaysValue (l : Line) (x : F) : Prop :=
  ∃ k w, l = .words k ['s'] [w] ∧ Numeral.read w = .ok x

/-- The line is the flow from one vertex to another. -/
def SaysFlow (l : Line) (f : Nat × Nat × F) : Prop :=
  ∃ k u v w, l = .words k ['f'] [u, v, w] ∧ Numeral.Count u f.1 ∧ Numeral.Count v f.2.1 ∧ Numeral.read w = .ok f.2.2

/-- The lines are flows and, at any place among them, one value. -/
inductive Says : List Line → Solution F → Prop where
  | intro {before after : List Line} {l : Line} {x : F} {flows flows' : List (Nat × Nat × F)}
      (flows_before : List.Forall₂ SaysFlow before flows) (value : SaysValue l x)
      (flows_after : List.Forall₂ SaysFlow after flows') : Says (before ++ l :: after) ⟨x, flows ++ flows'⟩

variable (F) in
/-- What is wrong with the words of a line that comes after the value or, if not `valued`, after flows alone. -/
inductive Misfits (valued : Bool) : List Word → FormatError → Prop where
  | flow {ws e} : Breaks [refusal Numeral.readCount, refusal Numeral.readCount, refusal (Numeral.read (F := F))] ws e →
      Misfits valued (['f'] :: ws) e
  | value {ws e} : valued = false → Breaks [refusal (Numeral.read (F := F))] ws e → Misfits valued (['s'] :: ws) e
  | repeatedValue {ws} : valued = true → Misfits valued (['s'] :: ws) .repeatedValue
  | unknown {w ws} : w ≠ ['f'] → w ≠ ['s'] → Misfits valued (w :: ws) (.unknownLine w)

variable (F) in
def OffendsAfter (valued : Bool) : Line → ReadError → Prop :=
  Offends (Misfits F valued) fun _ _ => False

variable (F) in
/-- The lines before the first one that offends are in order, or all are, but none is the value. -/
inductive Fails : List Line → ReadError → Prop where
  | noValue {ls : List Line} {flows : List (Nat × Nat × F)} : List.Forall₂ SaysFlow ls flows →
      Fails ls (.format 0 .missingValue)
  | beforeValue {before after : List Line} {l : Line} {flows : List (Nat × Nat × F)} {e : ReadError} :
      List.Forall₂ SaysFlow before flows → OffendsAfter F false l e → Fails (before ++ l :: after) e
  | afterValue {before after : List Line} {l : Line} {x : Solution F} {e : ReadError} :
      Says before x → OffendsAfter F true l e → Fails (before ++ l :: after) e

/-! ## Every line says something or offends -/

variable (F) in
theorem says_or_breaks_flow (k : Nat) (ws : List Word) : (∃ f : Nat × Nat × F, SaysFlow (.words k ['f'] ws) f) ∨
    ∃ e, Breaks [refusal Numeral.readCount, refusal Numeral.readCount, refusal (Numeral.read (F := F))] ws e := by
  refine (fit_or_breaks _ ws).imp_left fun h => ?_
  obtain ⟨u, _, hu, hrest, rfl⟩ := List.forall₂_cons_left_iff.1 h
  obtain ⟨v, _, hv, hlast, rfl⟩ := List.forall₂_cons_left_iff.1 hrest
  obtain ⟨w, _, hw, hnil, rfl⟩ := List.forall₂_cons_left_iff.1 hlast
  cases hnil
  obtain ⟨x, hx⟩ := refusal_eq_none_iff.1 hu
  obtain ⟨y, hy⟩ := refusal_eq_none_iff.1 hv
  obtain ⟨flow, hflow⟩ := refusal_eq_none_iff.1 hw
  exact ⟨(x, y, flow), k, u, v, w, rfl, Numeral.readCount_eq_ok_iff.1 hx, Numeral.readCount_eq_ok_iff.1 hy, hflow⟩

variable (F) in
theorem says_or_breaks_value (k : Nat) (ws : List Word) : (∃ x : F, SaysValue (.words k ['s'] ws) x) ∨
    ∃ e, Breaks [refusal (Numeral.read (F := F))] ws e := by
  refine (fit_or_breaks _ ws).imp_left fun h => ?_
  obtain ⟨w, _, hw, hnil, rfl⟩ := List.forall₂_cons_left_iff.1 h
  cases hnil
  obtain ⟨x, hx⟩ := refusal_eq_none_iff.1 hw
  exact ⟨x, k, w, rfl, hx⟩

variable (F) in
/-- A line says a flow or, unless there has been one, a value, or it offends. -/
theorem says_or_offends (valued : Bool) (l : Line) : (∃ f : Nat × Nat × F, SaysFlow l f) ∨
    (valued = false ∧ ∃ x : F, SaysValue l x) ∨ ∃ e, OffendsAfter F valued l e := by
  cases l with
  | malformed => exact .inr (.inr ⟨_, .access⟩)
  | words k w ws =>
    by_cases hf : w = ['f']
    · subst hf
      exact (says_or_breaks_flow F k ws).imp_right fun ⟨e, h⟩ => .inr ⟨_, .format (.flow h)⟩
    by_cases hs : w = ['s']
    · subst hs
      cases valued with
      | true => exact .inr (.inr ⟨_, .format (.repeatedValue rfl)⟩)
      | false =>
        exact .inr ((says_or_breaks_value F k ws).imp (⟨rfl, ·⟩) fun ⟨e, h⟩ => ⟨_, .format (.value rfl h)⟩)
    · exact .inr (.inr ⟨_, .format (.unknown hf hs)⟩)

variable (F) in
/-- Lines are flows or have a first one that is not: the value, if it may be, or one that offends. -/
theorem flows_or_other (valued : Bool) (ls : List Line) :
    (∃ flows : List (Nat × Nat × F), List.Forall₂ SaysFlow ls flows) ∨
      ∃ (before : List Line) (l : Line) (after : List Line) (flows : List (Nat × Nat × F)), ls = before ++ l :: after ∧
        List.Forall₂ SaysFlow before flows ∧
        ((valued = false ∧ ∃ x : F, SaysValue l x) ∨ ∃ e, OffendsAfter F valued l e) := by
  induction ls with
  | nil => exact .inl ⟨[], .nil⟩
  | cons l ls ih =>
    rcases says_or_offends F valued l with ⟨f, hf⟩ | hother
    · rcases ih with ⟨flows, h⟩ | ⟨before, l', after, flows, rfl, h, hother⟩
      · exact .inl ⟨f :: flows, .cons hf h⟩
      · exact .inr ⟨l :: before, l', after, f :: flows, rfl, .cons hf h, hother⟩
    · exact .inr ⟨[], l, ls, [], rfl, .nil, hother⟩

variable (F) in
/-- Lines say a solution or fail. -/
theorem says_or_fails (ls : List Line) : (∃ x : Solution F, Says ls x) ∨ ∃ e, Fails F ls e := by
  rcases flows_or_other F false ls with ⟨flows, h⟩ | ⟨before, l, after, flows, rfl, h, ⟨-, x, hx⟩ | ⟨e, he⟩⟩
  · exact .inr ⟨_, .noValue h⟩
  · rcases flows_or_other F true after with ⟨flows', h'⟩ | ⟨before', l', after', flows', rfl, h', ⟨hn, -⟩ | ⟨e, he⟩⟩
    · exact .inl ⟨_, .intro h hx h'⟩
    · cases hn
    · refine .inr ⟨e, ?_⟩
      rw [← List.cons_append, ← List.append_assoc]
      exact .afterValue (.intro h hx h') he
  · exact .inr ⟨e, .beforeValue h he⟩

/-! ## Reading the lines -/

theorem ofLinesAfter_of_value (h : SaysValue l x) : ofLinesAfter (l :: ls) none flows = ofLinesAfter ls (some x) flows := by
  obtain ⟨k, w, rfl, hw⟩ := h
  rw [ofLinesAfter, if_neg (by decide), if_pos rfl, nextNumber_of_ok hw]
  rfl

theorem ofLinesAfter_of_flow (h : SaysFlow l f) :
    ofLinesAfter (l :: ls) value? flows = ofLinesAfter ls value? (f :: flows) := by
  obtain ⟨k, u, v, w, rfl, hu, hv, hw⟩ := h
  rw [ofLinesAfter, if_pos rfl]
  simp only [nextNumber_of_count hu, nextNumber_of_count hv, nextNumber_of_ok hw, bind, Except.bind]
  rfl

theorem ofLinesAfter_of_flows {before : List Line} (h : List.Forall₂ SaysFlow before fs) (ls : List Line) :
    ofLinesAfter (before ++ ls) value? flows = ofLinesAfter ls value? (fs.reverse ++ flows) := by
  induction h generalizing flows with
  | nil => rfl
  | cons hl _ ih =>
    rw [List.cons_append, ofLinesAfter_of_flow hl, ih, List.reverse_cons, List.append_assoc, List.singleton_append]

/-- A line that offends ends the reading. -/
theorem ofLinesAfter_of_offends (h : OffendsAfter F value?.isSome l e) (ls : List Line) :
    ofLinesAfter (l :: ls) value? flows = .error e := by
  cases h with
  | access => rfl
  | data h => exact h.elim
  | format h =>
    rw [ofLinesAfter]
    cases h with
    | flow h =>
      rw [if_pos rfl]
      exact nextNumber_bind_of_breaks h fun u ws h => nextNumber_bind_of_breaks h fun v ws h =>
        nextNumber_bind_of_breaks h fun flow ws h => endOfLine_bind_of_breaks h
    | value hn h =>
      rw [if_neg (by decide), if_pos rfl, hn]
      exact nextNumber_bind_of_breaks h fun x ws h => endOfLine_bind_of_breaks h
    | repeatedValue hv =>
      rw [if_neg (by decide), if_pos rfl, hv]
      rfl
    | unknown hf hs =>
      rw [if_neg hf, if_neg hs]
      rfl

theorem ofLinesAfter_of_solution {s : Solution F} (h : Says ls s) (rest : List Line) :
    ofLinesAfter (ls ++ rest) none [] = ofLinesAfter rest (some s.value) s.flows.reverse := by
  cases h with
  | intro hbefore hx hafter =>
    rw [List.append_assoc, ofLinesAfter_of_flows hbefore, List.cons_append, ofLinesAfter_of_value hx,
      ofLinesAfter_of_flows hafter, List.append_nil, List.reverse_append]

theorem ofLinesAfter_of_fails (h : Fails F ls e) : ofLinesAfter (F := F) ls none [] = .error e := by
  cases h with
  | noValue h =>
    rw [← List.append_nil ls, ofLinesAfter_of_flows h]
    rfl
  | beforeValue h he => rw [ofLinesAfter_of_flows h, ofLinesAfter_of_offends he]
  | afterValue h he => rw [ofLinesAfter_of_solution h, ofLinesAfter_of_offends he]

variable {bytes : List UInt8}

theorem read_of_solution {s : Solution F} (h : Says (contents bytes) s) : read bytes = .ok s := by
  rw [read, lines_eq, ← List.append_nil (contents bytes), ofLinesAfter_of_solution h, ofLinesAfter, List.reverse_reverse]

theorem read_of_fails (h : Fails F (contents bytes) e) : read (F := F) bytes = .error e := by
  rw [read, lines_eq, ofLinesAfter_of_fails h]

/-- Reading returns what the lines of a file say, or the error of the first one that offends, and one or the other is
the case of every file. -/
theorem read_iff (bytes : List UInt8) :
    (∀ s : Solution F, read bytes = .ok s ↔ Says (contents bytes) s) ∧
      ∀ e, read (F := F) bytes = .error e ↔ Fails F (contents bytes) e := by
  refine ⟨fun s => ⟨fun hs => ?_, read_of_solution⟩, fun e => ⟨fun he => ?_, read_of_fails⟩⟩
  · rcases says_or_fails F (contents bytes) with ⟨s', h⟩ | ⟨e, h⟩
    · rw [read_of_solution h, Except.ok.injEq] at hs
      exact hs ▸ h
    · rw [read_of_fails h] at hs
      cases hs
  · rcases says_or_fails F (contents bytes) with ⟨s, h⟩ | ⟨e', h⟩
    · rw [read_of_solution h] at he
      cases he
    · rw [read_of_fails h, Except.error.injEq] at he
      exact he ▸ h

-- The value may come after flows, and a second one is refused before it is looked at.
example : read (F := Signed8) "f 0 1 2 // flow\n\ns 4\ns x\n".toUTF8.data.toList =
    .error (.format 4 .repeatedValue) := by decide +kernel

end Transportation.Solution
