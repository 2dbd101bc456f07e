import Mathlib.Data.List.Forall2
import Transportation.Instance
import Transportation.Proofs.Numeral
/-!
# The grammar of instance files

What the lines of a file say (`Says`) and where they first go wrong (`Fails`). Both are told line by line and without
reading: a line says the number of vertices, their weights or a link, or it offends. Every file is of one kind or the
other, up to where it says more than there are numbers for (`says_or_fails`).
-/

namespace Transportation

/-- The weights of the vertices and the links of a network, in order. -/
structure Instance (F : Type) where
  weights : List F
  links : List (Link F)

namespace Instance

open Text

variable {F : Type}

/-- There are numbers for the vertices and for one artificial arc for each of them next to the links. -/
def Fits (i : Instance F) : Prop :=
  i.weights.length + i.links.length < idLimit

def network [Amount F] (i : Instance F) : Network F :=
  ⟨0, "", i.weights.toArray.mapIdx Builder.vertex, i.links.toArray.mapIdx Builder.arc⟩

/-! ## Lines as they should be -/

/-- The line is the number `n`. -/
def SaysCount (l : Line) (n : Nat) : Prop :=
  ∃ k w, l = .words k w [] ∧ Numeral.Count w n

section
variable [Numeral F]

/-- The line is the values `xs`. Integers are the numerals of `Numeral.read_eq_ok_iff`. -/
def SaysWeights (l : Line) (xs : List F) : Prop :=
  ∃ k w ws, l = .words k w ws ∧ List.Forall₂ (fun w x => Numeral.read w = .ok x) (w :: ws) xs

/-- The line is a link of two different ones of `n` vertices. -/
def SaysLink (n : Nat) (l : Line) (e : Link F) : Prop :=
  ∃ k u v c, l = .words k u [v, c] ∧ Numeral.Count u e.src.index ∧ Numeral.Count v e.snk.index ∧
    Numeral.read c = .ok e.cost ∧ e.Joins n

/-- The lines are the number of vertices, their weights and the links. -/
inductive Says : List Line → Instance F → Prop where
  | intro {first second : Line} {ls : List Line} {xs : List F} {links : List (Link F)}
      (count : SaysCount first xs.length) (weights : SaysWeights second xs)
      (joins : List.Forall₂ (SaysLink xs.length) ls links) : Says (first :: second :: ls) ⟨xs, links⟩

end

/-! ## Lines that offend -/

/-- Why `read` refuses a word, if it does. -/
def refusal {α : Type} (read : Word → Except NumeralError α) (w : Word) : Option NumeralError :=
  match read w with
  | .ok _ => none
  | .error cause => some cause

/-- The words are not one number for each of the refusals, and `e` is the first thing wrong with them. -/
inductive Breaks : List (Word → Option NumeralError) → List Word → FormatError → Prop where
  | missing {t ts} : Breaks (t :: ts) [] .missingNumber
  | surplus {w ws} : Breaks [] (w :: ws) (.surplusWord w)
  | invalid {t ts w ws cause} : t w = some cause → Breaks (t :: ts) (w :: ws) (.invalidNumber w cause)
  | later {t ts w ws e} : t w = none → Breaks ts ws e → Breaks (t :: ts) (w :: ws) e

/-- The line is not text, its words have the wrong format, or they have the right one and contradict what is known. -/
inductive Offends (format : List Word → FormatError → Prop) (data : List Word → DataError → Prop) :
    Line → ReadError → Prop where
  | access : Offends format data .malformed (.access .invalidUtf8)
  | format {k w ws e} : format (w :: ws) e → Offends format data (.words k w ws) (.format k e)
  | data {k w ws e} : data (w :: ws) e → Offends format data (.words k w ws) (.data k e)

def OffendsCount : Line → ReadError → Prop :=
  Offends (Breaks [refusal Numeral.readCount]) fun _ _ => False

section
variable (F) [Numeral F]

/-- The line should be the values of `n` vertices. -/
def OffendsWeights (n : Nat) : Line → ReadError → Prop :=
  Offends (fun ws => Breaks (List.replicate ws.length (refusal (Numeral.read (F := F)))) ws)
    fun ws e => ∃ xs : List F, List.Forall₂ (fun w x => Numeral.read w = .ok x) ws xs ∧
      xs.length ≠ n ∧ e = .weightCount n xs.length

/-- The vertices `u` and `v` do not make a link of `n` vertices. -/
inductive BadEnds (n : Nat) : Nat → Nat → DataError → Prop where
  | source {u v} : n ≤ u → BadEnds n u v (.unknownVertex u n)
  | sink {u v} : u < n → n ≤ v → BadEnds n u v (.unknownVertex v n)
  | loop {u} : u < n → BadEnds n u u (.loop u)

/-- The line should be a link of `n` vertices. -/
def OffendsLink (n : Nat) : Line → ReadError → Prop :=
  Offends (Breaks [refusal Numeral.readCount, refusal Numeral.readCount, refusal (Numeral.read (F := F))])
    fun ws e => ∃ u v c x y, ∃ cost : F, ws = [u, v, c] ∧ Numeral.Count u x ∧ Numeral.Count v y ∧
      Numeral.read c = .ok cost ∧ BadEnds n x y e

/-- The lines before the first one that offends are in order. -/
inductive Fails : List Line → ReadError → Prop where
  | noCount : Fails [] (.format 0 (.endOfFile "number of vertices"))
  | count {l ls e} : OffendsCount l e → Fails (l :: ls) e
  | noWeights {n k w ws} : SaysCount (.words k w ws) n → Fails [.words k w ws] (.format k (.endOfFile "vertex weights"))
  | weights {n l₁ l₂ ls e} : SaysCount l₁ n → OffendsWeights F n l₂ e → Fails (l₁ :: l₂ :: ls) e
  | link {i : Instance F} {before l after e} : Says before i → i.Fits → OffendsLink F i.weights.length l e →
      Fails (before ++ l :: after) e

end

/-! ## Every line says something or offends -/

theorem refusal_eq_none_iff {α : Type} {read : Word → Except NumeralError α} {w : Word} :
    refusal read w = none ↔ ∃ x, read w = .ok x := by
  unfold refusal
  cases read w <;> simp

theorem refusal_eq_some_iff {α : Type} {read : Word → Except NumeralError α} {w : Word} {cause : NumeralError} :
    refusal read w = some cause ↔ read w = .error cause := by
  unfold refusal
  cases read w <;> simp

/-- Words either are the numbers that are expected or break the format. -/
theorem fit_or_breaks (ts : List (Word → Option NumeralError)) (ws : List Word) :
    List.Forall₂ (fun t w => t w = none) ts ws ∨ ∃ e, Breaks ts ws e := by
  induction ts generalizing ws with
  | nil =>
    cases ws with
    | nil => exact .inl .nil
    | cons w ws => exact .inr ⟨_, .surplus⟩
  | cons t ts ih =>
    cases ws with
    | nil => exact .inr ⟨_, .missing⟩
    | cons w ws =>
      cases hw : t w with
      | some cause => exact .inr ⟨_, .invalid hw⟩
      | none =>
        rcases ih ws with h | ⟨e, h⟩
        · exact .inl (.cons hw h)
        · exact .inr ⟨e, .later hw h⟩

theorem says_or_offends_count (l : Line) : (∃ n, SaysCount l n) ∨ ∃ e, OffendsCount l e := by
  cases l with
  | malformed => exact .inr ⟨_, .access⟩
  | words k w ws =>
    rcases fit_or_breaks [refusal Numeral.readCount] (w :: ws) with h | ⟨e, h⟩
    · obtain ⟨hw, hws⟩ := List.forall₂_cons.1 h
      cases hws
      obtain ⟨n, hn⟩ := refusal_eq_none_iff.1 hw
      exact .inl ⟨n, k, w, rfl, Numeral.readCount_eq_ok_iff.1 hn⟩
    · exact .inr ⟨_, .format h⟩

theorem ends_or_bad (n x y : Nat) : (x < n ∧ y < n ∧ x ≠ y) ∨ ∃ e, BadEnds n x y e := by
  by_cases hx : x < n
  · by_cases hy : y < n
    · by_cases hxy : x = y
      · subst hxy
        exact .inr ⟨_, .loop hx⟩
      · exact .inl ⟨hx, hy, hxy⟩
    · exact .inr ⟨_, .sink hx (Nat.le_of_not_lt hy)⟩
  · exact .inr ⟨_, .source (Nat.le_of_not_lt hx)⟩

section
variable [Numeral F]

theorem exists_values {ws : List Word}
    (h : List.Forall₂ (fun t w => t w = none) (List.replicate ws.length (refusal (Numeral.read (F := F)))) ws) :
    ∃ xs : List F, List.Forall₂ (fun w x => Numeral.read w = .ok x) ws xs := by
  induction ws with
  | nil => exact ⟨[], .nil⟩
  | cons w ws ih =>
    obtain ⟨hw, hws⟩ := List.forall₂_cons.1 h
    obtain ⟨x, hx⟩ := refusal_eq_none_iff.1 hw
    obtain ⟨xs, hxs⟩ := ih hws
    exact ⟨x :: xs, .cons hx hxs⟩

theorem says_or_offends_weights (n : Nat) (l : Line) :
    (∃ xs : List F, SaysWeights l xs ∧ xs.length = n) ∨ ∃ e, OffendsWeights F n l e := by
  cases l with
  | malformed => exact .inr ⟨_, .access⟩
  | words k w ws =>
    rcases fit_or_breaks (List.replicate (w :: ws).length (refusal (Numeral.read (F := F)))) (w :: ws) with h | ⟨e, h⟩
    · obtain ⟨xs, hxs⟩ := exists_values h
      by_cases hn : xs.length = n
      · exact .inl ⟨xs, ⟨k, w, ws, rfl, hxs⟩, hn⟩
      · exact .inr ⟨_, .data ⟨xs, hxs, hn, rfl⟩⟩
    · exact .inr ⟨_, .format h⟩

theorem says_or_offends_link (n : Nat) (l : Line) : (∃ e : Link F, SaysLink n l e) ∨ ∃ e, OffendsLink F n l e := by
  cases l with
  | malformed => exact .inr ⟨_, .access⟩
  | words k w ws =>
    rcases fit_or_breaks [refusal Numeral.readCount, refusal Numeral.readCount, refusal (Numeral.read (F := F))] (w :: ws)
      with h | ⟨e, h⟩
    · obtain ⟨hu, hws⟩ := List.forall₂_cons.1 h
      obtain ⟨v, ws', hv, hws', rfl⟩ := List.forall₂_cons_left_iff.1 hws
      obtain ⟨c, ws'', hc, hnil, rfl⟩ := List.forall₂_cons_left_iff.1 hws'
      cases hnil
      obtain ⟨x, hx⟩ := refusal_eq_none_iff.1 hu
      obtain ⟨y, hy⟩ := refusal_eq_none_iff.1 hv
      obtain ⟨cost, hcost⟩ := refusal_eq_none_iff.1 hc
      have hx' := Numeral.readCount_eq_ok_iff.1 hx
      have hy' := Numeral.readCount_eq_ok_iff.1 hy
      rcases ends_or_bad n x y with ⟨hxn, hyn, hxy⟩ | ⟨e, he⟩
      · exact .inl ⟨⟨⟨x⟩, ⟨y⟩, cost⟩, k, w, v, c, rfl, hx', hy', hcost, hxn, hyn, by simpa using hxy⟩
      · exact .inr ⟨_, .data ⟨w, v, c, x, y, cost, rfl, hx', hy', hcost, he⟩⟩
    · exact .inr ⟨_, .format h⟩

/-- Lines either say links or have a first one that does not. -/
theorem links_or_offends (n : Nat) (ls : List Line) :
    (∃ links : List (Link F), List.Forall₂ (SaysLink n) ls links) ∨
      ∃ (before : List Line) (l : Line) (after : List Line) (links : List (Link F)) (e : ReadError),
        ls = before ++ l :: after ∧ List.Forall₂ (SaysLink n) before links ∧ OffendsLink F n l e := by
  induction ls with
  | nil => exact .inl ⟨[], .nil⟩
  | cons l ls ih =>
    rcases says_or_offends_link (F := F) n l with ⟨link, hlink⟩ | ⟨e, he⟩
    · rcases ih with ⟨links, h⟩ | ⟨before, l', after, links, e, rfl, h, he⟩
      · exact .inl ⟨link :: links, .cons hlink h⟩
      · exact .inr ⟨l :: before, l', after, link :: links, e, rfl, .cons hlink h, he⟩
    · exact .inr ⟨[], l, ls, [], e, rfl, .nil, he⟩

/-- Lines say an instance, or fail, or say too much. -/
theorem says_or_fails (ls : List Line) :
    (∃ i : Instance F, Says ls i ∧ i.Fits) ∨ (∃ e, Fails F ls e) ∨
      ∃ (before after : List Line) (i : Instance F), ls = before ++ after ∧ Says before i ∧ ¬ i.Fits := by
  match ls with
  | [] => exact .inr (.inl ⟨_, .noCount⟩)
  | first :: ls =>
    rcases says_or_offends_count first with ⟨n, hn⟩ | ⟨e, he⟩
    · match ls with
      | [] =>
        obtain ⟨k, w, rfl, hw⟩ := hn
        exact .inr (.inl ⟨_, .noWeights ⟨k, w, rfl, hw⟩⟩)
      | second :: ls =>
        rcases says_or_offends_weights (F := F) n second with ⟨xs, hxs, rfl⟩ | ⟨e, he⟩
        · rcases links_or_offends (F := F) xs.length ls with ⟨links, h⟩ | ⟨before, l, after, links, e, rfl, h, he⟩
          · by_cases hfit : Fits ⟨xs, links⟩
            · exact .inl ⟨_, ⟨hn, hxs, h⟩, hfit⟩
            · exact .inr (.inr ⟨_, [], _, (List.append_nil _).symm, ⟨hn, hxs, h⟩, hfit⟩)
          · have hsays : Says (first :: second :: before) ⟨xs, links⟩ := ⟨hn, hxs, h⟩
            by_cases hfit : Fits ⟨xs, links⟩
            · exact .inr (.inl ⟨e, .link hsays hfit he⟩)
            · exact .inr (.inr ⟨_, l :: after, _, rfl, hsays, hfit⟩)
        · exact .inr (.inl ⟨e, .weights hn he⟩)
    · exact .inr (.inl ⟨e, .count he⟩)

end

end Instance

end Transportation
