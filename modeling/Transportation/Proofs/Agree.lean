import Transportation.Proofs.Faults
/-!
# Two computations side by side

Two computations of the same shape on related data end `Alike`, or one of them faults in a way that is of no account
(`Checked.Agree`). Sequences agree step by step, and loops round by round over lists of related elements.
-/

namespace Transportation

/-- Both end with the same error, or both have results and these are related. -/
inductive Alike {ε α β : Type} (R : α → β → Prop) : Except ε α → Except ε β → Prop
  | error (e : ε) : Alike R (.error e) (.error e)
  | ok {a : α} {b : β} (h : R a b) : Alike R (.ok a) (.ok b)

theorem Alike.eq {ε α : Type} {x y : Except ε α} (h : Alike Eq x y) : y = x := by
  cases h with
  | error e => rfl
  | ok h => rw [h]

theorem Alike.mono {ε α β : Type} {R R' : α → β → Prop} {x : Except ε α} {y : Except ε β} (h : Alike R x y)
    (hR : ∀ a b, R a b → R' a b) : Alike R' x y := by
  cases h with
  | error e => exact .error e
  | ok h => exact .ok (hR _ _ h)

theorem Alike.refl {ε α : Type} (x : Except ε α) : Alike Eq x x := by
  cases x with
  | error e => exact .error e
  | ok a => exact .ok rfl

namespace Checked

variable {α α' β β' : Type} {P : Fault → Prop} {R : α → α' → Prop} {S : β → β' → Prop} {x : Checked α}
  {y : Checked α'}

/-- Unless one of the computations ends with a fault of the kind `P`, they end alike. -/
def Agree (P : Fault → Prop) (R : α → α' → Prop) (x : Checked α) (y : Checked α') : Prop :=
  FaultsOnly (fun e => ¬ P e) x → FaultsOnly (fun e => ¬ P e) y → Alike R x y

/-- If no fault is of that kind, they end alike. -/
theorem agree_false_iff : Agree (fun _ => False) R x y ↔ Alike R x y :=
  ⟨fun h => h (fun _ _ => not_false) fun _ _ => not_false, fun h _ _ => h⟩

namespace Agree

theorem pure {a : α} {b : α'} (h : R a b) : Agree P R (pure a : Checked α) (pure b) :=
  fun _ _ => .ok h

theorem of_eq {x y : Checked α} (h : y = x) : Agree P Eq x y := by
  subst h
  exact fun _ _ => .refl y

theorem mono {R' : α → α' → Prop} (h : Agree P R x y) (hR : ∀ a b, R a b → R' a b) : Agree P R' x y :=
  fun hx hy => Alike.mono (h hx hy) hR

/-- Computations that can fault only so agree if their results do. -/
theorem of_faultsOnly (hx : FaultsOnly P x) (hy : FaultsOnly P y) (h : ∀ a b, x = .ok a → y = .ok b → R a b) :
    Agree P R x y := by
  intro hx' hy'
  cases x with
  | error e => exact absurd (hx e rfl) (hx' e rfl)
  | ok a =>
    cases y with
    | error e => exact absurd (hy e rfl) (hy' e rfl)
    | ok b => exact .ok (h a b rfl rfl)

theorem bind {f : α → Checked β} {f' : α' → Checked β'} (h : Agree P R x y)
    (hf : ∀ a b, R a b → Agree P S (f a) (f' b)) : Agree P S (x >>= f) (y >>= f') := by
  intro hx hy
  cases h (fun e he => hx e (by rw [he]; rfl)) fun e he => hy e (by rw [he]; rfl) with
  | error e => exact .error e
  | ok hab => exact hf _ _ hab hx hy

theorem map {f : α → β} {f' : α' → β'} (h : Agree P R x y) (hf : ∀ a b, R a b → S (f a) (f' b)) :
    Agree P S (x.map f) (y.map f') := by
  intro hx hy
  cases h (fun e he => hx e (by rw [he]; rfl)) fun e he => hy e (by rw [he]; rfl) with
  | error e => exact .error e
  | ok hab => exact .ok (hf _ _ hab)

/-- The same condition before both. -/
theorem require_bind {p : Prop} [Decidable p] {e : Fault} {f : Unit → Checked β} {f' : Unit → Checked β'}
    (hf : p → Agree P S (f ()) (f' ())) : Agree P S (require p e >>= f) (require p e >>= f') := by
  unfold require
  split
  · next h => exact hf h
  · exact fun _ _ => .error e

/-! ## Look-ups -/

theorem forall₂_modify {l : List α} {l' : List α'} (h : List.Forall₂ R l l') {f : α → α} {f' : α' → α'}
    (hf : ∀ a b, R a b → R (f a) (f' b)) (i : Nat) : List.Forall₂ R (l.modify i f) (l'.modify i f') := by
  induction h generalizing i with
  | nil => simp
  | cons hR h ih =>
    cases i with
    | zero => exact .cons (hf _ _ hR) h
    | succ i => exact .cons hR (ih i)

theorem get {xs : Array α} {ys : Array α'} (h : List.Forall₂ R xs.toList ys.toList) (i : Nat) :
    Agree P R (get xs i) (get ys i) := by
  have hsize : xs.size = ys.size := by simpa using h.length_eq
  unfold Checked.get
  by_cases hi : i < xs.size
  · rw [dif_pos hi, dif_pos (hsize ▸ hi)]
    exact .pure (List.Forall₂.get h (by simpa using hi) (by simpa [← hsize] using hi))
  · rw [dif_neg hi, dif_neg (hsize ▸ hi), hsize]
    exact fun _ _ => .error _

theorem modify {xs : Array α} {ys : Array α'} (h : List.Forall₂ R xs.toList ys.toList) {f : α → α} {f' : α' → α'}
    (hf : ∀ a b, R a b → R (f a) (f' b)) (i : Nat) :
    Agree P (fun xs ys => List.Forall₂ R xs.toList ys.toList) (modify xs i f) (modify ys i f') := by
  have hsize : xs.size = ys.size := by simpa using h.length_eq
  unfold Checked.modify
  rw [hsize]
  split
  · refine .pure ?_
    simp only [Array.toList_modify]
    exact forall₂_modify h hf i
  · exact fun _ _ => .error _

/-! ## Loops -/

theorem foldlM {f : β → α → Checked β} {f' : β' → α' → Checked β'} {l : List α} {l' : List α'} {b : β} {b' : β'}
    (hl : List.Forall₂ R l l') (hb : S b b') (hf : ∀ a a' c c', R a a' → S c c' → Agree P S (f c a) (f' c' a')) :
    Agree P S (l.foldlM f b) (l'.foldlM f' b') := by
  induction hl generalizing b b' with
  | nil => exact pure hb
  | cons ha _ ih =>
    rw [List.foldlM_cons, List.foldlM_cons]
    exact (hf _ _ _ _ ha hb).bind fun _ _ hc => ih hc

/-- Loops over one list. -/
theorem foldlM_same {f : β → α → Checked β} {f' : β' → α → Checked β'} {l : List α} {b : β} {b' : β'} (hb : S b b')
    (hf : ∀ a c c', S c c' → Agree P S (f c a) (f' c' a)) : Agree P S (l.foldlM f b) (l.foldlM f' b') :=
  foldlM (R := Eq) (List.forall₂_refl l) hb fun a a' c c' ha hc => by
    subst ha
    exact hf a c c' hc

theorem mapM {f : α → Checked β} {f' : α' → Checked β'} {l : List α} {l' : List α'} (hl : List.Forall₂ R l l')
    (hf : ∀ a a', R a a' → Agree P S (f a) (f' a')) : Agree P (List.Forall₂ S) (l.mapM f) (l'.mapM f') := by
  induction hl with
  | nil => exact pure .nil
  | cons ha _ ih =>
    rw [List.mapM_cons, List.mapM_cons]
    exact (hf _ _ ha).bind fun _ _ hb => ih.bind fun _ _ hbs => pure (.cons hb hbs)

end Agree

end Checked

end Transportation
