import Mathlib.Data.List.Forall2
import Transportation.Fault
/-!
# Loops that may fault

What holds before a loop and is kept by every round holds after a loop that did not fault (`foldlM_induction`).
The rounds already done are named, so that an invariant can speak of them.
-/

namespace Transportation.Checked

variable {α β : Type}

@[simp] theorem ok_bind {a : α} {f : α → Checked β} : ((Except.ok a : Checked α) >>= f) = f a := rfl

theorem bind_eq_error {x : Checked α} {f : α → Checked β} {e : Fault} (h : (x >>= f) = .error e) :
    x = .error e ∨ ∃ a, x = .ok a ∧ f a = .error e := by
  cases x with
  | error e' =>
    cases h
    exact .inl rfl
  | ok a => exact .inr ⟨a, rfl, h⟩

theorem get_map {f : α → β} (xs : Array α) (i : Nat) : get (xs.map f) i = (get xs i).map f := by
  unfold get
  by_cases hi : i < xs.size <;> simp [hi, pure, Except.pure, Except.map, throw, throwThe, MonadExceptOf.throw]

/-- A computation on what two look-ups have in common. -/
theorem bind_congr_of_map {γ : Type} {x y : Checked α} {f : α → γ} {k : α → Checked β} {m : γ → Checked β}
    (h : y.map f = x.map f) (hk : ∀ a, k a = m (f a)) : y >>= k = x >>= k := by
  have key : ∀ z : Checked α, z >>= k = z.map f >>= m := by
    intro z
    cases z with
    | error => rfl
    | ok a => exact hk a
  rw [key, key x, h]

theorem foldlM_cons_eq_ok_iff {f : β → α → Checked β} {a : α} {l : List α} {b c : β} :
    (a :: l).foldlM f b = .ok c ↔ ∃ d, f b a = .ok d ∧ l.foldlM f d = .ok c := by
  rw [List.foldlM_cons, bind_eq_ok_iff]

/-- An invariant of the elements done and the result so far holds at the end of a loop. -/
theorem foldlM_induction {f : β → α → Checked β} {l : List α} {b c : β} (P : List α → β → Prop)
    (h : l.foldlM f b = .ok c) (nil : P [] b)
    (snoc : ∀ done a x y, (∃ rest, l = done ++ a :: rest) → P done x → f x a = .ok y → P (done ++ [a]) y) : P l c := by
  have main : ∀ (rest done : List α) (x : β), l = done ++ rest → P done x → rest.foldlM f x = .ok c → P l c := by
    intro rest
    induction rest with
    | nil =>
      intro done x hl hx hc
      cases hc
      simpa [hl] using hx
    | cons a rest ih =>
      intro done x hl hx hc
      obtain ⟨y, hy, hc⟩ := foldlM_cons_eq_ok_iff.1 hc
      exact ih (done ++ [a]) y (by simp [hl]) (snoc done a x y ⟨rest, hl⟩ hx hy) hc
  exact main l [] b rfl nil h

/-- What every round keeps is kept by the loop. -/
theorem foldlM_keeps {f : β → α → Checked β} {l : List α} {b c : β} (P : β → Prop) (h : l.foldlM f b = .ok c)
    (hb : P b) (hP : ∀ a ∈ l, ∀ x y, P x → f x a = .ok y → P y) : P c := by
  refine foldlM_induction (fun _ => P) h hb ?_
  rintro done a x y ⟨rest, rfl⟩ hx hy
  exact hP a (by simp) x y hx hy

/-- A loop on what `φ` makes of the start, if `φ` may as well come after a round as before it. -/
theorem foldlM_comm {f : β → α → Checked β} {φ : β → β} (h : ∀ b a, f (φ b) a = (f b a).map φ) (l : List α) (b : β) :
    l.foldlM f (φ b) = (l.foldlM f b).map φ := by
  induction l generalizing b with
  | nil => rfl
  | cons a l ih =>
    rw [List.foldlM_cons, List.foldlM_cons, h]
    cases f b a with
    | error => rfl
    | ok c => exact ih c

/-- A loop faults as one of its rounds does. -/
theorem exists_of_foldlM_error {f : β → α → Checked β} {l : List α} {b : β} {e : Fault}
    (h : l.foldlM f b = .error e) : ∃ a ∈ l, ∃ x, f x a = .error e := by
  induction l generalizing b with
  | nil => cases h
  | cons a l ih =>
    rw [List.foldlM_cons] at h
    cases hb : f b a with
    | error e' =>
      rw [hb] at h
      cases h
      exact ⟨a, List.mem_cons_self, b, hb⟩
    | ok c =>
      rw [hb] at h
      obtain ⟨a', ha, x, hx⟩ := ih h
      exact ⟨a', List.mem_cons_of_mem _ ha, x, hx⟩

theorem mapM_eq_ok {f : α → Checked β} {l : List α} {l' : List β} (h : l.mapM f = .ok l') :
    List.Forall₂ (fun a b => f a = .ok b) l l' := by
  induction l generalizing l' with
  | nil => rw [List.mapM_nil] at h; cases h; exact .nil
  | cons a l ih =>
    rw [List.mapM_cons, bind_eq_ok_iff] at h
    obtain ⟨b, hb, h⟩ := h
    obtain ⟨bs, hbs, h⟩ := bind_eq_ok_iff.1 h
    cases h
    exact .cons hb (ih hbs)

theorem mapM_congr {f f' : α → Checked β} {l : List α} (h : ∀ a ∈ l, f a = f' a) : l.mapM f = l.mapM f' := by
  induction l with
  | nil => rfl
  | cons a l ih =>
    rw [List.mapM_cons, List.mapM_cons, h a List.mem_cons_self, ih fun b hb => h b (List.mem_cons_of_mem _ hb)]

theorem mapM_of_forall {f : α → Checked β} {k : α → β} {l : List α} (h : ∀ a ∈ l, f a = .ok (k a)) :
    l.mapM f = .ok (l.map k) := by
  induction l with
  | nil => rfl
  | cons a l ih =>
    rw [List.mapM_cons, bind_eq_ok_iff]
    refine ⟨k a, h a List.mem_cons_self, bind_eq_ok_iff.2 ⟨_, ih fun b hb => h b (List.mem_cons_of_mem _ hb), rfl⟩⟩

/-- What is made out of a list is made out of one of its elements. -/
theorem exists_of_forall₂ {R : α → β → Prop} {l : List α} {l' : List β} (h : List.Forall₂ R l l') {b : β}
    (hb : b ∈ l') : ∃ a ∈ l, R a b := by
  induction h with
  | nil => cases hb
  | @cons a _ _ _ hR _ ih =>
    rcases List.mem_cons.1 hb with rfl | hb
    · exact ⟨a, List.mem_cons_self, hR⟩
    · obtain ⟨a, ha, hR⟩ := ih hb
      exact ⟨a, List.mem_cons_of_mem _ ha, hR⟩

end Transportation.Checked
