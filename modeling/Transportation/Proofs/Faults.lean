import Mathlib.Algebra.Order.Ring.Int
import Transportation.Amount.Signed
import Transportation.Proofs.Checked
/-!
# Which faults can occur

A computation that can fault with faults of a kind only (`Checked.FaultsOnly`). If no fault is of that kind, it does
not fault at all (`exists_ok`). A sequence can fault as its steps can, each on what the steps before it yield.
-/

namespace Transportation

namespace Checked

variable {α β : Type} {P : Fault → Prop} {x : Checked α}

/-- If the computation faults, then with a fault of the kind `P`. -/
def FaultsOnly (P : Fault → Prop) (x : Checked α) : Prop :=
  ∀ e, x = .error e → P e

namespace FaultsOnly

theorem exists_ok (h : FaultsOnly (fun _ => False) x) : ∃ a, x = .ok a := by
  cases x with
  | ok a => exact ⟨a, rfl⟩
  | error e => exact (h e rfl).elim

theorem of_ok {a : α} (h : x = .ok a) : FaultsOnly P x := by
  rintro e he
  rw [h] at he
  cases he

theorem pure (a : α) : FaultsOnly P (pure a : Checked α) :=
  of_ok rfl

theorem bind {f : α → Checked β} (hx : FaultsOnly P x) (hf : ∀ a, x = .ok a → FaultsOnly P (f a)) :
    FaultsOnly P (x >>= f) := by
  intro e he
  rcases bind_eq_error he with he | ⟨a, ha, he⟩
  · exact hx e he
  · exact hf a ha e he

/-- The condition before the rest holds. -/
theorem require_bind {p : Prop} [Decidable p] {fault : Fault} {f : Unit → Checked β} (hp : p)
    (hf : FaultsOnly P (f ())) : FaultsOnly P (require p fault >>= f) := by
  rw [require, if_pos hp]
  exact hf

theorem get {xs : Array α} {i : Nat} (hi : i < xs.size) : FaultsOnly P (get xs i) :=
  of_ok (get_eq_ok_iff.2 (Array.getElem?_eq_getElem hi))

theorem modify {xs : Array α} {i : Nat} {f : α → α} (hi : i < xs.size) : FaultsOnly P (modify xs i f) :=
  of_ok (modify_eq_ok_iff.2 ⟨hi, rfl⟩)

/-- A loop can fault as its rounds can, on what the rounds before yield. -/
theorem foldlM {f : β → α → Checked β} {l : List α} {b : β}
    (h : ∀ done a rest c, l = done ++ a :: rest → done.foldlM f b = .ok c → FaultsOnly P (f c a)) :
    FaultsOnly P (l.foldlM f b) := by
  induction l generalizing b with
  | nil => exact pure b
  | cons a l ih =>
    rw [List.foldlM_cons]
    refine bind (h [] a l b rfl rfl) fun c hc => ih fun done a' rest d hl hd => ?_
    exact h (a :: done) a' rest d (by rw [hl]; rfl) (foldlM_cons_eq_ok_iff.2 ⟨c, hc, hd⟩)

/-- If every round can fault as stated and keeps an invariant, so can the loop. -/
theorem foldlM_of_invariant {f : β → α → Checked β} {l : List α} {b : β} (I : β → Prop) (hb : I b)
    (h : ∀ a ∈ l, ∀ c, I c → FaultsOnly P (f c a)) (hI : ∀ a ∈ l, ∀ c d, I c → f c a = .ok d → I d) :
    FaultsOnly P (l.foldlM f b) := by
  refine foldlM fun done a rest c hl hc => h a (by simp [hl]) c ?_
  exact foldlM_keeps I hc hb fun a' ha' => hI a' (by simp [hl, ha'])

theorem mapM {f : α → Checked β} {l : List α} (h : ∀ a ∈ l, FaultsOnly P (f a)) : FaultsOnly P (l.mapM f) := by
  induction l with
  | nil => exact pure []
  | cons a l ih =>
    obtain ⟨ha, hl⟩ := List.forall_mem_cons.1 h
    rw [List.mapM_cons]
    exact bind ha fun b _ => bind (ih hl) fun bs _ => pure _

end FaultsOnly

end Checked

/-! ## Results in range -/

namespace Signed

open Checked

variable {max : Nat} {P : Fault → Prop} {a b : Signed max}

theorem faultsOnly_checked {op : Operation} {x : Int} (hlower : -(max + 1 : Int) ≤ x) (hupper : x ≤ max) :
    FaultsOnly P (checked op x : Checked (Signed max)) :=
  .of_ok (checked_eq_ok_iff.2 (show (⟨x, hlower, hupper⟩ : Signed max).val = x from rfl))

variable [NeZero max]

theorem faultsOnly_add (hlower : -(max + 1 : Int) ≤ a.val + b.val) (hupper : a.val + b.val ≤ max) :
    FaultsOnly P (Amount.add a b) :=
  faultsOnly_checked hlower hupper

theorem faultsOnly_sub (hlower : -(max + 1 : Int) ≤ a.val - b.val) (hupper : a.val - b.val ≤ max) :
    FaultsOnly P (Amount.sub a b) :=
  faultsOnly_checked hlower hupper

theorem faultsOnly_mul (hlower : -(max + 1 : Int) ≤ a.val * b.val) (hupper : a.val * b.val ≤ max) :
    FaultsOnly P (Amount.mul a b) :=
  faultsOnly_checked hlower hupper

theorem faultsOnly_neg (h : -(max : Int) ≤ a.val) : FaultsOnly P (Amount.neg a) := by
  have := a.lower
  exact faultsOnly_checked (by have := a.upper; omega) (by omega)

theorem faultsOnly_abs (h : -(max : Int) ≤ a.val) : FaultsOnly P (Amount.abs a) := by
  show FaultsOnly P (if a.val < 0 then checked .neg (-a.val) else Pure.pure a)
  split
  · exact faultsOnly_neg h
  · exact .pure a

/-- A quotient by what is positive is nearer to zero. -/
theorem faultsOnly_div (ha : 0 ≤ a.val) (hb : 0 < b.val) : FaultsOnly P (Amount.div a b) := by
  show FaultsOnly P (div a b)
  rw [div, if_neg (by omega)]
  have hle := Int.tdiv_le_self b.val ha
  have hnonneg := Int.tdiv_nonneg ha (Int.le_of_lt hb)
  exact faultsOnly_checked (by omega) (Int.le_trans hle a.upper)

end Signed

end Transportation
