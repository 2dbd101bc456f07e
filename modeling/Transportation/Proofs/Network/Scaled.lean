import Mathlib.Tactic.Ring
import Transportation.Proofs.Agree
import Transportation.Proofs.Amount
import Transportation.Proofs.Network.Circulation
import Transportation.Proofs.Simplex.Star
import Transportation.Proofs.Tree.Congruence
import Transportation.Simplex.Solve
/-!
# Scaled networks

A network is `k` times another if its weights and flows are `k` times as large and all else is the same. Every change
that the solver makes to one of them, made to both, leaves networks of which one is `k` times the other, unless there
is an overflow. Comparisons of flows come out the same, since there is no tolerance and `k` is positive.
-/

namespace Transportation

open Checked
open Fault (IsOverflow)

section
variable {α β γ δ : Type} {R : α → β → Prop}

theorem forall₂_zipWith {l : List α} {l' : List β} (h : List.Forall₂ R l l') {f : α → γ → α} {f' : β → γ → β}
    (hf : ∀ a b c, R a b → R (f a c) (f' b c)) (cs : List γ) :
    List.Forall₂ R (List.zipWith f l cs) (List.zipWith f' l' cs) := by
  induction h generalizing cs with
  | nil => simp
  | cons hR _ ih =>
    cases cs with
    | nil => simp
    | cons c cs => exact .cons (hf _ _ c hR) (ih cs)

theorem countP_eq_of_forall₂ {l : List α} {l' : List β} (h : List.Forall₂ R l l') {p : α → Bool} {q : β → Bool}
    (hpq : ∀ a b, R a b → q b = p a) : l'.countP q = l.countP p := by
  induction h with
  | nil => rfl
  | cons hR _ ih => rw [List.countP_cons, List.countP_cons, ih, hpq _ _ hR]

/-- What looks the same in related elements looks the same in the lists. -/
theorem map_eq_of_forall₂ {l : List α} {l' : List β} (h : List.Forall₂ R l l') {f : α → γ} {f' : β → γ}
    (hf : ∀ a b, R a b → f' b = f a) : l'.map f' = l.map f := by
  have hmap : List.Forall₂ (· = ·) (l.map f) (l'.map f') :=
    List.forall₂_map_left_iff.2 (List.forall₂_map_right_iff.2 (h.imp fun a b hR => (hf a b hR).symm))
  rw [List.forall₂_eq_eq_eq] at hmap
  exact hmap.symm

end

variable {max : Nat} [NeZero max] {k : Int}

theorem Signed.lt_of_scaled (hk : 0 < k) {x y x' y' : Signed max} (hx : x'.val = k * x.val) (hy : y'.val = k * y.val) :
    Amount.lt x' y' = Amount.lt x y := by
  rw [Bool.eq_iff_iff, Signed.lt_iff, Signed.lt_iff, hx, hy]
  exact Int.mul_lt_mul_left hk

theorem Signed.le_of_scaled (hk : 0 < k) {x y x' y' : Signed max} (hx : x'.val = k * x.val) (hy : y'.val = k * y.val) :
    Amount.le x' y' = Amount.le x y := by
  rw [Bool.eq_iff_iff, Signed.le_iff, Signed.le_iff, hx, hy]
  exact Int.mul_le_mul_left hk

theorem Signed.agree_add {x y x' y' : Signed max} (hx : x'.val = k * x.val) (hy : y'.val = k * y.val) :
    Agree IsOverflow (fun z z' => z'.val = k * z.val) (Amount.add x y) (Amount.add x' y') := by
  refine .of_faultsOnly (LawfulAmount.add _ _) (LawfulAmount.add _ _) fun z z' hz hz' => ?_
  rw [Signed.add_eq_ok_iff.1 hz, Signed.add_eq_ok_iff.1 hz', hx, hy]
  ring

theorem Signed.agree_sub {x y x' y' : Signed max} (hx : x'.val = k * x.val) (hy : y'.val = k * y.val) :
    Agree IsOverflow (fun z z' => z'.val = k * z.val) (Amount.sub x y) (Amount.sub x' y') := by
  refine .of_faultsOnly (LawfulAmount.sub _ _) (LawfulAmount.sub _ _) fun z z' hz hz' => ?_
  rw [Signed.sub_eq_ok_iff.1 hz, Signed.sub_eq_ok_iff.1 hz', hx, hy]
  ring

theorem Signed.agree_neg {x x' : Signed max} (hx : x'.val = k * x.val) :
    Agree IsOverflow (fun z z' => z'.val = k * z.val) (Amount.neg x) (Amount.neg x') := by
  refine .of_faultsOnly (LawfulAmount.neg _) (LawfulAmount.neg _) fun z z' hz hz' => ?_
  rw [Signed.neg_eq_ok_iff.1 hz, Signed.neg_eq_ok_iff.1 hz', hx]
  ring

/-- A cost times the flow. -/
theorem Signed.agree_mul (c : Signed max) {x x' : Signed max} (hx : x'.val = k * x.val) :
    Agree IsOverflow (fun z z' => z'.val = k * z.val) (Amount.mul c x) (Amount.mul c x') := by
  refine .of_faultsOnly (LawfulAmount.mul _ _) (LawfulAmount.mul _ _) fun z z' hz hz' => ?_
  rw [Signed.mul_eq_ok_iff.1 hz, Signed.mul_eq_ok_iff.1 hz', hx]
  ring

omit [NeZero max] in
/-- Nothing is `k` times nothing. -/
theorem Signed.scaled_of_zero {x : Signed max} (hx : x.val = 0) : x.val = k * x.val := by
  rw [hx, Int.mul_zero]

/-- The arc `y` is `x` with `k` times the flow. -/
def Arc.Scaled (k : Int) (x y : Arc (Signed max)) : Prop :=
  y.drained = x.drained ∧ y.flow.val = k * x.flow.val

/-- The vertex `w` is `v` with `k` times the weight. -/
def Vertex.Scaled (k : Int) (v w : Vertex (Signed max)) : Prop :=
  w.id = v.id ∧ w.potential = v.potential ∧ w.weight.val = k * v.weight.val

def Blocking.Scaled (k : Int) (b c : Blocking (Signed max)) : Prop :=
  c.arc = b.arc ∧ c.cost = b.cost ∧ c.flow.val = k * b.flow.val

namespace Network

variable {g h : Network (Signed max)} {a : ArcId} {u : VertexId} {tolerance : Signed max}

/-- The network `h` is `g` with `k` times the weights and flows. -/
structure Scaled (k : Int) (g h : Network (Signed max)) : Prop where
  vertices : List.Forall₂ (Vertex.Scaled k) g.vertices.toList h.vertices.toList
  arcs : List.Forall₂ (Arc.Scaled k) g.arcs.toList h.arcs.toList

namespace Scaled

theorem map_vertices {β : Type} (e : Scaled k g h) {f : Vertex (Signed max) → β}
    (hf : ∀ v w, Vertex.Scaled k v w → f w = f v) : h.vertices.map f = g.vertices.map f := by
  refine Array.toList_inj.1 ?_
  rw [Array.toList_map, Array.toList_map]
  exact map_eq_of_forall₂ e.vertices hf

theorem map_arcs {β : Type} (e : Scaled k g h) {f f' : Arc (Signed max) → β}
    (hf : ∀ x y, Arc.Scaled k x y → f' y = f x) : h.arcs.map f' = g.arcs.map f := by
  refine Array.toList_inj.1 ?_
  rw [Array.toList_map, Array.toList_map]
  exact map_eq_of_forall₂ e.arcs hf

theorem sameArcs (e : Scaled k g h) : SameArcs g h where
  numVertices := by simpa [numVertices] using e.vertices.length_eq.symm
  arcs := e.map_arcs fun _ _ h => h.1

/-! ## Looking up and changing -/

theorem arc (e : Scaled k g h) (a : ArcId) : Agree IsOverflow (Arc.Scaled k) (g.arc a) (h.arc a) :=
  .get e.arcs a.index

theorem vertex (e : Scaled k g h) (u : VertexId) : Agree IsOverflow (Vertex.Scaled k) (g.vertex u) (h.vertex u) :=
  .get e.vertices u.index

theorem modifyArc (e : Scaled k g h) {f f' : Arc (Signed max) → Arc (Signed max)}
    (hf : ∀ x y, Arc.Scaled k x y → Arc.Scaled k (f x) (f' y)) (a : ArcId) :
    Agree IsOverflow (Scaled k) (g.modifyArc a f) (h.modifyArc a f') :=
  (Agree.modify e.arcs hf a.index).bind fun _ _ harcs => .pure ⟨e.vertices, harcs⟩

theorem setInTree {x y : Arc (Signed max)} (h : Arc.Scaled k x y) (inTree : Bool) :
    Arc.Scaled k { x with inTree } { y with inTree } :=
  ⟨congrArg (fun z : Arc (Signed max) => { z with inTree }) h.1, h.2⟩

theorem setFlow {x y : Arc (Signed max)} (h : Arc.Scaled k x y) {f f' : Signed max} (hf : f'.val = k * f.val) :
    Arc.Scaled k { x with flow := f } { y with flow := f' } :=
  ⟨h.1, hf⟩

/-- Arcs enter the tree and leave it alike, whatever `move` does to the lists. -/
theorem setTree (e : Scaled k g h) (a : ArcId) (old new : Bool) (fault : Fault)
    (move : VertexId → VertexId → Checked Incidence) :
    Agree IsOverflow (fun p q => q.1 = p.1 ∧ Scaled k p.2 q.2)
      (do
        let x ← g.arc a
        require (x.inTree = old) fault
        let t ← move x.src x.snk
        return (t, ← g.modifyArc a ({ · with inTree := new })))
      (do
        let x ← h.arc a
        require (x.inTree = old) fault
        let t ← move x.src x.snk
        return (t, ← h.modifyArc a ({ · with inTree := new }))) := by
  refine (e.arc a).bind fun x y hxy => ?_
  obtain ⟨-, hsrc, hsnk, -, -, htree⟩ := Arc.drained_eq_iff.1 hxy.1
  rw [hsrc, hsnk, htree]
  refine .require_bind fun _ => (Agree.of_eq rfl).bind fun t _ ht => ?_
  subst ht
  exact (e.modifyArc (fun _ _ h => setInTree h new) a).bind fun _ _ h => .pure ⟨rfl, h⟩

theorem insert (e : Scaled k g h) (t : Incidence) (a : ArcId) :
    Agree IsOverflow (fun p q => q.1 = p.1 ∧ Scaled k p.2 q.2) (t.insert g a) (t.insert h a) :=
  e.setTree a false true _ fun u v => t.attach u v a

theorem remove (e : Scaled k g h) (t : Incidence) (a : ArcId) :
    Agree IsOverflow (fun p q => q.1 = p.1 ∧ Scaled k p.2 q.2) (t.remove g a) (t.remove h a) :=
  e.setTree a true false _ fun u v => t.detach u v a

theorem computePotentials (e : Scaled k g h) (t : Incidence) (root : VertexId) :
    Agree IsOverflow (fun p q => q.2 = p.2 ∧ Scaled k p.1 q.1) (t.computePotentials g root)
      (t.computePotentials h root) := by
  refine (Agree.of_eq (e.sameArcs.potentials_eq t root)).bind fun p _ hp => ?_
  subst hp
  refine .pure ⟨rfl, ?_, e.arcs⟩
  simp only [withPotentials, Array.toList_zipWith]
  refine forall₂_zipWith e.vertices ?_ _
  exact fun v w p h => ⟨h.1, rfl, h.2.2⟩

/-! ## Pivots -/

theorem pushStep (e : Scaled k g h) {delta delta' : Signed max} (hd : delta'.val = k * delta.val) (s : Step) :
    Agree IsOverflow (Scaled k) (g.pushStep delta s) (h.pushStep delta' s) := by
  refine (e.arc s.arc).bind fun x y hxy => ?_
  cases s.forward <;> simp only [Bool.false_eq_true, if_true, if_false]
  · exact (Signed.agree_sub hxy.2 hd).bind fun f f' hf => e.modifyArc (fun _ _ h => setFlow h hf) s.arc
  · exact (Signed.agree_add hxy.2 hd).bind fun f f' hf => e.modifyArc (fun _ _ h => setFlow h hf) s.arc

theorem push (e : Scaled k g h) {delta delta' : Signed max} (hd : delta'.val = k * delta.val) (c : List Step) :
    Agree IsOverflow (Scaled k) (g.push delta c) (h.push delta' c) :=
  .foldlM_same e fun s _ _ e => e.pushStep hd s

end Scaled

theorem agree_beats (hk : 0 < k) (hz : tolerance.val = 0) {b b' best best' : Blocking (Signed max)}
    (hb : Blocking.Scaled k b b') (hbest : Blocking.Scaled k best best') :
    Agree IsOverflow Eq (b.beats tolerance best) (b'.beats tolerance best') := by
  have hover : ∀ b best : Blocking (Signed max), FaultsOnly IsOverflow (b.beats tolerance best) := fun b best =>
    faultsOnly_beats (LawfulAmount.sub _ _) (LawfulAmount.sub _ _) fun _ _ => LawfulAmount.abs _
  refine .of_faultsOnly (hover b best) (hover b' best') fun r r' hr hr' => ?_
  rw [Bool.eq_iff_iff, beats_iff hz.ge (by omega) (by omega) hr, beats_iff hz.ge (by omega) (by omega) hr', hb.2.2,
    hbest.2.2, hb.2.1, hbest.2.1, Int.mul_lt_mul_left hk, Int.mul_eq_mul_left_iff hk.ne']

namespace Scaled

theorem tighten (e : Scaled k g h) (hk : 0 < k) (hz : tolerance.val = 0) {best best' : Option (Blocking (Signed max))}
    (hbest : Option.Rel (Blocking.Scaled k) best best') (a : ArcId) :
    Agree IsOverflow (Option.Rel (Blocking.Scaled k)) (g.tighten tolerance best a) (h.tighten tolerance best' a) := by
  refine (e.arc a).bind fun x y hxy => ?_
  have hb : Blocking.Scaled k ⟨a, x.flow, x.cost⟩ ⟨a, y.flow, y.cost⟩ :=
    ⟨rfl, (Arc.drained_eq_iff.1 hxy.1).2.2.2.1, hxy.2⟩
  cases hbest with
  | none => exact .pure (.some hb)
  | some hbest =>
    refine (agree_beats hk hz hb hbest).bind fun r _ hr => ?_
    subst hr
    cases r with
    | true => exact .pure (.some hb)
    | false => exact .pure (.some hbest)

theorem blocking? (e : Scaled k g h) (hk : 0 < k) (hz : tolerance.val = 0) (c : List Step) :
    Agree IsOverflow (Option.Rel (Blocking.Scaled k)) (g.blocking? tolerance c) (h.blocking? tolerance c) :=
  .foldlM_same .none fun a _ _ hbest => e.tighten hk hz hbest a

/-! ## The star -/

theorem kind_eq {x y : Arc (Signed max)} (h : Arc.Scaled k x y) : y.kind = x.kind :=
  (Arc.drained_eq_iff.1 h.1).2.2.2.2.1

theorem realArcs (e : Scaled k g h) : List.Forall₂ (Arc.Scaled k) g.realArcs h.realArcs :=
  List.rel_filter (fun _ _ h => by simp only [Arc.isReal, kind_eq h]) e.arcs

theorem artificialArcs (e : Scaled k g h) : List.Forall₂ (Arc.Scaled k) g.artificialArcs h.artificialArcs :=
  List.rel_filter (fun _ _ h => by simp only [Arc.isArtificial, kind_eq h]) e.arcs

theorem cleared (e : Scaled k g h) : Scaled k g.cleared h.cleared := by
  refine ⟨e.vertices, ?_⟩
  simp only [Network.cleared, mapArcs, dropArtificialArcs, Array.toList_map, Array.toList_filter]
  refine List.rel_map (fun x y hxy => ⟨?_, ?_⟩) e.realArcs
  · exact congrArg (fun z : Arc (Signed max) => { z with cost := Amount.zero, inTree := false }) hxy.1
  · exact (Int.mul_zero k).symm

theorem hub_eq (e : Scaled k g h) : h.hub = g.hub := by
  simp only [hub, e.sameArcs.numVertices]

theorem join (e : Scaled k g h) (u v : VertexId) {f f' : Signed max} (hf : f'.val = k * f.val) :
    Agree IsOverflow (Scaled k) (g.join u v f) (h.join u v f') := by
  unfold Network.join
  rw [e.sameArcs.findArc?_eq]
  cases g.findArc? u v with
  | some a => exact e.modifyArc (fun _ _ h => setFlow (setInTree h true) hf) a
  | none =>
    simp only [Option.elim_none, addArtificialArc, e.sameArcs.numArcs]
    refine .require_bind fun _ => .pure ⟨e.vertices, ?_⟩
    simp only [Array.toList_push]
    exact List.rel_append e.arcs (.cons ⟨rfl, hf⟩ .nil)

theorem joinHub (e : Scaled k g h) (hk : 0 < k) (v : VertexId) :
    Agree IsOverflow (Scaled k) (g.joinHub v) (h.joinHub v) := by
  rw [joinHub_eq, joinHub_eq, e.hub_eq]
  refine (e.vertex v).bind fun w w' hw => ?_
  rw [Signed.lt_of_scaled hk hw.2.2 (Signed.scaled_of_zero Signed.zero_val)]
  cases Amount.lt w.weight Amount.zero with
  | true => exact (Signed.agree_neg hw.2.2).bind fun f f' hf => e.join v g.hub hf
  | false => exact e.join g.hub v hw.2.2

theorem star (e : Scaled k g h) (hk : 0 < k) : Agree IsOverflow (Scaled k) g.star h.star := by
  have hids : h.cleared.vertexIds.filter (· ≠ h.cleared.hub) = g.cleared.vertexIds.filter (· ≠ g.cleared.hub) := by
    simp only [vertexIds, e.cleared.sameArcs.numVertices, e.cleared.hub_eq]
  show Agree IsOverflow _ _ ((h.cleared.vertexIds.filter (· ≠ h.cleared.hub)).foldlM Network.joinHub h.cleared)
  rw [hids]
  exact .foldlM_same e.cleared fun v _ _ e => e.joinHub hk v

theorem firstSupplier_eq (e : Scaled k g h) (hk : 0 < k) : h.firstSupplier = g.firstSupplier := by
  have key : ∀ k : Network (Signed max), k.firstSupplier =
      (((k.vertices.map fun v => (v.id, v.isSupply)).find? (·.2)).map (·.1)).getD ⟨0⟩ := by
    intro k
    rw [Array.find?_map, Option.map_map]
    rfl
  have hvertices := e.map_vertices (f := fun v => (v.id, v.isSupply)) fun v w hvw => by
    rw [hvw.1, Vertex.isSupply, Signed.lt_of_scaled hk hvw.2.2 (Signed.scaled_of_zero Signed.zero_val)]
    rfl
  rw [key, key g, hvertices]

theorem totalWeight (e : Scaled k g h) :
    Agree IsOverflow (fun x y => y.val = k * x.val) g.totalWeight h.totalWeight := by
  exact .foldlM e.vertices (Int.mul_zero k).symm fun v w x y hvw hxy => Signed.agree_add hxy hvw.2.2

theorem isBalancedWithin (e : Scaled k g h) (hk : 0 < k) (hz : tolerance.val = 0) :
    Agree IsOverflow Eq (g.isBalancedWithin tolerance) (h.isBalancedWithin tolerance) := by
  have hz' : tolerance.val = k * tolerance.val := Signed.scaled_of_zero hz
  refine e.totalWeight.bind fun x y hxy => ?_
  rw [Signed.le_of_scaled hk hxy hz']
  cases Amount.le x tolerance with
  | false => exact .pure rfl
  | true =>
    exact (Signed.agree_sub (Signed.scaled_of_zero Signed.zero_val) hz').bind fun l l' hl =>
      .pure (Signed.le_of_scaled hk hl hxy).symm

/-! ## The costs of the second phase -/

theorem restore {g' h' : Network (Signed max)} (e : SameArcs g h) (e' : Scaled k g' h') (c : Signed max) :
    Agree IsOverflow (Scaled k) (g.restore c g') (h.restore c h') := by
  have hcost : ∀ x y, Arc.Scaled k x y → Agree IsOverflow Eq (g.restoredCost c x) (h.restoredCost c y) := by
    intro x y hxy
    obtain ⟨hid, -, -, hcost, hkind, htree⟩ := Arc.drained_eq_iff.1 hxy.1
    refine .of_eq ?_
    simp only [restoredCost, hkind, hid, htree, hcost]
    cases x.kind with
    | real => exact e.arc_bind x.id fun _ => rfl
    | artificial => rfl
  refine Agree.bind (R := List.Forall₂ (Arc.Scaled k)) (.mapM e'.arcs fun x y hxy => ?_) fun l l' hl =>
    .pure ⟨e'.vertices, by simpa using hl⟩
  refine (hcost x y hxy).bind fun c c' hc => ?_
  subst hc
  exact .pure ⟨congrArg (fun z : Arc (Signed max) => { z with cost := c }) hxy.1, hxy.2⟩

end Scaled

end Network

end Transportation
