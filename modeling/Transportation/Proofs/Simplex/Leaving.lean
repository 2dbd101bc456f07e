import Transportation.Proofs.Network.Circulation
import Transportation.Proofs.Simplex.Sound
/-!
# The arc that leaves

Without a tolerance the search for the leaving arc compares flows and then costs, and an arc must beat the best so far
to take its place (`FirstTightest.replace`). So of the arcs that are walked backward it finds those of the smallest
flow, of these the ones of the largest cost, and of these the first. Which arcs are walked backward, and in which order,
is settled by the tree: only one walk leads from the sink of the entering arc back to its source
(`leaving_of_reachable`).
-/

namespace Transportation

open Checked

/-- Of the arcs `l`, the arc `y` is the first of those of the largest cost among those of the smallest flow. -/
structure FirstTightest {max : Nat} (l : List (Arc (Signed max))) (y : Arc (Signed max)) : Prop where
  smallest : ∀ z ∈ l, y.flow.val ≤ z.flow.val
  dearest : ∀ z ∈ l, z.flow.val = y.flow.val → z.cost.val ≤ y.cost.val
  first : ∃ before after, l = before ++ y :: after ∧
    ∀ z ∈ before, z.flow.val = y.flow.val → z.cost.val < y.cost.val

namespace FirstTightest

variable {max : Nat} {l : List (Arc (Signed max))} {x y : Arc (Signed max)}

theorem singleton (x : Arc (Signed max)) : FirstTightest [x] x where
  smallest := by simp
  dearest := by simp
  first := ⟨[], [], rfl, by simp⟩

/-- An arc that carries more, or as much at no larger cost, leaves the tightest as it is. -/
theorem keep (h : FirstTightest l y)
    (hx : ¬ (x.flow.val < y.flow.val ∨ x.flow.val = y.flow.val ∧ y.cost.val < x.cost.val)) :
    FirstTightest (l ++ [x]) y := by
  obtain ⟨before, after, hl, hfirst⟩ := h.first
  refine ⟨List.forall_mem_append.2 ⟨h.smallest, ?_⟩, List.forall_mem_append.2 ⟨h.dearest, ?_⟩,
    before, after ++ [x], ?_, hfirst⟩
  · simp only [List.mem_singleton, forall_eq]
    omega
  · simp only [List.mem_singleton, forall_eq]
    omega
  · rw [hl, List.append_assoc, List.cons_append]

/-- An arc that beats the tightest beats all arcs before it. -/
theorem replace (h : FirstTightest l y)
    (hx : x.flow.val < y.flow.val ∨ x.flow.val = y.flow.val ∧ y.cost.val < x.cost.val) :
    FirstTightest (l ++ [x]) x := by
  have hbeats : ∀ z ∈ l, x.flow.val ≤ z.flow.val ∧ (z.flow.val = x.flow.val → z.cost.val < x.cost.val) := by
    intro z hz
    have hle := h.smallest z hz
    have hcost := h.dearest z hz
    omega
  refine ⟨List.forall_mem_append.2 ⟨fun z hz => (hbeats z hz).1, by simp⟩,
    List.forall_mem_append.2 ⟨fun z hz e => ((hbeats z hz).2 e).le, by simp⟩, l, [], rfl, fun z hz => (hbeats z hz).2⟩

end FirstTightest

namespace Network

section
variable {F : Type} {g h : Network F} {l l' : List ArcId} {c : List Step} {a : ArcId} {x : Arc F}

/-- The arcs with the numbers `l`. -/
def arcsOf (g : Network F) (l : List ArcId) : List (Arc F) :=
  l.filterMap fun a => g.arcs[a.index]?

/-- The arcs that are walked from their sink to their source, in the order of the steps. -/
def walkedBack (g : Network F) (c : List Step) : List (Arc F) :=
  g.arcsOf ((c.filter (!·.forward)).map Step.arc)

theorem arcsOf_cons (hx : g.arcs[a.index]? = some x) : g.arcsOf (a :: l) = x :: g.arcsOf l :=
  List.filterMap_cons_some hx

theorem arcsOf_append : g.arcsOf (l ++ l') = g.arcsOf l ++ g.arcsOf l' :=
  List.filterMap_append

theorem walkedBack_forward : g.walkedBack (⟨a, true⟩ :: c) = g.walkedBack c := rfl

theorem mem_arcs_of_backward (ha : a ∈ (c.filter (!·.forward)).map Step.arc) : a ∈ c.map Step.arc :=
  List.mem_map_of_mem (mem_of_mem_backward ha)

theorem Numbered.map_id_arcsOf (hg : g.Numbered) (hl : ∀ a ∈ l, ∃ x, g.arcs[a.index]? = some x) :
    (g.arcsOf l).map Arc.id = l := by
  induction l with
  | nil => rfl
  | cons a l ih =>
    obtain ⟨⟨x, hx⟩, hl⟩ := List.forall_mem_cons.1 hl
    rw [arcsOf_cons hx, List.map_cons, ih hl, hg.arc_id hx]

/-- The arcs of a walk in the tree are all found. -/
theorem Numbered.map_id_walkedBack (hg : g.Numbered) {u v : VertexId} (hw : g.tree.Walk u c v) :
    (g.walkedBack c).map Arc.id = (c.filter (!·.forward)).map Step.arc := by
  refine hg.map_id_arcsOf fun a ha => ?_
  obtain ⟨x, hx, -⟩ := hg.exists_of_walk hw (mem_arcs_of_backward ha)
  exact ⟨x, hx⟩

/-- An arc that enters the tree is on no walk in the tree as it was before. -/
theorem walkedBack_insert {t t' : Incidence} (hg : g.Numbered) (hi : t.insert g a = .ok (t', h)) {u v : VertexId}
    (hw : g.tree.Walk u c v) : h.walkedBack c = g.walkedBack c := by
  obtain ⟨x, hx, hout, -, hm⟩ := Incidence.insert_eq_ok_iff.1 hi
  refine List.filterMap_congr fun b hb => ?_
  obtain ⟨y, hy, hin⟩ := hg.exists_of_walk hw (mem_arcs_of_backward hb)
  rw [getElem?_modifyArc hm, if_neg]
  intro he
  rw [← he, hx, Option.some.injEq] at hy
  rw [hy, hin] at hout
  cases hout

end

variable {max : Nat} [NeZero max] {g : Network (Signed max)} {c : List Step} {a : ArcId} {x : Arc (Signed max)}
  {tolerance : Signed max}

/-- What is known of the arcs `l` when the tightest of them is `o`. -/
def Tightest (l : List (Arc (Signed max))) : Option (Blocking (Signed max)) → Prop
  | none => l = []
  | some b => ∃ y, FirstTightest l y ∧ b = ⟨y.id, y.flow, y.cost⟩

theorem Tightest.tighten {l : List (Arc (Signed max))} {best o : Option (Blocking (Signed max))}
    (h : Tightest l best) (hg : g.Numbered) (hz : tolerance.val = 0) (hx : g.arcs[a.index]? = some x)
    (e : g.tighten tolerance best a = .ok o) : Tightest (l ++ [x]) o := by
  obtain ⟨x', hx', ho⟩ := tighten_eq_ok e
  rw [hx, Option.some.injEq] at hx'
  subst hx'
  obtain rfl : x.id = a := hg.arc_id hx
  rcases ho with ⟨rfl, rfl⟩ | ⟨b, beats, rfl, hbeats, rfl⟩
  · obtain rfl : l = [] := h
    exact ⟨x, .singleton x, rfl⟩
  · obtain ⟨y, hy, rfl⟩ := h
    have hiff := beats_iff hz.ge (by omega) (by omega) hbeats
    cases beats with
    | true => exact ⟨x, hy.replace (hiff.1 rfl), rfl⟩
    | false => exact ⟨y, hy.keep fun hx => Bool.false_ne_true (hiff.2 hx), rfl⟩

/-- Without a tolerance the blocking arc is the first of the dearest of the tightest. -/
theorem firstTightest_of_blocking? (hg : g.Numbered) (hz : tolerance.val = 0) {b : Blocking (Signed max)}
    (e : g.blocking? tolerance c = .ok (some b)) :
    ∃ y, FirstTightest (g.walkedBack c) y ∧ y.id = b.arc ∧ y.flow = b.flow := by
  have h : Tightest (g.walkedBack c) (some b) := by
    refine foldlM_induction (fun done o => Tightest (g.arcsOf done) o) e rfl ?_
    intro done a best o _ h e
    obtain ⟨x, hx, -⟩ := tighten_eq_ok e
    rw [arcsOf_append, arcsOf_cons hx]
    exact h.tighten hg hz hx e
  obtain ⟨y, hy, rfl⟩ := h
  exact ⟨y, hy, rfl, rfl⟩

end Network

namespace Simplex

open Network

variable {max : Nat} [NeZero max] {s s' : Simplex (Signed max)} {p : Pivot (Signed max)}

/-- Whatever was asked of a solver, without a tolerance a pivot that exchanges arcs takes an arc from outside the tree.
One walk in the tree that repeats no arc leads from its sink back to its source and closes a cycle with it. Of the arcs
walked backward around this cycle, the leaving arc is the first of those of the largest cost among those of the smallest
flow, and that flow is pushed. -/
theorem leaving_of_reachable (b : Builder (Signed max)) (h : Reachable (fun _ => True) b.network s)
    (hz : s.options.zero = Amount.zero) (hrun : s.run pivot = .ok (.ok (some p), s')) :
    ∃ x d y, s.solution.arcs[p.entering.index]? = some x ∧ x.inTree = false ∧
      (∀ e, s.solution.tree.Walk x.snk e x.src ∧ (e.map Step.arc).Nodup ↔ e = d) ∧
      (s.solution.walkedBack (⟨p.entering, true⟩ :: d)).map Arc.id = (d.filter (!·.forward)).map Step.arc ∧
      FirstTightest (s.solution.walkedBack (⟨p.entering, true⟩ :: d)) y ∧ y.id = p.leaving ∧ y.flow = p.delta := by
  have hs := sound_of_reachable (wellFormed_network b) h
  have hg := hs.wellFormed.toNumbered
  replace hz : s.options.zero.val = 0 := by rw [hz]; rfl
  replace hrun := pivotRun_of_run hrun
  generalize hr : (Except.ok (some p) : Except SolveError (Option (Pivot (Signed max)))) = r at hrun
  cases hrun with
  | noTree | optimal | noCycle | unbounded => cases hr
  | @pivoted c cursor t g₁ cycle b g₂ t' k k' all hphase hprice hi hc hb hpush hl hu =>
    split at hr
    case isFalse => cases hr
    cases hr
    have htree := hs.tree hphase
    obtain ⟨x, hx, hout, -, -⟩ := Incidence.insert_eq_ok_iff.1 hi
    obtain ⟨d, rfl, hwalk, hn⟩ := htree.back_of_cycle hx hi hc
    obtain ⟨y, hy, hid, hflow⟩ := firstTightest_of_blocking? (htree.insert hi).wellFormed.toNumbered hz hb
    rw [walkedBack_forward, walkedBack_insert hg hi hwalk] at hy
    refine ⟨x, d, y, hx, hout, fun e => ⟨?_, ?_⟩, (hg.map_id_walkedBack hwalk :), hy, hid, hflow⟩
    · rintro ⟨he, hne⟩
      have hforest : s.solution.tree.Forest := htree.forest
      exact hforest.walk_unique he hwalk hne.isChain hn.isChain
    · rintro rfl
      exact ⟨hwalk, hn⟩

end Simplex

/-- A builder of an instance with a long way from supply to demand and a cheap arc past it. -/
def Builder.bypass : Builder Signed8 where
  name := "bypass"
  weights := #[.minusOne, .zero, .zero, .one]
  links := #[⟨⟨0⟩, ⟨1⟩, .one⟩, ⟨⟨1⟩, ⟨2⟩, .ofNat 5 (by decide)⟩, ⟨⟨2⟩, ⟨3⟩, .ofNat 5 (by decide)⟩, ⟨⟨0⟩, ⟨3⟩, .zero⟩]
  joins l hl := by
    obtain rfl | rfl | rfl | rfl : l = _ ∨ l = _ ∨ l = _ ∨ l = _ := by simpa using hl
    all_goals exact ⟨by decide, by decide, by decide⟩

namespace Simplex

/-- All arcs of the long way carry one. The two that cost most are tied, and of these the one met first leaves. -/
theorem leaving_of_bypass : ∃ (s s' : Simplex Signed8) (p : Pivot Signed8),
    Reachable (fun _ => True) Builder.bypass.network s ∧ s.options.zero = Amount.zero ∧
    s.run pivot = .ok (.ok (some p), s') ∧ p.entering = ⟨3⟩ ∧ p.leaving = ⟨2⟩ ∧
    (s.solution.arcsOf [⟨2⟩, ⟨1⟩, ⟨0⟩]).map (fun x => (x.flow.val, x.cost.val)) = [(1, 5), (1, 5), (1, 1)] ∧
    ∃ x d y, s.solution.arcs[p.entering.index]? = some x ∧ x.inTree = false ∧
      (∀ e, s.solution.tree.Walk x.snk e x.src ∧ (e.map Step.arc).Nodup ↔ e = d) ∧
      (s.solution.walkedBack (⟨p.entering, true⟩ :: d)).map Arc.id = (d.filter (!·.forward)).map Step.arc ∧
      FirstTightest (s.solution.walkedBack (⟨p.entering, true⟩ :: d)) y ∧ y.id = p.leaving ∧ y.flow = p.delta := by
  let s₁ := (new Builder.bypass.network).after start
  let s₂ := s₁.after optimize
  let s₃ := s₂.after restoreCosts
  let p : Pivot Signed8 := ⟨⟨3⟩, ⟨2⟩, ⟨-11, by decide, by decide⟩, .one⟩
  have hstart : (new Builder.bypass.network).run start = .ok (.ok (), s₁) := by decide +kernel
  have hoptimize : s₁.run optimize = .ok (.ok 2, s₂) := by decide +kernel
  have hrestore : s₂.run restoreCosts = .ok (.ok (), s₃) := by decide +kernel
  have hpivot : s₃.run pivot = .ok (.ok (some p), s₃.after pivot) := by decide +kernel
  have hreach : Reachable (fun _ => True) Builder.bypass.network s₃ :=
    .restoreCosts (.optimize (.start .new hstart) hoptimize) hrestore
  have hzero : s₃.options.zero = Amount.zero := by decide +kernel
  have harcs : (s₃.solution.arcsOf [⟨2⟩, ⟨1⟩, ⟨0⟩]).map (fun x => (x.flow.val, x.cost.val)) =
      [(1, 5), (1, 5), (1, 1)] := by
    decide +kernel
  have hp : p.entering = ⟨3⟩ ∧ p.leaving = ⟨2⟩ := ⟨rfl, rfl⟩
  -- With their values, states would be compared by running the solver.
  clear_value s₃ p
  exact ⟨s₃, _, p, hreach, hzero, hpivot, hp.1, hp.2, harcs, leaving_of_reachable Builder.bypass hreach hzero hpivot⟩

end Simplex

end Transportation
