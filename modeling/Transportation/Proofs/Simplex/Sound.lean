import Transportation.Proofs.Simplex.Exchange
import Transportation.Proofs.Simplex.Reachable
/-!
# What holds of every solver

A solver of the instance `g` works on a copy of `g` with arcs of the costs of its phase, and its tree is a spanning
tree (`Sound`). Every operation keeps that, also one that ends with an error, whatever the options are.
-/

namespace Transportation

variable {F : Type}

namespace Network

variable {g h k : Network F} {c : F}

/-! ## The costs of the second phase -/

theorem arcs_of_restore (e : g.restore c h = .ok k) :
    List.Forall₂ (fun x y => g.restoredCost c x = .ok y.cost ∧ y = { x with cost := y.cost })
      h.arcs.toList k.arcs.toList := by
  unfold restore at e
  obtain ⟨arcs, harcs, e⟩ := Checked.bind_eq_ok_iff.1 e
  obtain rfl := Checked.pure_eq_ok_iff.1 e
  refine (Checked.mapM_eq_ok harcs).imp ?_
  intro x y hxy
  obtain ⟨cost, hcost, hxy⟩ := Checked.bind_eq_ok_iff.1 hxy
  obtain rfl := Checked.pure_eq_ok_iff.1 hxy
  exact ⟨hcost, rfl⟩

/-- Restoring the costs keeps everything else. -/
theorem map_restore {β : Type} (e : g.restore c h = .ok k) {f : Arc F → β} (hf : ∀ x cost, f { x with cost } = f x) :
    k.arcs.map f = h.arcs.map f := by
  have hall : List.Forall₂ (fun b b' => b = b') (h.arcs.toList.map f) (k.arcs.toList.map f) := by
    refine List.forall₂_map_left_iff.2 (List.forall₂_map_right_iff.2 ((arcs_of_restore e).imp ?_))
    rintro x y ⟨-, hy⟩
    rw [hy]
    exact (hf x _).symm
  rw [List.forall₂_eq_eq_eq] at hall
  exact Array.toList_inj.1 (by simpa using hall.symm)

theorem frame_restore (e : g.restore c h = .ok k) : k.frame = h.frame := by
  have hmap := map_restore e (f := Arc.frame) fun _ _ => rfl
  unfold restore at e
  obtain ⟨arcs, -, e⟩ := Checked.bind_eq_ok_iff.1 e
  obtain rfl := Checked.pure_eq_ok_iff.1 e
  simp only [frame, hmap]

theorem restoredCost_of_restore (e : g.restore c h = .ok k) {i : Nat} {y : Arc F} (hy : k.arcs[i]? = some y) :
    ∃ x, h.arcs[i]? = some x ∧ g.restoredCost c x = .ok y.cost ∧ y = { x with cost := y.cost } := by
  have hall := arcs_of_restore e
  have hi : i < k.arcs.toList.length := by simpa using (Array.getElem?_eq_some_iff.1 hy).1
  have hi' : i < h.arcs.toList.length := by rw [hall.length_eq]; exact hi
  have hget := hall.get hi' hi
  obtain ⟨_, rfl⟩ := Array.getElem?_eq_some_iff.1 hy
  exact ⟨h.arcs.toList.get ⟨i, hi'⟩, by simp, by simpa using hget⟩

/-- What a pivot does not change. -/
def plan (g : Network F) : (Nat × String × Array (VertexId × F) × Array (ArcId × VertexId × VertexId × ArcKind)) ×
    Array (ArcKind × F) :=
  (g.frame, g.arcs.map fun x => (x.kind, x.cost))

theorem plan_eq_iff : h.plan = g.plan ↔
    h.frame = g.frame ∧ h.arcs.map (fun x => (x.kind, x.cost)) = g.arcs.map fun x => (x.kind, x.cost) := by
  simp [plan]

theorem numVertices_of_plan (e : h.plan = g.plan) : h.numVertices = g.numVertices :=
  numVertices_of_frame (plan_eq_iff.1 e).1

theorem plan_insert {t t' : Incidence} {a : ArcId} (e : t.insert g a = .ok (t', h)) : h.plan = g.plan := by
  obtain ⟨_, _, _, _, e⟩ := Incidence.insert_eq_ok_iff.1 e
  exact plan_eq_iff.2 ⟨frame_modifyArc e fun _ => rfl, map_modifyArc e fun _ => rfl⟩

theorem plan_remove {t t' : Incidence} {a : ArcId} (e : t.remove g a = .ok (t', h)) : h.plan = g.plan := by
  obtain ⟨_, _, _, _, e⟩ := Incidence.remove_eq_ok_iff.1 e
  exact plan_eq_iff.2 ⟨frame_modifyArc e fun _ => rfl, map_modifyArc e fun _ => rfl⟩

variable [Amount F]

theorem plan_push {delta : F} {cycle : List Step} (e : g.push delta cycle = .ok h) : h.plan = g.plan :=
  plan_eq_iff.2 ⟨frame_of_drained (drained_push e), map_arcs_of_drained (drained_push e) fun _ => rfl⟩

/-- An arc that enters, a push and an arc that leaves keep the plan. -/
theorem plan_exchange {t t₁ t₂ : Incidence} {g₁ g₂ : Network F} {a b : ArcId} {delta : F} {cycle : List Step}
    (hi : t.insert g a = .ok (t₁, g₁)) (hp : g₁.push delta cycle = .ok g₂) (hl : t₁.remove g₂ b = .ok (t₂, h)) :
    h.plan = g.plan :=
  (plan_remove hl).trans ((plan_push hp).trans (plan_insert hi))

/-- The arcs of `h` have the costs of the phase for the instance `g`. -/
def HasCosts (g : Network F) (phase : Phase) (h : Network F) : Prop :=
  ∀ {i : Nat} {x : Arc F}, h.arcs[i]? = some x →
    match phase, x.kind with
    | .setup, _ => True
    | .initial, .real => x.cost = Amount.zero
    | .initial, .artificial => x.cost = Amount.one
    | .optimal, .real => ∃ y, g.arcs[i]? = some y ∧ x.cost = y.cost
    | .optimal, .artificial => True

theorem HasCosts.congr {phase : Phase} (hh : g.HasCosts phase h)
    (e : k.arcs.map (fun x => (x.kind, x.cost)) = h.arcs.map fun x => (x.kind, x.cost)) : g.HasCosts phase k := by
  intro i x hx
  obtain ⟨y, hy, hxy⟩ := exists_of_map_eq e hx
  simp only [Prod.mk.injEq] at hxy
  rw [← hxy.1, ← hxy.2]
  exact hh hy

theorem hasCosts_star {done : List VertexId} (hs : Star g done h) : g.HasCosts .initial h := by
  intro i x hx
  cases hk : x.kind with
  | real => exact hs.real hx hk
  | artificial => exact hs.artificial hx hk

theorem hasCosts_restore (hh : h.Numbered) (e : g.restore c h = .ok k) : g.HasCosts .optimal k := by
  intro i y hy
  obtain ⟨x, hx, hcost, he⟩ := restoredCost_of_restore e hy
  cases hk : y.kind with
  | artificial => trivial
  | real =>
    have hkx : x.kind = .real := by rw [he] at hk; exact hk
    simp only [restoredCost, hkx, Checked.bind_eq_ok_iff, arc_eq_ok_iff, Checked.pure_eq_ok_iff, hh.arc_id hx] at hcost
    obtain ⟨z, hz, hzy⟩ := hcost
    exact ⟨z, hz, hzy.symm⟩

theorem firstSupplier_lt (hg : g.Numbered) (hn : g.numVertices ≠ 0) : g.firstSupplier.index < g.numVertices := by
  unfold firstSupplier
  cases h : g.vertices.find? Vertex.isSupply with
  | none => exact Nat.pos_of_ne_zero hn
  | some v =>
    obtain ⟨i, hi, rfl⟩ := Array.mem_iff_getElem.1 (Array.mem_of_find?_eq_some h)
    have hid := hg.vertex_id (Array.getElem?_eq_getElem hi)
    simp only [Option.map_some, Option.getD_some, hid]
    exact hi

end Network

namespace Signed8

/-! The amounts of small instances. -/

def zero : Signed8 := .ofNat 0 (by decide)

def one : Signed8 := .ofNat 1 (by decide)

def minusOne : Signed8 := ⟨-1, by decide, by decide⟩

end Signed8

/-- A builder with one supplier, one customer and a vertex to go through between them. -/
def Builder.relay : Builder Signed8 where
  name := "relay"
  weights := #[⟨-3, by decide, by decide⟩, .ofNat 3 (by decide), .ofNat 0 (by decide)]
  links := #[⟨⟨0⟩, ⟨2⟩, .ofNat 2 (by decide)⟩, ⟨⟨2⟩, ⟨1⟩, .ofNat 1 (by decide)⟩]
  joins l hl := by
    obtain rfl | rfl : l = _ ∨ l = _ := by simpa using hl
    all_goals exact ⟨by decide, by decide, by decide⟩

namespace Simplex

/-- The state an operation leaves. -/
def after {α : Type} (s : Simplex F) (op : SolverM F α) : Simplex F :=
  match s.run op with
  | .ok (_, t) => t
  | .error _ => s

theorem run_start_relay :
    (new Builder.relay.network).run start = .ok (.ok (), (new Builder.relay.network).after start) := by
  decide +kernel

theorem run_solve_relay :
    (new Builder.relay.network).run solve = .ok (.ok .optimal, (new Builder.relay.network).after solve) := by
  decide +kernel

variable {g : Network F} {s s' : Simplex F}

section
variable [Amount F]

/-- What holds of every solver of the instance `g`. -/
structure Sound (g : Network F) (s : Simplex F) : Prop where
  input : s.input = g
  base : s.solution.base = g.base
  wellFormed : s.solution.WellFormed
  costs : g.HasCosts s.phase s.solution
  tree : s.phase ≠ .setup → SpanningTree s.tree s.solution
  root : s.phase ≠ .setup → g.numVertices ≠ 0 → s.root.index < g.numVertices

theorem Sound.numVertices_eq (hs : Sound g s) : s.solution.numVertices = g.numVertices :=
  Network.numVertices_of_base hs.base

theorem Sound.root_lt (hs : Sound g s) (hphase : s.phase ≠ .setup) {h : Network F}
    (hn : h.numVertices = s.solution.numVertices) (hne : h.numVertices ≠ 0) : s.root.index < h.numVertices := by
  rw [hn, hs.numVertices_eq] at hne ⊢
  exact hs.root hphase hne

theorem sound_new (hg : g.WellFormed) : Sound g (.new g) :=
  ⟨rfl, rfl, hg, fun _ => trivial, fun h => absurd rfl h, fun h => absurd rfl h⟩

/-- The first phase begins with a sound solver, or it does not begin. -/
theorem sound_of_start (hg : g.WellFormed) (hin : s.input = g) {r : Except SolveError Unit} (h : StartRun s r s') :
    (r = .error .unbalanced ∧ s' = s) ∨ (r = .ok () ∧ s'.phase = .initial ∧ Sound g s') := by
  cases h with
  | unbalanced => exact .inl ⟨rfl, rfl⟩
  | @started h t k all _ hstar ht hu =>
    rw [hin] at hstar
    have hstar := Network.star_of_eq_ok hg hstar
    have hn := hstar.numVertices_eq
    have hroot : h.numVertices ≠ 0 → h.firstSupplier.index < h.numVertices :=
      Network.firstSupplier_lt hstar.wellFormed.toNumbered
    obtain ⟨htree, rfl, hframe, harcs⟩ := (spanningTree_star hstar ht).computePotentials hroot hu
    refine .inr ⟨rfl, rfl, hin, (Network.base_of_frame hframe).trans hstar.base, htree.wellFormed, ?_,
      fun _ => htree, fun _ => hn ▸ hroot⟩
    exact Network.HasCosts.congr (Network.hasCosts_star hstar) (by rw [harcs])

/-- A pivot leaves a spanning tree of the same network with the same costs. -/
theorem pivot_keeps (ht : s.phase ≠ .setup → SpanningTree s.tree s.solution)
    (hroot : s.phase ≠ .setup → s.solution.numVertices ≠ 0 → s.root.index < s.solution.numVertices)
    {r : Except SolveError (Option (Pivot F))} (h : PivotRun s r s') :
    s'.solution.plan = s.solution.plan ∧ (s.phase ≠ .setup → SpanningTree s'.tree s'.solution) := by
  cases h with
  | noTree _ => exact ⟨rfl, ht⟩
  | optimal _ _ => exact ⟨rfl, ht⟩
  | noCycle hs _ hi _ hl =>
    exact ⟨(Network.plan_remove hl).trans (Network.plan_insert hi), fun _ => ((ht hs).insert hi).remove_entering hl⟩
  | unbounded hs _ hi _ _ hl =>
    exact ⟨(Network.plan_remove hl).trans (Network.plan_insert hi), fun _ => ((ht hs).insert hi).remove_entering hl⟩
  | @pivoted c cursor t g cycle b g' t' h k all hs _ hi hc hb hpush hl hu =>
    -- Entering, pushing and leaving keep the plan, and the potentials are no part of it.
    have htree := (ht hs).exchange hi hc hb hpush hl
    have hplan := Network.plan_exchange hi hpush hl
    have hn := Network.numVertices_of_plan hplan
    obtain ⟨htree', -, hframe, harcs⟩ := htree.computePotentials (fun h => hn ▸ hroot hs (hn ▸ h)) hu
    refine ⟨?_, fun _ => htree'⟩
    rw [← hplan, Network.plan_eq_iff]
    exact ⟨hframe, by rw [harcs]⟩

theorem Sound.pivot (hs : Sound g s) {r : Except SolveError (Option (Pivot F))} (h : PivotRun s r s') :
    Sound g s' := by
  obtain ⟨hinput, hroot, hphase, -⟩ := h.constants
  obtain ⟨hplan, htree⟩ := pivot_keeps hs.tree (hs.numVertices_eq ▸ hs.root) h
  obtain ⟨hframe, hcosts⟩ := Network.plan_eq_iff.1 hplan
  refine ⟨hinput.trans hs.input, (Network.base_of_frame hframe).trans hs.base, hs.wellFormed.of_frame hframe, ?_, ?_, ?_⟩
  · rw [hphase]
    exact Network.HasCosts.congr hs.costs hcosts
  · rwa [hphase]
  · rw [hphase, hroot]
    exact hs.root

theorem Sound.pivots (hs : Sound g s) (h : Pivots s s') : Sound g s' := by
  induction h with
  | refl => exact hs
  | step _ h ih => exact ih.pivot h

/-- Pivoting keeps the plan. -/
theorem Sound.plan_pivots (hs : Sound g s) (h : Pivots s s') : s'.solution.plan = s.solution.plan := by
  induction h with
  | refl => rfl
  | step ht h ih =>
    have ht := hs.pivots ht
    exact (pivot_keeps ht.tree (ht.numVertices_eq ▸ ht.root) h).1.trans ih

theorem Sound.plan_optimize (hs : Sound g s) {r : Except SolveError Nat} (h : OptimizeRun s r s') :
    s'.solution.plan = s.solution.plan := by
  cases h with
  | noTree => rfl
  | optimal ht | limited ht =>
    have hplan := hs.plan_pivots ht
    exact hplan
  | failed ht h => exact hs.plan_pivots (.step ht h)

theorem Sound.restore (hs : Sound g s) {r : Except SolveError Unit} (h : RestoreRun s r s') : Sound g s' := by
  cases h with
  | noTree => exact hs
  | @restored c k k' all hphase _ hk hu =>
    have hframe := Network.frame_restore hk
    have hn := Network.numVertices_of_frame hframe
    have htree : SpanningTree s.tree k :=
      (hs.tree hphase).congr (hs.wellFormed.of_frame hframe) hn (Network.map_restore hk fun _ _ => rfl)
    have hroot : k.numVertices ≠ 0 → s.root.index < k.numVertices := by
      rw [hn, hs.numVertices_eq]
      exact hs.root hphase
    obtain ⟨htree, -, hframe', harcs⟩ := htree.computePotentials hroot hu
    refine ⟨hs.input, (Network.base_of_frame (hframe'.trans hframe)).trans hs.base, htree.wellFormed, ?_,
      fun _ => htree, fun _ => hs.root hphase⟩
    rw [hs.input] at hk
    exact Network.HasCosts.congr (Network.hasCosts_restore hs.wellFormed.toNumbered hk) (by rw [harcs])

theorem stable_sound (hg : g.WellFormed) : Stable (Sound g) where
  start hs h := by
    rcases sound_of_start hg hs.input h with ⟨-, rfl⟩ | ⟨-, -, hs'⟩
    · exact hs
    · exact hs'
  pivot hs h := hs.pivot h
  restore hs h := hs.restore h
  counters _ _ _ hs := ⟨hs.input, hs.base, hs.wellFormed, hs.costs, hs.tree, hs.root⟩

theorem Sound.setOptions (hs : Sound g s) (o : Options F) : Sound g { s with options := o } :=
  ⟨hs.input, hs.base, hs.wellFormed, hs.costs, hs.tree, hs.root⟩

theorem sound_of_reachable (hg : g.WellFormed) {allowed : Options F → Prop} (h : Reachable allowed g s) :
    Sound g s :=
  (stable_sound hg).reachable (sound_new hg) (fun hs _ => hs.setOptions _) h

/-- Whatever is asked of a solver with at least one vertex, outside the setup its tree arcs are one less than the
vertices and connect them, and the incidence lists have each tree arc once at both its ends and nothing else. -/
theorem spanning_tree_of_reachable (b : Builder F) (hn : 0 < b.numVertices)
    (h : Reachable (fun _ => True) b.network s) (hs : s.phase ≠ .setup) :
    s.solution.numTreeArcs + 1 = b.numVertices ∧ s.tree.count + 1 = b.numVertices ∧
      s.solution.tree.Spans b.numVertices ∧ s.solution.tree.Forest ∧
      ∀ v : VertexId, v.index < b.numVertices → ∃ as, s.tree.arcsAt v = .ok as ∧ as.Nodup ∧
        ∀ a, a ∈ as ↔ ∃ x ∈ s.solution.treeArcs, x.id = a ∧ (x.src = v ∨ x.snk = v) := by
  have hsound := sound_of_reachable (Network.wellFormed_network b) h
  have htree := hsound.tree hs
  have hsize : s.solution.numVertices = b.numVertices := by
    rw [hsound.numVertices_eq]
    simp [Network.numVertices, Builder.network, Builder.numVertices]
  have hcount : s.tree.count = s.solution.numTreeArcs := htree.lists.count
  have htreeArcs := htree.count
  rw [hsize] at htreeArcs
  refine ⟨by omega, by omega, hsize ▸ htree.spans, htree.forest, fun v hv => ?_⟩
  have hlt : v.index < s.tree.incident.size := by rw [htree.lists.size, hsize]; exact hv
  have has := Array.getElem?_eq_getElem hlt
  exact ⟨_, Checked.get_eq_ok_iff.2 has, htree.lists.nodup has, fun a => htree.lists.mem_iff has⟩

theorem spanning_tree_of_relay : ∃ s : Simplex Signed8, Reachable (fun _ => True) Builder.relay.network s ∧
    0 < Builder.relay.numVertices ∧ s.phase ≠ .setup ∧
    s.solution.numTreeArcs + 1 = Builder.relay.numVertices ∧ s.tree.count + 1 = Builder.relay.numVertices ∧
    s.solution.tree.Spans Builder.relay.numVertices ∧ s.solution.tree.Forest ∧
    ∀ v : VertexId, v.index < Builder.relay.numVertices → ∃ as, s.tree.arcsAt v = .ok as ∧ as.Nodup ∧
      ∀ a, a ∈ as ↔ ∃ x ∈ s.solution.treeArcs, x.id = a ∧ (x.src = v ∨ x.snk = v) := by
  have hrun : (new Builder.relay.network).run solve = .ok (.ok .optimal, (new Builder.relay.network).after solve) := by
    decide +kernel
  have hreach : Reachable (fun _ => True) Builder.relay.network ((new Builder.relay.network).after solve) :=
    .solve .new hrun
  have hphase : ((new Builder.relay.network).after solve).phase ≠ .setup := by decide +kernel
  exact ⟨_, hreach, by decide, hphase, spanning_tree_of_reachable Builder.relay (by decide) hreach hphase⟩

end

end Simplex

end Transportation
