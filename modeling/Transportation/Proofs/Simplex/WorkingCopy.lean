import Transportation.Proofs.Simplex.Sound
/-!
# The working copy

Outside the setup the working copy is the instance with artificial arcs after its real arcs. Each of them is a bridge
between the hub and another vertex, in a direction in which no real arc leads, and no two of them are bridges to the same
vertex (`Bridged`). This is a matter of the `frame` alone, which only the beginning of the first phase changes.
-/

namespace Transportation

variable {F : Type}

/-- What is related to the elements of a list is related to elements that look alike. -/
theorem forall₂_of_map_eq {α β γ : Type} {R : γ → α → Prop} {f : α → β}
    (hR : ∀ {c : γ} {x y : α}, f y = f x → R c x → R c y) {cs : List γ} {xs ys : List α} (h : List.Forall₂ R cs xs)
    (e : ys.map f = xs.map f) : List.Forall₂ R cs ys := by
  induction h generalizing ys with
  | nil =>
    rw [List.map_eq_nil_iff.1 e]
    exact .nil
  | cons hx _ ih =>
    obtain ⟨y, ys, rfl, hy, hys⟩ := List.map_eq_cons_iff.1 e
    exact .cons (hR hy hx) (ih hys)

namespace Network

variable {g h k : Network F} {v : VertexId} {x y : Arc F}

/-- An artificial arc that joins `v` to the hub of `g`, in a direction in which no real arc of `g` leads. -/
structure Bridges (g : Network F) (v : VertexId) (x : Arc F) : Prop where
  artificial : x.kind = .artificial
  ends : (x.src = v ∧ x.snk = g.hub) ∨ (x.src = g.hub ∧ x.snk = v)
  missing : ∀ a ∈ g.realArcs, ¬ (a.src = x.src ∧ a.snk = x.snk)

theorem Bridges.congr (hx : g.Bridges v x) (e : y.frame = x.frame) : g.Bridges v y := by
  obtain ⟨-, hsrc, hsnk, hkind⟩ := Arc.frame_eq_iff.1 e
  refine ⟨hkind.trans hx.artificial, ?_, ?_⟩
  · rw [hsrc, hsnk]
    exact hx.ends
  · rw [hsrc, hsnk]
    exact hx.missing

/-- Networks of one base have the same hub and real arcs in the same directions. -/
theorem Bridges.of_base (hx : h.Bridges v x) (e : h.base = g.base) : g.Bridges v x := by
  have hhub : h.hub = g.hub := by simp only [hub, numVertices_of_base e]
  refine ⟨hx.artificial, hhub ▸ hx.ends, fun a ha => ?_⟩
  have hreal : h.realArcs.map Arc.frame = g.realArcs.map Arc.frame := congrArg (·.2.2.2) e
  obtain ⟨a', ha', hframe⟩ := List.mem_map.1 (hreal ▸ List.mem_map_of_mem ha)
  obtain ⟨-, hsrc, hsnk, -⟩ := Arc.frame_eq_iff.1 hframe
  rw [← hsrc, ← hsnk]
  exact hx.missing a' ha'

/-- The artificial arcs of `h` are bridges of `g` to different vertices of `vs`. -/
def BridgedTo (g : Network F) (vs : List VertexId) (h : Network F) : Prop :=
  ∃ us : List VertexId, us.Sublist vs ∧ List.Forall₂ g.Bridges us h.artificialArcs

theorem artificialArcs_of_frame (e : h.frame = k.frame) :
    h.artificialArcs.map Arc.frame = k.artificialArcs.map Arc.frame := by
  have key : ∀ k : Network F,
      k.artificialArcs.map Arc.frame = (k.frame.2.2.2.toList).filter (·.2.2.2 = .artificial) := by
    intro k
    simp only [frame, artificialArcs, Array.toList_map, List.filter_map]
    rfl
  rw [key, key, e]

theorem BridgedTo.of_frame {vs : List VertexId} (hk : g.BridgedTo vs k) (e : h.frame = k.frame) : g.BridgedTo vs h := by
  obtain ⟨us, hus, hall⟩ := hk
  exact ⟨us, hus, forall₂_of_map_eq (fun e hx => hx.congr e) hall (artificialArcs_of_frame e)⟩

theorem BridgedTo.push {vs : List VertexId} (hh : g.BridgedTo vs h) (hx : g.Bridges v x) :
    g.BridgedTo (vs ++ [v]) { h with arcs := h.arcs.push x } := by
  obtain ⟨us, hus, hall⟩ := hh
  refine ⟨us ++ [v], hus.append (.refl _), ?_⟩
  have e : ({ h with arcs := h.arcs.push x } : Network F).artificialArcs = h.artificialArcs ++ [x] := by
    simp [artificialArcs, Arc.isArtificial, hx.artificial]
  rw [e]
  exact List.rel_append hall (.cons hx .nil)

theorem findArc?_eq_none_iff {u w : VertexId} :
    g.findArc? u w = none ↔ ∀ a ∈ g.realArcs, ¬ (a.src = u ∧ a.snk = w) := by
  simp [findArc?, realArcs, List.mem_filter, and_imp]

variable [Amount F]

/-! ## The bridges of the star -/

/-- A vertex is joined to the hub by a real arc, which is there already, or by a new bridge. -/
theorem frame_or_bridge_of_join {u w : VertexId} {flow : F} (e : g.join u w flow = .ok h)
    (hends : (u = v ∧ w = g.hub) ∨ (u = g.hub ∧ w = v)) :
    h.frame = g.frame ∨ ∃ x, g.Bridges v x ∧ h = { g with arcs := g.arcs.push x } := by
  unfold join at e
  cases ha : g.findArc? u w with
  | some a =>
    simp only [ha, Option.elim_some] at e
    exact .inl (frame_modifyArc e fun _ => rfl)
  | none =>
    simp only [ha, Option.elim_none, addArtificialArc, Checked.require_bind_eq_ok_iff, Checked.pure_eq_ok_iff] at e
    obtain ⟨-, rfl⟩ := e
    exact .inr ⟨_, ⟨rfl, hends, findArc?_eq_none_iff.1 ha⟩, rfl⟩

theorem frame_or_bridge_of_joinHub (e : g.joinHub v = .ok h) :
    h.frame = g.frame ∨ ∃ x, g.Bridges v x ∧ h = { g with arcs := g.arcs.push x } := by
  rw [joinHub_eq] at e
  obtain ⟨w, -, e⟩ := Checked.bind_eq_ok_iff.1 e
  split at e
  · obtain ⟨flow, -, e⟩ := Checked.bind_eq_ok_iff.1 e
    exact frame_or_bridge_of_join e (.inl ⟨rfl, rfl⟩)
  · exact frame_or_bridge_of_join e (.inr ⟨rfl, rfl⟩)

theorem artificialArcs_cleared : g.cleared.artificialArcs = [] := by
  refine List.filter_eq_nil_iff.2 fun x hx => ?_
  obtain ⟨y, hy, rfl⟩ : ∃ y ∈ g.arcs.filter Arc.isReal, _ = x := by
    simpa [cleared, mapArcs, dropArtificialArcs] using hx
  have hk : y.kind = .real := by simpa [Arc.isReal] using (Array.mem_filter.1 hy).2
  simp [Arc.isArtificial, hk]

/-- The artificial arcs of the star are bridges to vertices joined to the hub. -/
theorem bridgedTo_star (e : g.star = .ok h) : g.BridgedTo (g.vertexIds.filter (· ≠ g.hub)) h := by
  have e : (g.vertexIds.filter (· ≠ g.hub)).foldlM joinHub g.cleared = .ok h := e
  refine (Checked.foldlM_induction (fun done h => h.base = g.base ∧ g.BridgedTo done h) e
    ⟨base_cleared, [], .slnil, ?_⟩ ?_).2
  · rw [artificialArcs_cleared]
    exact .nil
  · rintro done v h k - ⟨hbase, hh⟩ e
    rcases frame_or_bridge_of_joinHub e with hframe | ⟨x, hx, rfl⟩
    · obtain ⟨us, hus, hall⟩ := hh.of_frame hframe
      exact ⟨(base_of_frame hframe).trans hbase, us, hus.trans (List.sublist_append_left _ _), hall⟩
    · exact ⟨(base_push hx.artificial).trans hbase, hh.push (hx.of_base hbase)⟩

end Network

namespace Simplex

open Network

variable [Amount F] {g : Network F} {s s' : Simplex F}

/-! ## What operations do to the frame -/

/-- Outside the setup the artificial arcs of the working copy are bridges of the instance. -/
structure Bridged (g : Network F) (s : Simplex F) : Prop extends Sound g s where
  bridges : s.phase ≠ .setup → g.BridgedTo (g.vertexIds.filter (· ≠ g.hub)) s.solution

theorem Bridged.start (hs : Bridged g s) (hg : g.WellFormed) {r : Except SolveError Unit} (h : StartRun s r s') :
    Bridged g s' := by
  refine ⟨(stable_sound hg).start hs.toSound h, fun hphase => ?_⟩
  cases h with
  | unbalanced => exact hs.bridges hphase
  | started _ hstar ht hu =>
    rw [hs.input] at hstar
    have hwhole := star_of_eq_ok hg hstar
    obtain ⟨-, -, hframe, -⟩ := (spanningTree_star hwhole ht).computePotentials
      (firstSupplier_lt hwhole.wellFormed.toNumbered) hu
    exact (bridgedTo_star hstar).of_frame hframe

theorem Bridged.pivot (hs : Bridged g s) {r : Except SolveError (Option (Pivot F))} (h : PivotRun s r s') :
    Bridged g s' := by
  obtain ⟨hplan, -⟩ := pivot_keeps hs.tree (hs.numVertices_eq ▸ hs.root) h
  refine ⟨hs.toSound.pivot h, fun hphase => ?_⟩
  rw [h.constants.2.2.1] at hphase
  exact (hs.bridges hphase).of_frame (plan_eq_iff.1 hplan).1

theorem Bridged.restore (hs : Bridged g s) {r : Except SolveError Unit} (h : RestoreRun s r s') : Bridged g s' := by
  refine ⟨hs.toSound.restore h, fun hphase => ?_⟩
  cases h with
  | noTree => exact hs.bridges hphase
  | restored hne _ hk hu =>
    have hframe := frame_restore hk
    have hn := numVertices_of_frame hframe
    have htree := (hs.tree hne).congr (hs.wellFormed.of_frame hframe) hn (map_restore hk fun _ _ => rfl)
    obtain ⟨-, -, hframe', -⟩ := htree.computePotentials (hs.root_lt hne hn) hu
    exact (hs.bridges hne).of_frame (hframe'.trans hframe)

theorem stable_bridged (hg : g.WellFormed) : Stable (Bridged g) where
  start hs h := hs.start hg h
  pivot hs h := hs.pivot h
  restore hs h := hs.restore h
  counters _ _ _ hs := ⟨(stable_sound hg).counters _ _ _ hs.toSound, hs.bridges⟩

theorem bridged_of_reachable (hg : g.WellFormed) {allowed : Options F → Prop} (h : Reachable allowed g s) :
    Bridged g s :=
  (stable_bridged hg).reachable ⟨sound_new hg, fun h => absurd rfl h⟩
    (fun hs _ => ⟨hs.toSound.setOptions _, hs.bridges⟩) h

/-! ## The arcs of the instance -/

omit [Amount F] in
theorem wellFormed_setId (hg : g.WellFormed) (id : Nat) : (g.setId id).WellFormed :=
  ⟨⟨hg.vertex_id, hg.arc_id, hg.src_lt, hg.snk_lt⟩, hg.loopless, hg.layered⟩

/-- What a phase makes of a link: a real arc with its ends, at no cost in the first phase and at its own in the
second. -/
structure Traces (phase : Phase) (l : Link F) (x : Arc F) : Prop where
  real : x.kind = .real
  src : x.src = l.src
  snk : x.snk = l.snk
  initial : phase = .initial → x.cost = Amount.zero
  optimal : phase = .optimal → x.cost = l.cost

/-- The real arcs of a working copy are the links, one by one. -/
theorem Sound.traces {b : Builder F} {id : Nat} (hs : Sound (b.network.setId id) s) :
    List.Forall₂ (Traces s.phase) b.links.toList s.solution.realArcs := by
  have hg := wellFormed_setId (wellFormed_network b) id
  have hmap : s.solution.realArcs.map Arc.frame = b.network.realArcs.map Arc.frame := congrArg (·.2.2.2) hs.base
  have hlen : b.links.toList.length = s.solution.realArcs.length := by
    have hlen := congrArg List.length hmap
    rw [List.length_map, List.length_map, length_realArcs_network] at hlen
    exact hlen.symm
  refine List.forall₂_iff_get.2 ⟨hlen, fun i hi hi' => ?_⟩
  generalize hat : s.solution.realArcs.get ⟨i, hi'⟩ = x
  obtain ⟨hx, hk⟩ := hs.wellFormed.getElem?_realArcs.1
    ((List.getElem?_eq_getElem hi').trans (congrArg some hat))
  obtain ⟨y, hy, hframe⟩ := exists_real_of_base hs.base hs.wellFormed hg hx hk
  have hl : b.network.arcs[i]? = some (Builder.arc i (b.links.toList.get ⟨i, hi⟩)) := by
    rw [getElem?_network_arcs, ← Array.getElem?_toList, List.getElem?_eq_getElem hi]
    rfl
  obtain rfl : _ = y := Option.some.inj (hl.symm.trans hy)
  obtain ⟨-, hsrc, hsnk, -⟩ := Arc.frame_eq_iff.1 hframe
  have hcost := hs.costs hx
  refine ⟨hk, hsrc.symm, hsnk.symm, fun hphase => ?_, fun hphase => ?_⟩
  · simpa only [hphase, hk] using hcost
  · simp only [hphase, hk] at hcost
    obtain ⟨z, hz, hcost⟩ := hcost
    obtain rfl := Option.some.inj (hl.symm.trans hz)
    exact hcost

/-- The network `h` is the one of the builder `b`, of the given number, as a phase works on it: with its name and its
weights, and with artificial arcs after its real ones. These join the hub with different vertices, where no link leads. -/
structure WorkingCopy (b : Builder F) (id : Nat) (phase : Phase) (h : Network F) : Prop where
  id_eq : h.id = id
  name_eq : h.name = b.name
  weights_eq : h.vertices.toList.map Vertex.weight = b.weights.toList
  vertex_id : ∀ (i : Nat) (v : Vertex F), h.vertices[i]? = some v → v.id = ⟨i⟩
  arc_id : ∀ (i : Nat) (x : Arc F), h.arcs[i]? = some x → x.id = ⟨i⟩
  arcs_eq : ∃ (reals bridges : List (Arc F)) (us : List VertexId), h.arcs.toList = reals ++ bridges ∧
    List.Forall₂ (Traces phase) b.links.toList reals ∧
    us.Nodup ∧ (∀ u ∈ us, u.index < b.numVertices ∧ u ≠ ⟨b.numVertices / 2⟩) ∧
    List.Forall₂ (fun u x => x.kind = .artificial ∧
      ((x.src = u ∧ x.snk = ⟨b.numVertices / 2⟩) ∨ (x.src = ⟨b.numVertices / 2⟩ ∧ x.snk = u)) ∧
      ∀ l ∈ b.links, ¬ (l.src = x.src ∧ l.snk = x.snk)) us bridges

theorem Sound.weights_eq {b : Builder F} {id : Nat} (hs : Sound (b.network.setId id) s) :
    s.solution.vertices.toList.map Vertex.weight = b.weights.toList := by
  have hframe : s.solution.vertices.map Vertex.frame = b.network.vertices.map Vertex.frame := congrArg (·.2.2.1) hs.base
  have hweights := congrArg (fun vs => vs.toList.map Prod.snd) hframe
  simp only [Array.toList_map, List.map_map] at hweights
  calc s.solution.vertices.toList.map Vertex.weight
      = b.network.vertices.toList.map Vertex.weight := hweights
    _ = b.weights.toList := map_weight_network b

/-- Whatever is asked of a solver, outside the setup it holds a working copy of its instance. -/
theorem solution_of_reachable (b : Builder F) (id : Nat)
    (h : Reachable (fun _ => True) (b.network.setId id) s) (hs : s.phase ≠ .setup) :
    WorkingCopy b id s.phase s.solution := by
  have hg := wellFormed_setId (wellFormed_network b) id
  have hbridged := bridged_of_reachable hg h
  have hsound := hbridged.toSound
  have hhub : (b.network.setId id).hub = ⟨b.numVertices / 2⟩ := by
    rw [← numVertices_network b]
    rfl
  obtain ⟨us, hus, hall⟩ := hbridged.bridges hs
  refine ⟨congrArg (·.1) hsound.base, congrArg (·.2.1) hsound.base, hsound.weights_eq,
    fun i v => hsound.wellFormed.vertex_id, fun i x => hsound.wellFormed.arc_id, _, _, us, hsound.wellFormed.toList_eq,
    hsound.traces, ((nodup_vertexIds _).filter _).sublist hus, fun u hu => ?_, ?_⟩
  · obtain ⟨hlt, hne⟩ := of_mem_filter_hub (hus.subset hu)
    rw [hhub] at hne
    exact ⟨(numVertices_network b).symm ▸ hlt, hne⟩
  · refine hall.imp fun u x hx => ⟨hx.artificial, hhub ▸ hx.ends, fun l hl hends => ?_⟩
    obtain ⟨i, hi⟩ := Array.getElem?_of_mem hl
    have ha : b.network.arcs[i]? = some (Builder.arc i l) := by rw [getElem?_network_arcs, hi, Option.map_some]
    exact hx.missing (Builder.arc i l) (List.mem_filter.2 ⟨mem_arcs_iff.2 ⟨i, ha⟩, rfl⟩) hends

/-- The working copy of the relay has two artificial arcs, also when the first phase has begun anew after a solution. -/
theorem solution_of_relay : ∃ s : Simplex Signed8,
    Reachable (fun _ => True) (Builder.relay.network.setId 7) s ∧ s.phase ≠ .setup ∧ s.phase = .initial ∧
    s.solution.artificialArcs.length = 2 ∧ WorkingCopy Builder.relay 7 s.phase s.solution := by
  have hsolve : (new (Builder.relay.network.setId 7)).run solve =
      .ok (.ok .optimal, (new (Builder.relay.network.setId 7)).after solve) := by decide +kernel
  have hstart : ((new (Builder.relay.network.setId 7)).after solve).run start =
      .ok (.ok (), ((new (Builder.relay.network.setId 7)).after solve).after start) := by decide +kernel
  have hreach : Reachable (fun _ => True) (Builder.relay.network.setId 7)
      (((new (Builder.relay.network.setId 7)).after solve).after start) := .start (.solve .new hsolve) hstart
  have hphase : (((new (Builder.relay.network.setId 7)).after solve).after start).phase = .initial := by decide +kernel
  have hne : (((new (Builder.relay.network.setId 7)).after solve).after start).phase ≠ .setup := by
    rw [hphase]
    decide
  exact ⟨_, hreach, hne, hphase, by decide +kernel, solution_of_reachable Builder.relay 7 hreach hne⟩

end Simplex

end Transportation
