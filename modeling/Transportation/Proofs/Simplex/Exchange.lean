import Transportation.Proofs.Network.Push
import Transportation.Proofs.Simplex.Star
import Transportation.Proofs.Tree.Potential
import Transportation.Proofs.Tree.Trail
/-!
# Exchanging tree arcs

Between pivots the tree arcs form a spanning tree (`SpanningTree`). Within a pivot there is one arc more
(`Unicyclic`). A spanning tree is left whichever arc of the cycle leaves.
-/

namespace Transportation

variable {F : Type} {t t' : Incidence} {g h : Network F} {a b : ArcId} {x : Arc F}

/-- The tree arcs of `g` form a spanning tree and `t` lists them. -/
structure SpanningTree (t : Incidence) (g : Network F) : Prop where
  wellFormed : g.WellFormed
  lists : t.ListsTree g
  spans : g.tree.Spans g.numVertices
  count : g.numTreeArcs = g.numVertices - 1

/-- The tree arcs of `g` other than `a` form a spanning tree, and `t` lists all of them. -/
structure Unicyclic (t : Incidence) (g : Network F) (a : ArcId) : Prop where
  wellFormed : g.WellFormed
  lists : t.ListsTree g
  entering : ∃ x, g.arcs[a.index]? = some x ∧ x.inTree = true
  spans : (g.tree.without a).Spans g.numVertices
  forest : (g.tree.without a).Forest
  count : g.numTreeArcs = g.numVertices - 1 + 1

theorem SpanningTree.forest (hs : SpanningTree t g) : g.tree.Forest := by
  rcases Nat.eq_zero_or_pos g.numVertices with hn | hn
  · intro s u v hl
    have := hs.wellFormed.within_tree hl
    omega
  · refine hs.wellFormed.toNumbered.forest hs.spans ?_
    have := hs.count
    omega

theorem SpanningTree.congr (hs : SpanningTree t g) (hg : h.WellFormed) (hn : h.numVertices = g.numVertices)
    (e : h.arcs.map (fun x => (x.id, x.src, x.snk, x.inTree)) = g.arcs.map fun x => (x.id, x.src, x.snk, x.inTree)) :
    SpanningTree t h := by
  have htree : h.tree = g.tree := by
    refine Network.tree_congr hg.toNumbered hs.wellFormed.toNumbered fun i => ?_
    have e := congrArg (fun l => l[i]?.map fun p => (p.2.1, p.2.2.1, p.2.2.2)) e
    simpa [Function.comp_def] using e
  have hlists := hs.lists.congr hn e
  refine ⟨hg, hlists, by rw [htree, hn]; exact hs.spans, ?_⟩
  have h₁ := hlists.count
  have h₂ := hs.lists.count
  rw [hn, ← hs.count]
  exact h₁.symm.trans h₂

/-! ## Within a pivot -/

theorem SpanningTree.insert (hs : SpanningTree t g) (e : t.insert g a = .ok (t', h)) : Unicyclic t' h a := by
  have hlists := hs.lists.insert hs.wellFormed e
  obtain ⟨x, hx, ht, -, hm⟩ := Incidence.insert_eq_ok_iff.1 e
  have hframe : h.frame = g.frame := Network.frame_modifyArc hm fun _ => rfl
  have hn := Network.numVertices_of_frame hframe
  obtain ⟨htree, -⟩ := Network.tree_enter hs.wellFormed.toNumbered hm hx ht
  refine ⟨hs.wellFormed.of_frame hframe, hlists, ⟨{ x with inTree := true }, ?_, rfl⟩, ?_, ?_, ?_⟩
  · rw [Network.getElem?_modifyArc hm, if_pos rfl, hx]
    rfl
  · rw [htree, hn]
    exact hs.spans
  · rw [htree]
    exact hs.forest
  · rw [Network.numTreeArcs, (Network.treeArcs_enter hm hx ht rfl).length_eq, List.length_append, hn, ← hs.count]
    rfl

theorem Unicyclic.of_drained [Amount F] (hs : Unicyclic t g a) (e : h.drained = g.drained) : Unicyclic t h a := by
  have hframe := Network.frame_of_drained e
  have hn := Network.numVertices_of_frame hframe
  have htree := Network.tree_of_drained e hs.wellFormed.toNumbered
  have hlists := hs.lists.congr hn (Network.map_arcs_of_drained e fun _ => rfl)
  refine ⟨hs.wellFormed.of_frame hframe, hlists, ?_, by rw [htree, hn]; exact hs.spans,
    by rw [htree]; exact hs.forest, ?_⟩
  · obtain ⟨x, hx, ht⟩ := hs.entering
    obtain ⟨y, hy, hxy⟩ := Network.exists_arc_of_drained e.symm hx
    exact ⟨y, hy, (congrArg Arc.inTree hxy).trans ht⟩
  · rw [hn, ← hs.count]
    exact hlists.count.symm.trans hs.lists.count

theorem Unicyclic.remove (hs : Unicyclic t g a) (e : t.remove g b = .ok (t', h))
    (hb : (g.tree.without b).Spans g.numVertices) : SpanningTree t' h := by
  have hlists := hs.lists.remove hs.wellFormed e
  obtain ⟨x, hx, ht, -, hm⟩ := Incidence.remove_eq_ok_iff.1 e
  have hframe : h.frame = g.frame := Network.frame_modifyArc hm fun _ => rfl
  have hn := Network.numVertices_of_frame hframe
  refine ⟨hs.wellFormed.of_frame hframe, hlists, ?_, ?_⟩
  · rw [Network.tree_leave hs.wellFormed.toNumbered hm, hn]
    exact hb
  · have hcount := hs.count
    have hlen := (Network.treeArcs_leave hm hx ht).length_eq
    rw [Network.numTreeArcs] at hcount
    rw [List.length_append, List.length_singleton] at hlen
    rw [Network.numTreeArcs, hn]
    omega

/-- If the entering arc leaves, the tree is as it was before. -/
theorem Unicyclic.remove_entering (hs : Unicyclic t g a) (e : t.remove g a = .ok (t', h)) : SpanningTree t' h :=
  hs.remove e hs.spans

/-- The cycle found is closed and uses no arc twice. The entering arc comes first, walked forward. -/
theorem Unicyclic.cycle (hs : Unicyclic t g a) {c : List Step} (e : t.findCycle? g a = .ok (some c)) :
    (∃ d, c = ⟨a, true⟩ :: d) ∧ (∃ u, g.tree.Walk u c u) ∧ (c.map Step.arc).Nodup := by
  obtain ⟨x, hx, ht⟩ := hs.entering
  obtain ⟨hd, hw, hn⟩ := Incidence.cycle_of_findCycle? hs.lists hs.wellFormed.toNumbered hx ht hs.forest e
  exact ⟨hd, ⟨_, hw⟩, hn⟩

/-- The cycle leads along the entering arc and back through the tree as it was before. -/
theorem SpanningTree.back_of_cycle (hs : SpanningTree t g) (hx : g.arcs[a.index]? = some x)
    (hi : t.insert g a = .ok (t', h)) {c : List Step} (e : t'.findCycle? h a = .ok (some c)) :
    ∃ d, c = ⟨a, true⟩ :: d ∧ g.tree.Walk x.snk d x.src ∧ (d.map Step.arc).Nodup := by
  obtain ⟨y, hy, ht, -, hm⟩ := Incidence.insert_eq_ok_iff.1 hi
  rw [hx, Option.some.injEq] at hy
  subst hy
  obtain ⟨hrest, hends⟩ := Network.tree_enter hs.wellFormed.toNumbered hm hx ht
  obtain ⟨⟨d, rfl⟩, ⟨u, w, hfirst, hw⟩, hn⟩ := (hs.insert hi).cycle e
  rw [List.map_cons, List.nodup_cons] at hn
  have hfirst : h.tree.ends a = some (u, w) := hfirst
  rw [hends, Option.some.injEq, Prod.mk.injEq] at hfirst
  obtain ⟨rfl, rfl⟩ := hfirst
  exact ⟨d, rfl, hrest ▸ ArcSet.walk_without_iff.2 ⟨hw, hn.1⟩, hn.2⟩

/-- There is a cycle to be found. -/
theorem Unicyclic.exists_cycle (hs : Unicyclic t g a) : ∃ c, t.findCycle? g a = .ok (some c) := by
  obtain ⟨x, hx, ht⟩ := hs.entering
  have hsrc := hs.wellFormed.src_lt hx
  have hsnk := hs.wellFormed.snk_lt hx
  exact Incidence.exists_findCycle?_some hs.lists hs.wellFormed.proper hx ht (hs.spans _ _ hsnk hsrc) hs.forest

/-- Whichever arc of the cycle leaves, the others connect all vertices. -/
theorem Unicyclic.spans_without (hs : Unicyclic t g a) {c : List Step} {u : VertexId} (hw : g.tree.Walk u c u)
    (hn : (c.map Step.arc).Nodup) (hb : b ∈ c.map Step.arc) : (g.tree.without b).Spans g.numVertices := by
  intro v w hv hw'
  -- A path in the old tree stays one when the entering arc is added, and the rest of the cycle
  -- replaces `b` in it.
  exact ((hs.spans v w hv hw').sub (g.tree.without_sub a)).without_of_cycle hw hn hb

/-- An arc that enters and leaves again leaves nothing behind. -/
theorem treeArcs_of_insert_remove {t₁ t₂ : Incidence} {g₁ g₂ : Network F} (hi : t.insert g a = .ok (t₁, g₁))
    (hl : t₁.remove g₁ a = .ok (t₂, g₂)) :
    g₂.vertices = g.vertices ∧ ∀ x ∈ g₂.treeArcs, x ∈ g.treeArcs := by
  obtain ⟨_, _, _, -, hi⟩ := Incidence.insert_eq_ok_iff.1 hi
  obtain ⟨_, _, _, -, hl⟩ := Incidence.remove_eq_ok_iff.1 hl
  refine ⟨(Network.vertices_modifyArc hl).trans (Network.vertices_modifyArc hi), fun x hx => ?_⟩
  obtain ⟨hx, ht⟩ := Network.mem_treeArcs_iff.1 hx
  obtain ⟨i, hx⟩ := Network.mem_arcs_iff.1 hx
  rw [Network.getElem?_modifyArc hl] at hx
  split at hx
  · obtain ⟨y, -, rfl⟩ := Option.map_eq_some_iff.1 hx
    cases ht
  · next hne =>
    rw [Network.getElem?_modifyArc hi, if_neg hne] at hx
    exact Network.mem_treeArcs_iff.2 ⟨Network.mem_arcs_iff.2 ⟨_, hx⟩, ht⟩

/-! ## After a pivot -/

theorem SpanningTree.withPotentials (hs : SpanningTree t g) {ps : Array F} (hps : ps.size = g.numVertices) :
    SpanningTree t (g.withPotentials ps) := by
  have hframe := Network.frame_withPotentials hps
  exact hs.congr (hs.wellFormed.of_frame hframe) (Network.numVertices_of_frame hframe) rfl

variable [Amount F]

/-- The blocking arc of the cycle leaves a spanning tree behind. -/
theorem SpanningTree.exchange (hs : SpanningTree t g) {t₁ t₂ : Incidence} {g₁ g₂ : Network F} {c : List Step}
    {tolerance : F} {b : Blocking F} (hi : t.insert g a = .ok (t₁, g₁)) (hc : t₁.findCycle? g₁ a = .ok (some c))
    (hb : g₁.blocking? tolerance c = .ok (some b)) (hp : g₁.push b.flow c = .ok g₂)
    (hl : t₁.remove g₂ b.arc = .ok (t₂, h)) : SpanningTree t₂ h := by
  have huni := hs.insert hi
  obtain ⟨-, ⟨u, hw⟩, hn⟩ := huni.cycle hc
  obtain ⟨x, -, -, -, hmem⟩ := Network.blocks_of_blocking? hb
  have hdrained := Network.drained_push hp
  refine (huni.of_drained hdrained).remove hl ?_
  rw [Network.tree_of_drained hdrained huni.wellFormed.toNumbered,
    Network.numVertices_of_frame (Network.frame_of_drained hdrained)]
  exact huni.spans_without hw hn (List.mem_map_of_mem hmem)

/-- The potentials of a spanning tree are found at all vertices. -/
theorem SpanningTree.computePotentials (hs : SpanningTree t g) {root : VertexId} {all : Bool}
    (hroot : g.numVertices ≠ 0 → root.index < g.numVertices) (e : t.computePotentials g root = .ok (h, all)) :
    SpanningTree t h ∧ all = true ∧ h.frame = g.frame ∧ h.arcs = g.arcs := by
  obtain ⟨ps, hps, rfl⟩ := Incidence.computePotentials_eq_ok_iff.1 e
  have hsize := Incidence.size_potentials hs.wellFormed.toNumbered hs.lists.holds hroot hps
  exact ⟨hs.withPotentials hsize, Incidence.all_of_spans hs.wellFormed.toNumbered hs.lists.holds hroot hs.spans hps,
    Network.frame_withPotentials hsize, rfl⟩

/-- Along every arc of a spanning tree the new potentials are related as each step along it relates them. -/
theorem SpanningTree.related (hs : SpanningTree t g) {R : Arc F → F → F → Prop} {Good : F → Prop}
    (hc : Incidence.Carries R Good g) {root : VertexId} {all : Bool}
    (hroot : g.numVertices ≠ 0 → root.index < g.numVertices) (e : t.computePotentials g root = .ok (h, all))
    (hx : x ∈ h.treeArcs) : ∃ v w, h.vertices[x.src.index]? = some v ∧ h.vertices[x.snk.index]? = some w ∧
      R x v.potential w.potential := by
  obtain ⟨ps, hps, rfl⟩ := Incidence.computePotentials_eq_ok_iff.1 e
  have hg := hs.wellFormed.toNumbered
  have hx : x ∈ g.treeArcs := hx
  obtain ⟨i, hi⟩ := Network.mem_arcs_iff.1 (Network.mem_treeArcs_iff.1 hx).1
  have hsrc := hg.src_lt hi
  have hroot := hroot (by omega)
  have hl : g.tree.Leads ⟨x.id, true⟩ x.src x.snk := hg.leads_of_mem hx
  obtain ⟨p, q, hp, hq, hR⟩ := (Incidence.potentials_of_eq_ok hg hs.lists.holds hc hroot hps).related hg hx
    (hs.spans _ _ hroot hsrc) (hs.forest hl)
  exact ⟨_, _, Network.getElem?_withPotentials (Array.getElem?_eq_getElem hsrc) hp,
    Network.getElem?_withPotentials (Array.getElem?_eq_getElem (hg.snk_lt hi)) hq, hR⟩

theorem spanningTree_star (hs : Network.Star g (g.vertexIds.filter (· ≠ g.hub)) h)
    (e : Incidence.ofNetwork h = .ok t) : SpanningTree t h :=
  ⟨hs.wellFormed, Incidence.listsTree_ofNetwork hs.wellFormed.proper e, hs.spans, hs.numTreeArcs_eq⟩

end Transportation
