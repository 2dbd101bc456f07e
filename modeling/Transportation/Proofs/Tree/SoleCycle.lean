import Transportation.Proofs.Tree.Spanning
import Transportation.Proofs.Tree.Trail
/-!
# The only cycle is found

The vertices of a cycle stay in the core, and if there is one cycle only, an arc between two vertices of the core lies
on it. So a cycle is found for the arcs of that cycle and for no others, whatever trees hang on it and whatever other
components there are. If there is no cycle, nothing is found (`cycle_of_proper`).
-/

namespace Transportation

variable {F : Type} {g : Network F} {t : Incidence} {z : VertexId} {a b : ArcId} {x : Arc F} {c d : List Step}

namespace Incidence

theorem isCycle_of_findCycle? (ht : t.ListsTree g) (hg : g.Numbered) (hx : g.arcs[a.index]? = some x)
    (hxt : x.inTree = true) (hf : (g.tree.without a).Forest) (h : t.findCycle? g a = .ok (some c)) :
    g.tree.IsCycle x.src c ∧ ∃ d, c = ⟨a, true⟩ :: d ∧ g.tree.Walk x.snk d x.src := by
  obtain ⟨⟨d, rfl⟩, ⟨w, hl, hw⟩, hn⟩ := cycle_of_findCycle? ht hg hx hxt hf h
  obtain ⟨ha, hn⟩ := List.nodup_cons.1 hn
  have hd : (g.tree.without a).Walk w d x.src := ArcSet.walk_without_iff.2 ⟨hw, ha⟩
  have hback : ArcSet.NonBacktracking d := List.Pairwise.isChain hn
  obtain ⟨-, rfl⟩ := (hg.leads_of_tree hx hxt).unique hl
  exact ⟨hl.isCycle hd (hf.nodup_starts hd hback), d, rfl, hw⟩

/-- A cycle is found for arcs only whose ends stay connected without them. -/
theorem connected_without_of_findCycle? (ht : t.ListsTree g) (hg : g.Proper) (hx : g.arcs[a.index]? = some x)
    (hxt : x.inTree = true) (hf : (g.tree.without b).Forest) (h : t.findCycle? g a = .ok (some c)) :
    (g.tree.without a).Connected x.src x.snk := by
  obtain ⟨core, -, hcore, hsrc, hsnk, -⟩ := findCycle?_eq_some hx h
  exact connected_without_of_core ht hg hcore hf (hg.leads_of_tree hx hxt) hsrc hsnk

/-- In a forest no cycle is found. -/
theorem findCycle?_of_forest (ht : t.ListsTree g) (hg : g.Proper) (hx : g.arcs[a.index]? = some x)
    (hxt : x.inTree = true) (hf : g.tree.Forest) : t.findCycle? g a = .ok none := by
  obtain ⟨_ | c, hc⟩ := exists_findCycle? ht hg hx
  · exact hc
  · exact absurd (connected_without_of_findCycle? ht hg hx hxt (b := a) (hf.without a) hc)
      (hf (hg.leads_of_tree hx hxt))

/-- The steps `d` go once around the cycle `c`, each of them forward if it leads from the source of its arc to the sink.
The arc `x` comes first, walked forward. -/
structure Rounds (g : Network F) (c : List Step) (x : Arc F) (d : List Step) : Prop where
  first : ∃ e, d = ⟨x.id, true⟩ :: e ∧ g.tree.Walk x.snk e x.src
  isCycle : g.tree.IsCycle x.src d
  arcs : (d.map Step.arc).Perm (c.map Step.arc)
  starts : (g.tree.starts d).Perm (g.tree.starts c)

/-- A cycle is found for the arcs of the only cycle and for no others. -/
theorem findCycle?_of_soleCycle (ht : t.ListsTree g) (hg : g.Proper) (hc : g.tree.SoleCycle z c)
    (hx : x ∈ g.treeArcs) : ∃ o, t.findCycle? g x.id = .ok o ∧ (o.isSome ↔ x.id ∈ c.map Step.arc) ∧
      ∀ d, o = some d → Rounds g c x d := by
  obtain ⟨hmem, hxt⟩ := Network.mem_treeArcs_iff.1 hx
  have hx := hg.getElem?_id hmem
  have hl := hg.leads_of_tree hx hxt
  by_cases ha : x.id ∈ c.map Step.arc
  · have hf : (g.tree.without x.id).Forest := hc.forest_without ha
    obtain ⟨d, hd⟩ := exists_findCycle?_some ht hg hx hxt (hc.isCycle.connected_without hl ha).symm hf
    obtain ⟨hcycle, hfirst⟩ := isCycle_of_findCycle? ht hg.toNumbered hx hxt hf hd
    have hperm := hc.perm hcycle
    refine ⟨some d, hd, by simp [ha], ?_⟩
    rintro _ ⟨rfl⟩
    exact ⟨hfirst, hcycle, hperm, hc.isCycle.perm_starts hcycle hperm⟩
  · obtain ⟨s, hs⟩ := List.exists_mem_of_ne_nil _ hc.isCycle.ne_nil
    obtain ⟨_ | d, ho⟩ := exists_findCycle? ht hg hx
    · exact ⟨none, ho, by simp [ha], by simp⟩
    · have h := connected_without_of_findCycle? ht hg hx hxt (hc.forest_without (List.mem_map_of_mem hs)) ho
      exact absurd (hc.mem_of_connected hl h) ha

/-- In a network without loops the lists of the tree arcs can be made, and the search for the cycle closed by a tree arc
does not fault. If there is one cycle, it is found for its arcs, and nothing is found for any other. If there is none,
nothing is found. -/
theorem cycle_of_proper (hg : g.Proper) : ∃ t, ofNetwork g = .ok t ∧
    (∀ z c, g.tree.SoleCycle z c → ∀ x ∈ g.treeArcs, ∃ o, t.findCycle? g x.id = .ok o ∧
      (o.isSome ↔ x.id ∈ c.map Step.arc) ∧ ∀ d, o = some d → Rounds g c x d) ∧
    (g.tree.Acyclic → ∀ x ∈ g.treeArcs, t.findCycle? g x.id = .ok none) := by
  obtain ⟨t, ht⟩ := exists_ofNetwork hg.toNumbered
  have hlists := listsTree_ofNetwork hg ht
  refine ⟨t, ht, ?_, ?_⟩
  · intro z c hc x hx
    exact findCycle?_of_soleCycle hlists hg hc hx
  · intro hacyclic x hx
    obtain ⟨hmem, hxt⟩ := Network.mem_treeArcs_iff.1 hx
    exact findCycle?_of_forest hlists hg (hg.getElem?_id hmem) hxt (ArcSet.forest_iff_acyclic.2 hacyclic)

end Incidence

/-- The cycle of the network `brook`. -/
def ArcSet.brookCycle : List Step :=
  [⟨⟨0⟩, true⟩, ⟨⟨1⟩, false⟩, ⟨⟨2⟩, true⟩, ⟨⟨4⟩, false⟩]

theorem soleCycle_brook : (Network.brook [0, 1, 2, 3, 4]).tree.SoleCycle ⟨0⟩ ArcSet.brookCycle := by
  have hg : (Network.brook [0, 1, 2, 3, 4]).Numbered := by decide +kernel
  have hleave : (Network.brook [0, 1, 2, 3, 4]).modifyArc ⟨4⟩ ({ · with inTree := false }) =
      .ok (.brook [0, 1, 2, 3]) := by decide +kernel
  have hcycle : (Network.brook [0, 1, 2, 3, 4]).tree.IsCycle ⟨0⟩ ArcSet.brookCycle := by
    refine ⟨⟨⟨1⟩, ?_, ⟨2⟩, ?_, ⟨3⟩, ?_, ⟨0⟩, ?_, rfl⟩, by decide, by decide, by decide +kernel⟩
    all_goals
      unfold ArcSet.Leads
      decide +kernel
  rw [hcycle.sole_iff (a := ⟨4⟩) (by decide), ← Network.tree_leave hg hleave]
  exact forest_brook

namespace Incidence

theorem cycle_of_brook : (Network.brook [0, 1, 2, 3, 4]).Proper ∧
    (Network.brook [0, 1, 2, 3, 4]).tree.SoleCycle ⟨0⟩ ArcSet.brookCycle ∧
    ∃ t, ofNetwork (.brook [0, 1, 2, 3, 4]) = .ok t ∧
      ∀ x ∈ (Network.brook [0, 1, 2, 3, 4]).treeArcs, ∃ o, t.findCycle? (.brook [0, 1, 2, 3, 4]) x.id = .ok o ∧
        (o.isSome ↔ x.id ∈ ArcSet.brookCycle.map Step.arc) ∧
        ∀ d, o = some d → Rounds (.brook [0, 1, 2, 3, 4]) ArcSet.brookCycle x d := by
  have hg : (Network.brook [0, 1, 2, 3, 4]).Proper := by decide +kernel
  obtain ⟨t, ht, hsole, -⟩ := cycle_of_proper hg
  exact ⟨hg, soleCycle_brook, t, ht, hsole _ _ soleCycle_brook⟩

end Incidence

end Transportation
