import Transportation.Amount.Signed
import Transportation.Proofs.Tree.Acyclic
import Transportation.Proofs.Tree.Search
import Transportation.Tree.Spanning
/-!
# Spanning trees are recognized

The check counts the tree arcs and searches from the first vertex. Neither is about cycles: that arcs which connect
all vertices have no cycle is seen from their number alone. This holds with parallel arcs and loops too, each of
which is a cycle and counts as an arc.
-/

namespace Transportation

variable {F : Type} {g : Network F} {t : Incidence}

namespace Incidence

theorem isSpanning_of_empty (hg : g.Numbered) (ht : t.HoldsTree g) (hn : g.numVertices = 0) :
    g.treeArcs = [] ∧ t.isSpanning g = .ok true := by
  have hnil : g.treeArcs = [] := by
    refine List.eq_nil_iff_forall_not_mem.2 fun x hx => ?_
    obtain ⟨i, hi⟩ := Network.mem_arcs_iff.1 (Network.mem_treeArcs_iff.1 hx).1
    have := hg.src_lt hi
    omega
  have hcount : t.count = 0 := by
    rw [ht.count, hnil, List.length_nil]
  refine ⟨hnil, ?_⟩
  unfold isSpanning
  simp only [hn, if_true, hcount, decide_true]
  rfl

/-- With one arc less than vertices, the search from the first vertex decides. -/
theorem isSpanning_of_count (hg : g.Numbered) (ht : t.HoldsTree g) (hn : t.count + 1 = g.numVertices) :
    ∃ b, t.isSpanning g = .ok b ∧ (b = true ↔ g.tree.Spans g.numVertices) := by
  have hroot : (⟨0⟩ : VertexId).index < g.numVertices := by
    show 0 < _
    omega
  have hkept : Search.Kept g (fun _ _ _ => (pure : Unit → Checked Unit)) fun _ _ => True :=
    fun _ _ _ _ _ _ => trivial
  have hguarded : Search.Guarded (fun _ => False) g (fun _ _ _ => (pure : Unit → Checked Unit)) fun _ _ => True :=
    fun _ _ _ _ _ => .pure _
  obtain ⟨s, hs⟩ := (Search.faultsOnly_run hg ht @hkept @hguarded hroot (r := ()) trivial).exists_ok
  refine ⟨decide (s.reached = g.numVertices), ?_, ?_⟩
  · unfold isSpanning
    simp only [show g.numVertices ≠ 0 by omega, hn, if_true, if_false, hs, Checked.ok_bind]
    rfl
  · rw [decide_eq_true_iff, (Search.found_of_run hg ht @hkept hroot trivial hs).reached_eq_iff, ArcSet.spans_iff hroot]

/-- The check does not fault and tells whether the tree arcs connect all vertices and form a forest. -/
theorem isSpanning_iff (hg : g.Numbered) (ht : t.HoldsTree g) :
    ∃ b, t.isSpanning g = .ok b ∧ (b = true ↔ g.tree.Spans g.numVertices ∧ g.tree.Forest) := by
  rcases Nat.eq_zero_or_pos g.numVertices with hn | hn
  · refine ⟨true, (isSpanning_of_empty hg ht hn).2, fun _ => ⟨fun u v hu => ?_, fun {s u v} hs => ?_⟩, fun _ => rfl⟩
    · omega
    · have := hg.within_tree hs
      omega
  have hcount : t.count = g.numTreeArcs := ht.count
  by_cases heq : t.count + 1 = g.numVertices
  · obtain ⟨b, hb, hspans⟩ := isSpanning_of_count hg ht heq
    refine ⟨b, hb, fun h => ⟨hspans.1 h, hg.forest (hspans.1 h) ?_⟩, fun h => hspans.2 h.1⟩
    rw [← hcount, heq]
  · refine ⟨false, ?_, by simp, fun ⟨hs, hf⟩ => ?_⟩
    · unfold isSpanning
      simp only [Nat.ne_of_gt hn, heq, if_false]
      rfl
    · exact absurd (hcount ▸ hg.numTreeArcs_eq hn hs hf) heq

/-- The lists of the tree arcs can be made and the check be run on them. It says yes if and only if the tree arcs
connect all vertices and have no cycle, which without vertices means that there are none. -/
theorem isSpanning_of_ofNetwork (hg : g.Numbered) : ∃ t b, ofNetwork g = .ok t ∧ t.isSpanning g = .ok b ∧
    (b = true ↔ g.tree.Spans g.numVertices ∧ g.tree.Acyclic) ∧
    (g.numVertices = 0 → b = true ∧ g.treeArcs = []) := by
  obtain ⟨t, ht⟩ := exists_ofNetwork hg
  have hholds := holdsTree_ofNetwork ht
  obtain ⟨b, hb, hiff⟩ := isSpanning_iff hg hholds
  refine ⟨t, b, ht, hb, by rw [hiff, ArcSet.forest_iff_acyclic], fun hn => ?_⟩
  obtain ⟨hnil, htrue⟩ := isSpanning_of_empty hg hholds hn
  rw [htrue, Except.ok.injEq] at hb
  exact ⟨hb.symm, hnil⟩

end Incidence

/-- A network of the arcs `0 → 1`, `2 → 1`, `2 → 3`, `1 → 4` and `0 → 3`, of which those numbered in `l` are tree
arcs. All but `1 → 4` lie on one cycle. -/
def Network.brook (l : List Nat) : Network Signed8 :=
  let cost (n : Nat) : Signed8 := (Signed.ofInt? n).getD Amount.zero
  { id := 0
    name := "brook"
    vertices := (Array.range 5).map fun i => ⟨⟨i⟩, Amount.zero, Amount.zero⟩
    arcs := #[(0, 1, 1), (2, 1, 2), (2, 3, 3), (1, 4, 4), (0, 3, 5)].mapIdx fun i (u, v, c) =>
      ⟨⟨i⟩, ⟨u⟩, ⟨v⟩, cost c, Amount.zero, .real, i ∈ l⟩ }

namespace Incidence

theorem isSpanning_of_brook : (Network.brook [0, 1, 2, 3]).Numbered ∧
    ∃ t, ofNetwork (.brook [0, 1, 2, 3]) = .ok t ∧ t.isSpanning (.brook [0, 1, 2, 3]) = .ok true ∧
      (Network.brook [0, 1, 2, 3]).tree.Spans (Network.brook [0, 1, 2, 3]).numVertices ∧
      (Network.brook [0, 1, 2, 3]).tree.Acyclic := by
  have hg : (Network.brook [0, 1, 2, 3]).Numbered := by decide +kernel
  have htrue : (ofNetwork (.brook [0, 1, 2, 3]) >>= fun t => t.isSpanning (.brook [0, 1, 2, 3])) = .ok true := by
    decide +kernel
  obtain ⟨t, b, ht, hb, hiff, -⟩ := isSpanning_of_ofNetwork hg
  rw [ht, Checked.ok_bind] at htrue
  rw [htrue, Except.ok.injEq] at hb
  exact ⟨hg, t, ht, htrue, hiff.1 hb.symm⟩

end Incidence

/-- Without the arc `0 → 3` there is no cycle. -/
theorem forest_brook : (Network.brook [0, 1, 2, 3]).tree.Forest := by
  have hg : (Network.brook [0, 1, 2, 3]).Numbered := by decide +kernel
  have htrue : (Incidence.ofNetwork (.brook [0, 1, 2, 3]) >>= fun t => t.isSpanning (.brook [0, 1, 2, 3])) =
      .ok true := by decide +kernel
  obtain ⟨t, ht, hspanning⟩ := Checked.bind_eq_ok_iff.1 htrue
  obtain ⟨b, hb, hiff⟩ := Incidence.isSpanning_iff hg (Incidence.holdsTree_ofNetwork ht)
  rw [hspanning, Except.ok.injEq] at hb
  obtain ⟨-, hf⟩ := hiff.1 hb.symm
  exact @hf

end Transportation
