import Transportation.Proofs.Simplex.Renewal
/-!
# Tight potentials

Outside the setup the potentials always grow along the tree arcs by their costs (`Priced`): whenever the tree or the
costs have changed, they are computed anew, and along a spanning tree this does not fail. The potential of the root
is zero (`Anchored`).
-/

namespace Transportation

variable {max : Nat}

namespace Network

variable {g h : Network (Signed max)} {t : Incidence}

/-- Along every tree arc the potential grows by its cost. -/
def Tight (g : Network (Signed max)) : Prop :=
  ∀ x ∈ g.treeArcs, x.Tight g.potential

theorem Tight.leave (hg : g.Tight) (hv : h.vertices = g.vertices) (e : ∀ x ∈ h.treeArcs, x ∈ g.treeArcs) :
    h.Tight := by
  intro x hx
  have hp : h.potential = g.potential := by
    funext v
    simp only [potential, hv]
  rw [hp]
  exact hg x (e x hx)

variable [NeZero max]

/-- The potentials of a spanning tree are tight. -/
theorem tight_computePotentials (hs : SpanningTree t g) {root : VertexId} {all : Bool}
    (hroot : g.numVertices ≠ 0 → root.index < g.numVertices) (e : t.computePotentials g root = .ok (h, all)) :
    h.Tight := by
  intro x hx
  obtain ⟨v, w, hv, hw, hR⟩ := hs.related (carries_tightens g) hroot e hx
  rw [Arc.Tight, potential_eq hv, potential_eq hw]
  exact hR

theorem potential_root_of_computePotentials (hs : SpanningTree t g) {root : VertexId} {all : Bool}
    (hroot : g.numVertices ≠ 0 → root.index < g.numVertices) (e : t.computePotentials g root = .ok (h, all)) :
    h.potential root = 0 := by
  obtain ⟨ps, hps, rfl⟩ := Incidence.computePotentials_eq_ok_iff.1 e
  have hg := hs.wellFormed.toNumbered
  by_cases hn : g.numVertices = 0
  · have hsize : g.vertices.size = 0 := hn
    have hnone : g.vertices[root.index]? = none := Array.getElem?_eq_none (by omega)
    simp [potential, withPotentials, Array.getElem?_zipWith, hnone]
  · have hlt := hroot hn
    have hroot := (Incidence.potentials_of_eq_ok hg hs.lists.holds (carries_tightens g) hlt hps).at_root hlt
    rw [potential_eq (getElem?_withPotentials (Array.getElem?_eq_getElem hlt) hroot)]
    rfl

end Network

namespace Simplex

open Network

variable [NeZero max] {g : Network (Signed max)} {s s' : Simplex (Signed max)}

theorem renewed_tight : Renewed fun _ (h : Network (Signed max)) => h.Tight where
  compute hs hroot e := tight_computePotentials hs hroot e
  leave hg _ hv htree := hg.leave hv htree

theorem renewed_anchor : Renewed fun root (h : Network (Signed max)) => h.potential root = 0 where
  compute hs hroot e := potential_root_of_computePotentials hs hroot e
  leave hg _ hv _ := by
    unfold potential at hg ⊢
    rwa [hv]

/-- What holds of every solver of the instance `g` over bounded integers. -/
structure Priced (g : Network (Signed max)) (s : Simplex (Signed max)) : Prop extends Sound g s where
  tight : s.phase ≠ .setup → s.solution.Tight

theorem priced_of_start (hg : g.WellFormed) (hin : s.input = g) {r : Except SolveError Unit}
    (h : StartRun s r s') :
    (r = .error .unbalanced ∧ s' = s) ∨ (r = .ok () ∧ s'.phase = .initial ∧ Priced g s') :=
  (sound_of_start hg hin h).imp_right fun ⟨hr, hphase, hs⟩ =>
    ⟨hr, hphase, hs, fun _ => renewed_tight.start hg hin hr h⟩

theorem Priced.pivot (hs : Priced g s) {r : Except SolveError (Option (Pivot (Signed max)))} (h : PivotRun s r s') :
    Priced g s' :=
  ⟨hs.toSound.pivot h, renewed_tight.pivot hs.toSound hs.tight h⟩

theorem Priced.restore (hs : Priced g s) {r : Except SolveError Unit} (h : RestoreRun s r s') : Priced g s' :=
  ⟨hs.toSound.restore h, renewed_tight.restore hs.toSound hs.tight h⟩

theorem stable_priced (hg : g.WellFormed) : Stable (Priced g) where
  start hs h := by
    rcases priced_of_start hg hs.input h with ⟨-, rfl⟩ | ⟨-, -, hs'⟩
    · exact hs
    · exact hs'
  pivot hs h := hs.pivot h
  restore hs h := hs.restore h
  counters _ _ _ hs := ⟨(stable_sound hg).counters _ _ _ hs.toSound, hs.tight⟩

theorem priced_new (hg : g.WellFormed) : Priced g (.new g) :=
  ⟨sound_new hg, fun h => absurd rfl h⟩

theorem Priced.setOptions (hs : Priced g s) (o : Options (Signed max)) : Priced g { s with options := o } :=
  ⟨hs.toSound.setOptions o, hs.tight⟩

/-- What holds of every solver of the instance `g` over bounded integers. Outside the setup the root has the
potential zero. -/
structure Anchored (g : Network (Signed max)) (s : Simplex (Signed max)) : Prop extends Priced g s where
  anchor : s.phase ≠ .setup → s.solution.potential s.root = 0

theorem anchored_of_start (hg : g.WellFormed) (hin : s.input = g) {r : Except SolveError Unit}
    (h : StartRun s r s') :
    (r = .error .unbalanced ∧ s' = s) ∨ (r = .ok () ∧ s'.phase = .initial ∧ Anchored g s') :=
  (priced_of_start hg hin h).imp_right fun ⟨hr, hphase, hs⟩ =>
    ⟨hr, hphase, hs, fun _ => renewed_anchor.start hg hin hr h⟩

theorem Anchored.pivot (hs : Anchored g s) {r : Except SolveError (Option (Pivot (Signed max)))}
    (h : PivotRun s r s') : Anchored g s' :=
  ⟨hs.toPriced.pivot h, renewed_anchor.pivot hs.toSound hs.anchor h⟩

theorem Anchored.restore (hs : Anchored g s) {r : Except SolveError Unit} (h : RestoreRun s r s') : Anchored g s' :=
  ⟨hs.toPriced.restore h, renewed_anchor.restore hs.toSound hs.anchor h⟩

end Simplex

end Transportation
