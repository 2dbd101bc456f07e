import Transportation.Proofs.Simplex.Sound
/-!
# What new potentials bring

Whenever the tree or the costs have changed, the potentials are computed anew, along a spanning tree. Between that
and the next time a tree arc may at most leave. So what new potentials bring to vertices and tree arcs holds outside
the setup at every moment (`Renewed`).
-/

namespace Transportation.Simplex

open Network

variable {F : Type} [Amount F] {g : Network F} {s s' : Simplex F} {P : VertexId → Network F → Prop}

/-- New potentials of a spanning tree bring `P`, and it is kept as long as tree arcs only leave. -/
structure Renewed (P : VertexId → Network F → Prop) : Prop where
  compute : ∀ {t : Incidence} {g h : Network F} {root : VertexId} {all : Bool}, SpanningTree t g →
    (g.numVertices ≠ 0 → root.index < g.numVertices) → t.computePotentials g root = .ok (h, all) → P root h
  leave : ∀ {g h : Network F} {root : VertexId}, P root g → h.plan = g.plan → h.vertices = g.vertices →
    (∀ x ∈ h.treeArcs, x ∈ g.treeArcs) → P root h

namespace Renewed

theorem start (hP : Renewed P) (hg : g.WellFormed) (hin : s.input = g) {r : Except SolveError Unit}
    (hr : r = .ok ()) (h : StartRun s r s') : P s'.root s'.solution := by
  cases h with
  | unbalanced => cases hr
  | started _ hstar ht hu =>
    rw [hin] at hstar
    have hstar := star_of_eq_ok hg hstar
    exact hP.compute (spanningTree_star hstar ht) (firstSupplier_lt hstar.wellFormed.toNumbered) hu

theorem pivot (hP : Renewed P) (hs : Sound g s) (hp : s.phase ≠ .setup → P s.root s.solution)
    {r : Except SolveError (Option (Pivot F))} (h : PivotRun s r s') (hphase : s'.phase ≠ .setup) :
    P s'.root s'.solution := by
  rw [h.constants.2.2.1] at hphase
  cases h with
  | noTree => exact hp hphase
  | optimal => exact hp hphase
  | noCycle _ _ hi _ hl =>
    obtain ⟨hv, htree⟩ := treeArcs_of_insert_remove hi hl
    exact hP.leave (hp hphase) ((plan_remove hl).trans (plan_insert hi)) hv htree
  | unbounded _ _ hi _ _ hl =>
    obtain ⟨hv, htree⟩ := treeArcs_of_insert_remove hi hl
    exact hP.leave (hp hphase) ((plan_remove hl).trans (plan_insert hi)) hv htree
  | pivoted _ _ hi hc hb hpush hl hu =>
    have htree := (hs.tree hphase).exchange hi hc hb hpush hl
    exact hP.compute htree (hs.root_lt hphase (numVertices_of_plan (plan_exchange hi hpush hl))) hu

theorem restore (hP : Renewed P) (hs : Sound g s) (hp : s.phase ≠ .setup → P s.root s.solution)
    {r : Except SolveError Unit} (h : RestoreRun s r s') (hphase : s'.phase ≠ .setup) : P s'.root s'.solution := by
  cases h with
  | noTree => exact hp hphase
  | restored hne _ hk hu =>
    have hframe := frame_restore hk
    have hn := numVertices_of_frame hframe
    have htree := (hs.tree hne).congr (hs.wellFormed.of_frame hframe) hn (map_restore hk fun _ _ => rfl)
    exact hP.compute htree (hs.root_lt hne hn) hu

theorem stable (hP : Renewed P) (hg : g.WellFormed) :
    Stable fun s => Sound g s ∧ (s.phase ≠ .setup → P s.root s.solution) where
  start hs h := by
    refine ⟨(stable_sound hg).start hs.1 h, fun _ => ?_⟩
    rcases sound_of_start hg hs.1.input h with ⟨-, rfl⟩ | ⟨hr, -, -⟩
    · exact hs.2 ‹_›
    · exact hP.start hg hs.1.input hr h
  pivot hs h := ⟨hs.1.pivot h, hP.pivot hs.1 hs.2 h⟩
  restore hs h := ⟨hs.1.restore h, hP.restore hs.1 hs.2 h⟩
  counters _ _ _ hs := ⟨(stable_sound hg).counters _ _ _ hs.1, hs.2⟩

theorem of_reachable (hP : Renewed P) (hg : g.WellFormed) {allowed : Options F → Prop} (h : Reachable allowed g s)
    (hs : s.phase ≠ .setup) : P s.root s.solution :=
  ((hP.stable hg).reachable ⟨sound_new hg, fun h => absurd rfl h⟩ (fun hs _ => ⟨hs.1.setOptions _, hs.2⟩) h).2 hs

end Renewed

/-! ## The root -/

/-- Outside the setup the root is the first supplier. -/
theorem stable_root (hg : g.WellFormed) :
    Stable fun s => s.input = g ∧ (s.phase ≠ .setup → s.root = g.firstSupplier) where
  start hs h := by
    cases h with
    | unbalanced => exact hs
    | started _ hstar =>
      rw [hs.1] at hstar
      refine ⟨hs.1, fun _ => ?_⟩
      simp only [firstSupplier, (star_of_eq_ok hg hstar).vertices]
  pivot hs h := by
    obtain ⟨hinput, hroot, hphase, -⟩ := h.constants
    rw [hinput, hroot, hphase]
    exact hs
  restore hs h := by
    cases h with
    | noTree => exact hs
    | restored hphase => exact ⟨hs.1, fun _ => hs.2 hphase⟩
  counters _ _ _ hs := hs

theorem root_of_reachable (hg : g.WellFormed) {allowed : Options F → Prop} (h : Reachable allowed g s)
    (hs : s.phase ≠ .setup) : s.root = g.firstSupplier :=
  ((stable_root hg).reachable ⟨rfl, fun h => absurd rfl h⟩ (fun hs _ => hs) h).2 hs

end Transportation.Simplex
