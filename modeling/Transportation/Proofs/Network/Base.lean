import Transportation.Proofs.Simplex.Star
import Transportation.Proofs.Tree.Congruence
/-!
# What the star depends on

The star is made of the `base` of an instance: of its weights and real arcs without costs, flows and tree flags. The
potentials of the instance are carried along until those of the star are computed, and then they are gone.
-/

namespace Transportation.Network

variable {F : Type} [Amount F] {g h : Network F}

/-- The network with all potentials zero. -/
def unpriced (g : Network F) : Network F :=
  { g with vertices := g.vertices.map ({ · with potential := Amount.zero }) }

@[simp] theorem numVertices_unpriced : g.unpriced.numVertices = g.numVertices := by
  simp [numVertices, unpriced]

@[simp] theorem hub_unpriced : g.unpriced.hub = g.hub := by
  simp [hub]

theorem vertex_unpriced (u : VertexId) :
    g.unpriced.vertex u = (g.vertex u).map ({ · with potential := Amount.zero }) :=
  Checked.get_map _ _

@[simp] theorem withPotentials_unpriced (ps : Array F) : g.unpriced.withPotentials ps = g.withPotentials ps := by
  simp [withPotentials, unpriced, Array.zipWith_map_left]

theorem unpriced_withPotentials {ps : Array F} (hps : ps.size = g.numVertices) :
    (g.withPotentials ps).unpriced = g.unpriced := by
  have e : (g.withPotentials ps).unpriced.vertices = g.unpriced.vertices := by
    refine Array.ext_getElem? fun i => ?_
    simp only [unpriced, withPotentials, Array.getElem?_map, Array.getElem?_zipWith]
    by_cases hi : i < g.vertices.size
    · have hi' : i < ps.size := by rw [hps]; exact hi
      simp [hi, hi']
    · simp [hi]
  rw [unpriced, unpriced, mk.injEq]
  exact ⟨rfl, rfl, e, rfl⟩

@[simp] theorem firstSupplier_unpriced : g.unpriced.firstSupplier = g.firstSupplier := by
  simp only [firstSupplier, unpriced, Array.find?_map, Option.map_map, Function.comp_def]
  rfl

theorem sameArcs_of_unpriced (e : h.unpriced = g.unpriced) : SameArcs g h :=
  ⟨by simpa using congrArg numVertices e, by rw [show h.arcs = g.arcs from congrArg (·.arcs) e]⟩

/-- The potentials computed replace those that were there before. -/
theorem computePotentials_of_unpriced (e : h.unpriced = g.unpriced) (t : Incidence) (root : VertexId) :
    t.computePotentials h root = t.computePotentials g root := by
  have hwith : ∀ ps, h.withPotentials ps = g.withPotentials ps := by
    intro ps
    rw [← withPotentials_unpriced, e, withPotentials_unpriced]
  simp only [Incidence.computePotentials, (sameArcs_of_unpriced e).potentials_eq, hwith]

/-! ## The star -/

theorem join_unpriced (g : Network F) (u v : VertexId) (flow : F) :
    g.unpriced.join u v flow = (g.join u v flow).map unpriced := by
  have hfind : g.unpriced.findArc? u v = g.findArc? u v := rfl
  unfold join
  rw [hfind]
  cases g.findArc? u v with
  | some a =>
    simp only [Option.elim_some, modifyArc, unpriced]
    cases Checked.modify g.arcs a.index ({ · with flow, inTree := true }) <;> rfl
  | none =>
    have hn : g.unpriced.numArcs = g.numArcs := rfl
    simp only [Option.elim_none, addArtificialArc, hn]
    cases Checked.require (g.numArcs < idLimit) .invalidArcId <;> rfl

theorem joinHub_unpriced (g : Network F) (v : VertexId) : g.unpriced.joinHub v = (g.joinHub v).map unpriced := by
  rw [joinHub_eq, joinHub_eq, vertex_unpriced, hub_unpriced]
  cases g.vertex v with
  | error => rfl
  | ok w =>
    simp only [Except.map, Checked.ok_bind]
    cases Amount.lt w.weight Amount.zero with
    | true =>
      cases Amount.neg w.weight with
      | error => rfl
      | ok flow => exact join_unpriced g v g.hub flow
    | false => exact join_unpriced g g.hub v w.weight

/-- The star begins with the base and without potentials. -/
theorem unpriced_cleared_of_base (e : h.base = g.base) : h.cleared.unpriced = g.cleared.unpriced := by
  simp only [base, Prod.mk.injEq] at e
  obtain ⟨hid, hname, hvertices, harcs⟩ := e
  have hv : ∀ k : Network F, k.cleared.unpriced.vertices =
      (k.vertices.map Vertex.frame).map fun p => ⟨p.1, p.2, Amount.zero⟩ := by
    intro k
    simp [cleared, dropArtificialArcs, mapArcs, unpriced, Vertex.frame]
  have ha : ∀ k : Network F, k.cleared.unpriced.arcs = ((k.realArcs.map Arc.frame).map fun p =>
      ⟨p.1, p.2.1, p.2.2.1, Amount.zero, Amount.zero, p.2.2.2, false⟩).toArray := by
    intro k
    refine Array.toList_inj.1 ?_
    simp [cleared, dropArtificialArcs, mapArcs, unpriced, realArcs, Arc.frame]
  have hv : h.cleared.unpriced.vertices = g.cleared.unpriced.vertices := by rw [hv, hv g, hvertices]
  have ha : h.cleared.unpriced.arcs = g.cleared.unpriced.arcs := by rw [ha, ha g, harcs]
  show Network.mk h.id h.name h.cleared.unpriced.vertices h.cleared.unpriced.arcs = _
  rw [hid, hname, hv, ha]
  rfl

/-- Instances of one base have the same star, but for the potentials. -/
theorem star_of_base (e : h.base = g.base) : h.star.map unpriced = g.star.map unpriced := by
  have hcleared : ∀ k : Network F, k.star.map unpriced =
      (k.cleared.unpriced.vertexIds.filter (· ≠ k.cleared.unpriced.hub)).foldlM joinHub k.cleared.unpriced := by
    intro k
    rw [Checked.foldlM_comm joinHub_unpriced, hub_unpriced]
    simp only [vertexIds, numVertices_unpriced]
    rfl
  rw [hcleared, hcleared g, unpriced_cleared_of_base e]

theorem isBalancedWithin_of_base (e : h.base = g.base) (tolerance : F) :
    h.isBalancedWithin tolerance = g.isBalancedWithin tolerance := by
  have htotal : ∀ k : Network F, k.totalWeight =
      (k.vertices.map Vertex.frame).toList.foldlM (fun total p => Amount.add total p.2) Amount.zero := by
    intro k
    rw [Array.toList_map, List.foldlM_map]
    rfl
  have hvertices : h.vertices.map Vertex.frame = g.vertices.map Vertex.frame := congrArg (·.2.2.1) e
  simp only [isBalancedWithin, htotal, hvertices]

end Transportation.Network
