import Transportation.Proofs.Simplex.Optimal
/-!
# The dual value

Without a tolerance the value of the flow is what the weights are worth at the potentials, at every moment outside
the setup: the potentials are tight along the tree arcs, all other arcs are idle, and every weight is met.
-/

namespace Transportation

variable {max : Nat} [NeZero max]

namespace Network

variable {g h : Network (Signed max)}

theorem worth_network (b : Builder (Signed max)) (hn : h.numVertices = b.numVertices) :
    b.network.worth h.potential =
      (List.zipWith (fun w v => w.val * v.potential.val) b.weights.toList h.vertices.toList).sum := by
  have hsize : b.network.numVertices = b.weights.size := numVertices_network b
  have hn : h.vertices.size = b.weights.size := hn
  rw [worth, vertexSet, List.sum_toFinset _ (nodup_vertexIds _)]
  congr 1
  refine List.ext_getElem (by simp [vertexIds, hsize, hn]) fun i hi _ => ?_
  have hi : i < b.weights.size := by simpa [vertexIds, hsize] using hi
  simp [vertexIds, weightAt, potential, getElem?_network_vertices, Builder.vertex, hi, hn, mul_comm]

/-- At tight potentials the value of a basic flow is what the weights are worth, unless it overflows. -/
theorem BasicFlow.value_eq (hf : BasicFlow g h) (ht : h.Tight) (hh : h.Numbered)
    (hn : h.numVertices = g.numVertices) :
    (∃ op, h.value = .error (.overflow op)) ∨ ∃ v, h.value = .ok v ∧ v.val = g.worth h.potential := by
  cases hv : h.value with
  | error e =>
    obtain ⟨op, rfl⟩ := overflow_of_value hv
    exact .inl ⟨op, rfl⟩
  | ok v =>
    refine .inr ⟨v, rfl, ?_⟩
    rw [hf.val_of_value hv, hf.cost_eq ht hh hn]

/-- The first supplier is where the first negative weight is. -/
theorem firstSupplier_network (b : Builder (Signed max)) :
    b.network.firstSupplier = ⟨(b.weights.findIdx? fun w => w.val < 0).getD 0⟩ := by
  have hsupply : ∀ i (w : Signed max), (Builder.vertex i w).isSupply = decide (w.val < 0) := fun _ _ => rfl
  cases hi : b.weights.findIdx? fun w => w.val < 0 with
  | none =>
    have hnone : b.network.vertices.find? Vertex.isSupply = none := by
      refine Array.find?_eq_none.2 fun v hv => ?_
      obtain ⟨i, hlt, rfl⟩ := Array.mem_mapIdx.1 hv
      rw [hsupply, Array.findIdx?_eq_none_iff.1 hi _ (Array.getElem_mem hlt)]
      decide
    rw [firstSupplier, hnone]
    rfl
  | some i =>
    obtain ⟨hlt, hw, hfirst⟩ := Array.findIdx?_eq_some_iff_getElem.1 hi
    have hfind : b.network.vertices.find? Vertex.isSupply = some (Builder.vertex i b.weights[i]) := by
      refine Array.find?_eq_some_iff_getElem.2 ⟨by rw [hsupply, hw], i, by simpa [Builder.network] using hlt,
        by simp [Builder.network], fun j hj => ?_⟩
      simpa [Builder.network, hsupply] using hfirst j hj
    rw [firstSupplier, hfind]
    rfl

end Network

namespace Simplex

variable {s : Simplex (Signed max)}

/-- Whatever is asked of a solver without a tolerance, outside the setup the potentials grow along the tree arcs by
their costs from zero at the first supplier, and the value of the flow, unless it overflows, is what the weights are
worth at the potentials. -/
theorem dual_value_of_reachable (b : Builder (Signed max))
    (h : Reachable (fun o => o.zero = Amount.zero) b.network s) (hs : s.phase ≠ .setup) :
    (∀ x ∈ s.solution.treeArcs, ∃ v w, s.solution.vertex x.src = .ok v ∧ s.solution.vertex x.snk = .ok w ∧
      x.cost.val + v.potential.val - w.potential.val = 0) ∧
      (∀ v, s.solution.vertex ⟨(b.weights.findIdx? fun w => w.val < 0).getD 0⟩ = .ok v → v.potential.val = 0) ∧
      ((∃ op, s.solution.value = .error (.overflow op)) ∨ ∃ value, s.solution.value = .ok value ∧ value.val =
        (List.zipWith (fun w v => w.val * v.potential.val) b.weights.toList s.solution.vertices.toList).sum) := by
  have hg := Network.wellFormed_network b
  have hbasic := basic_of_reachable hg h
  have hh := hbasic.wellFormed.toNumbered
  refine ⟨fun x hx => ?_, fun v hv => ?_, ?_⟩
  · obtain ⟨i, hi⟩ := Network.mem_arcs_iff.1 (Network.mem_treeArcs_iff.1 hx).1
    have hsrc := Array.getElem?_eq_getElem (hh.src_lt hi)
    have hsnk := Array.getElem?_eq_getElem (hh.snk_lt hi)
    have htight := hbasic.tight hs x hx
    rw [Arc.Tight, Network.potential_eq hsrc, Network.potential_eq hsnk] at htight
    exact ⟨_, _, Network.vertex_eq_ok_iff.2 hsrc, Network.vertex_eq_ok_iff.2 hsnk, by omega⟩
  · have hanchor := renewed_anchor.of_reachable hg h hs
    rwa [root_of_reachable hg h hs, Network.firstSupplier_network,
      Network.potential_eq (Network.vertex_eq_ok_iff.1 hv)] at hanchor
  · rw [← Network.worth_network b (hbasic.numVertices_eq.trans (Network.numVertices_network b))]
    exact (hbasic.flow hs).value_eq (hbasic.tight hs) hh hbasic.numVertices_eq

theorem dual_value_of_relay : ∃ s : Simplex Signed8,
    Reachable (fun o => o.zero = Amount.zero) Builder.relay.network s ∧ s.phase ≠ .setup ∧
    (∀ x ∈ s.solution.treeArcs, ∃ v w, s.solution.vertex x.src = .ok v ∧ s.solution.vertex x.snk = .ok w ∧
      x.cost.val + v.potential.val - w.potential.val = 0) ∧
      (∀ v, s.solution.vertex ⟨(Builder.relay.weights.findIdx? fun w => w.val < 0).getD 0⟩ = .ok v →
        v.potential.val = 0) ∧
      ((∃ op, s.solution.value = .error (.overflow op)) ∨ ∃ value, s.solution.value = .ok value ∧ value.val =
        (List.zipWith (fun w v => w.val * v.potential.val) Builder.relay.weights.toList
          s.solution.vertices.toList).sum) := by
  have hrun : (new Builder.relay.network).run solve = .ok (.ok .optimal, (new Builder.relay.network).after solve) := by
    decide +kernel
  have hreach : Reachable (fun o => o.zero = Amount.zero) Builder.relay.network
      ((new Builder.relay.network).after solve) := .solve .new hrun
  have hphase : ((new Builder.relay.network).after solve).phase ≠ .setup := by decide +kernel
  exact ⟨_, hreach, hphase, dual_value_of_reachable Builder.relay hreach hphase⟩

end Simplex

end Transportation
