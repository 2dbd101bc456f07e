import Mathlib.Data.List.Nodup
import Transportation.Network.Builder
import Transportation.Proofs.Tree.Walk
/-!
# Well-formed networks

The networks of builders are `WellFormed`: vertices and arcs are numbered by position, an arc joins two different
vertices, and real arcs come before artificial ones. The `frame` of a network is what the solver never changes on
its working copy; networks of one frame are well-formed together.
-/

namespace Transportation

variable {F : Type}

namespace Network

/-- Vertices and arcs are numbered by position and arcs join vertices of the network. -/
structure Numbered (g : Network F) : Prop where
  vertex_id : ∀ {i : Nat} {v : Vertex F}, g.vertices[i]? = some v → v.id = ⟨i⟩
  arc_id : ∀ {i : Nat} {a : Arc F}, g.arcs[i]? = some a → a.id = ⟨i⟩
  src_lt : ∀ {i : Nat} {a : Arc F}, g.arcs[i]? = some a → a.src.index < g.numVertices
  snk_lt : ∀ {i : Nat} {a : Arc F}, g.arcs[i]? = some a → a.snk.index < g.numVertices

/-- Vertices and arcs are numbered by position and arcs join two different vertices. -/
structure Proper (g : Network F) : Prop extends Numbered g where
  loopless : ∀ {i : Nat} {a : Arc F}, g.arcs[i]? = some a → a.src ≠ a.snk

structure WellFormed (g : Network F) : Prop extends Numbered g where
  loopless : ∀ {i : Nat} {a : Arc F}, g.arcs[i]? = some a → a.src ≠ a.snk
  layered : ∀ {i j : Nat} {a b : Arc F}, g.arcs[i]? = some a → g.arcs[j]? = some b → a.kind = .real →
    b.kind = .artificial → i < j

theorem WellFormed.proper {g : Network F} (hg : g.WellFormed) : g.Proper :=
  ⟨hg.toNumbered, hg.loopless⟩

theorem numbered_iff {g : Network F} : g.Numbered ↔ (∀ i : Fin g.vertices.size, g.vertices[i].id = ⟨i⟩) ∧
    ∀ i : Fin g.arcs.size, g.arcs[i].id = ⟨i⟩ ∧ g.arcs[i].src.index < g.numVertices ∧
      g.arcs[i].snk.index < g.numVertices := by
  constructor
  · intro hg
    have harc : ∀ i : Fin g.arcs.size, g.arcs[(i : Nat)]? = some g.arcs[i] := fun i => Array.getElem?_eq_getElem i.2
    exact ⟨fun i => hg.vertex_id (Array.getElem?_eq_getElem i.2), fun i =>
      ⟨hg.arc_id (harc i), hg.src_lt (harc i), hg.snk_lt (harc i)⟩⟩
  · rintro ⟨hv, ha⟩
    have harc : ∀ {i : Nat} {a : Arc F}, g.arcs[i]? = some a →
        a.id = ⟨i⟩ ∧ a.src.index < g.numVertices ∧ a.snk.index < g.numVertices := by
      intro i a h
      obtain ⟨hi, rfl⟩ := Array.getElem?_eq_some_iff.1 h
      exact ha ⟨i, hi⟩
    refine ⟨fun {i v} h => ?_, fun h => (harc h).1, fun h => (harc h).2.1, fun h => (harc h).2.2⟩
    obtain ⟨hi, rfl⟩ := Array.getElem?_eq_some_iff.1 h
    exact hv ⟨i, hi⟩

instance (g : Network F) : Decidable g.Numbered :=
  decidable_of_iff _ numbered_iff.symm

theorem proper_iff {g : Network F} : g.Proper ↔ g.Numbered ∧ ∀ i : Fin g.arcs.size, g.arcs[i].src ≠ g.arcs[i].snk := by
  refine ⟨fun hg => ⟨hg.toNumbered, fun i => hg.loopless (Array.getElem?_eq_getElem i.2)⟩, fun ⟨hg, h⟩ => ⟨hg, ?_⟩⟩
  intro i a ha
  obtain ⟨hi, rfl⟩ := Array.getElem?_eq_some_iff.1 ha
  exact h ⟨i, hi⟩

instance (g : Network F) : Decidable g.Proper :=
  decidable_of_iff _ proper_iff.symm

theorem mem_arcs_iff {g : Network F} {a : Arc F} : a ∈ g.arcs.toList ↔ ∃ i : Nat, g.arcs[i]? = some a := by
  rw [List.mem_iff_getElem?]
  simp

theorem mem_vertexIds_iff {g : Network F} {v : VertexId} : v ∈ g.vertexIds ↔ v.index < g.numVertices := by
  cases v
  simp [vertexIds]

theorem nodup_vertexIds (g : Network F) : g.vertexIds.Nodup :=
  List.Nodup.map (fun _ _ h => VertexId.mk.inj h) List.nodup_range

theorem Numbered.getElem?_id {g : Network F} (hg : g.Numbered) {a : Arc F} (h : a ∈ g.arcs.toList) :
    g.arcs[a.id.index]? = some a := by
  obtain ⟨i, hi⟩ := mem_arcs_iff.1 h
  rw [hg.arc_id hi, hi]

/-- An arc is found where its number says. -/
theorem Numbered.eq_of_id_eq {g : Network F} (hg : g.Numbered) {a b : Arc F} (ha : a ∈ g.arcs.toList)
    (hb : b ∈ g.arcs.toList) (h : a.id = b.id) : a = b := by
  have ha := hg.getElem?_id ha
  rw [h, hg.getElem?_id hb] at ha
  exact (Option.some.inj ha).symm

theorem Numbered.nodup_ids {g : Network F} (hg : g.Numbered) : (g.arcs.toList.map Arc.id).Nodup := by
  refine List.pairwise_iff_getElem.2 fun i j hi hj hij h => ?_
  have hid : ∀ {k} (hk : k < (g.arcs.toList.map Arc.id).length), (g.arcs.toList.map Arc.id)[k] = ⟨k⟩ := by
    intro k hk
    have hk : k < g.arcs.size := by simpa using hk
    simpa using hg.arc_id (Array.getElem?_eq_getElem hk)
  rw [hid, hid, ArcId.mk.injEq] at h
  omega

/-! ## The networks of builders -/

theorem getElem?_network_vertices [Amount F] (b : Builder F) (i : Nat) :
    b.network.vertices[i]? = b.weights[i]?.map (Builder.vertex i) := by
  simp [Builder.network]

theorem getElem?_network_arcs [Amount F] (b : Builder F) (i : Nat) :
    b.network.arcs[i]? = b.links[i]?.map (Builder.arc i) := by
  simp [Builder.network]

theorem numVertices_network [Amount F] (b : Builder F) : b.network.numVertices = b.numVertices := by
  simp [numVertices, Builder.network, Builder.numVertices]

theorem numArcs_network [Amount F] (b : Builder F) : b.network.numArcs = b.numArcs := by
  simp [numArcs, Builder.network, Builder.numArcs]

/-- A builder numbers vertices and arcs by position. -/
theorem map_id_network [Amount F] (b : Builder F) :
    b.network.vertices.toList.map Vertex.id = (List.range' 0 b.weights.size).map VertexId.mk ∧
      b.network.arcs.toList.map Arc.id = (List.range' 0 b.links.size).map ArcId.mk :=
  ⟨List.ext_getElem (by simp [Builder.network]) fun i hi _ => by simp [Builder.network, Builder.vertex],
    List.ext_getElem (by simp [Builder.network]) fun i hi _ => by simp [Builder.network, Builder.arc]⟩

theorem map_weight_network [Amount F] (b : Builder F) : b.network.vertices.toList.map Vertex.weight = b.weights.toList :=
  List.ext_getElem (by simp [Builder.network]) fun i hi _ => by simp [Builder.network, Builder.vertex]

theorem map_link_network [Amount F] (b : Builder F) :
    (b.network.arcs.toList.map fun a => Link.mk a.src a.snk a.cost) = b.links.toList :=
  List.ext_getElem (by simp [Builder.network]) fun i hi _ => by simp [Builder.network, Builder.arc]

theorem realArcs_network [Amount F] (b : Builder F) : b.network.realArcs = b.network.arcs.toList := by
  refine List.filter_eq_self.2 fun a ha => ?_
  obtain ⟨i, -, rfl⟩ := Array.mem_mapIdx.1 (Array.mem_toList_iff.1 ha)
  rfl

theorem length_realArcs_network [Amount F] (b : Builder F) : b.network.realArcs.length = b.numArcs := by
  rw [realArcs_network, Array.length_toList, ← numArcs, numArcs_network]

theorem wellFormed_network [Amount F] (b : Builder F) : b.network.WellFormed := by
  have hjoins : ∀ {i : Nat} {a : Arc F}, b.network.arcs[i]? = some a → ∃ l ∈ b.links, a = Builder.arc i l := by
    intro i a h
    rw [getElem?_network_arcs] at h
    obtain ⟨l, hl, rfl⟩ := Option.map_eq_some_iff.1 h
    exact ⟨l, Array.mem_of_getElem? hl, rfl⟩
  have hsize : b.network.numVertices = b.weights.size := numVertices_network b
  refine ⟨⟨?_, ?_, ?_, ?_⟩, ?_, ?_⟩
  · intro i v h
    rw [getElem?_network_vertices] at h
    obtain ⟨w, -, rfl⟩ := Option.map_eq_some_iff.1 h
    rfl
  · intro i a h
    obtain ⟨l, -, rfl⟩ := hjoins h
    rfl
  · intro i a h
    obtain ⟨l, hl, rfl⟩ := hjoins h
    exact hsize ▸ (b.joins l hl).1
  · intro i a h
    obtain ⟨l, hl, rfl⟩ := hjoins h
    exact hsize ▸ (b.joins l hl).2.1
  · intro i a h
    obtain ⟨l, hl, rfl⟩ := hjoins h
    exact (b.joins l hl).2.2
  · intro i j a c _ hc _ hk
    obtain ⟨l, -, rfl⟩ := hjoins hc
    cases hk

/-! ## Real arcs come first -/

theorem WellFormed.toList_eq {g : Network F} (hg : g.WellFormed) : g.arcs.toList = g.realArcs ++ g.artificialArcs := by
  have main : ∀ l : List (Arc F), (∀ (i j : Nat) (a b : Arc F), l[i]? = some a → l[j]? = some b → a.kind = .real →
      b.kind = .artificial → i < j) → l = l.filter Arc.isReal ++ l.filter Arc.isArtificial := by
    intro l
    induction l with
    | nil => intro _; rfl
    | cons x l ih =>
      intro h
      have ih := ih fun i j a b ha hb hka hkb => by
        have := h (i + 1) (j + 1) a b (by simpa using ha) (by simpa using hb) hka hkb
        omega
      cases hk : x.kind with
      | real => simpa [Arc.isReal, Arc.isArtificial, hk] using ih
      | artificial =>
        have hnone : l.filter Arc.isReal = [] := by
          refine List.filter_eq_nil_iff.2 fun a ha hr => ?_
          obtain ⟨i, hi⟩ := List.mem_iff_getElem?.1 ha
          have := h (i + 1) 0 a x (by simpa using hi) rfl (by simpa [Arc.isReal] using hr) hk
          omega
        rw [hnone] at ih
        simpa [Arc.isReal, Arc.isArtificial, hk, hnone] using ih
  refine main _ fun i j a b ha hb => hg.layered (by simpa using ha) (by simpa using hb)

/-- Without its artificial arcs a well-formed network keeps its real arcs where they are. -/
theorem WellFormed.getElem?_realArcs {g : Network F} (hg : g.WellFormed) {i : Nat} {a : Arc F} :
    g.realArcs[i]? = some a ↔ g.arcs[i]? = some a ∧ a.kind = .real := by
  have e : g.arcs[i]? = (g.realArcs ++ g.artificialArcs)[i]? := by
    rw [← hg.toList_eq]; simp
  have hreal : ∀ {a}, a ∈ g.realArcs → a.kind = .real := fun h => by
    simpa [Arc.isReal] using (List.mem_filter.1 h).2
  have hart : ∀ {a}, a ∈ g.artificialArcs → a.kind = .artificial := fun h => by
    simpa [Arc.isArtificial] using (List.mem_filter.1 h).2
  rw [e]
  by_cases hi : i < g.realArcs.length
  · rw [List.getElem?_append_left hi]
    exact ⟨fun h => ⟨h, hreal (List.mem_of_getElem? h)⟩, And.left⟩
  · rw [List.getElem?_append_right (by omega), List.getElem?_eq_none (by omega)]
    refine ⟨fun h => (by cases h), fun ⟨h, hk⟩ => ?_⟩
    rw [hart (List.mem_of_getElem? h)] at hk
    cases hk

end Network

end Transportation
