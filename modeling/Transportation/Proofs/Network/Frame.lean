import Transportation.Proofs.Network.WellFormed
/-!
# Changes to a network

The `frame` of a network is what the solver never changes on its working copy: all but costs, flows, tree flags and
potentials. Networks of one frame are well-formed together. A change to one arc is seen at its position only.
-/

namespace Transportation

variable {F : Type}

/-- Arrays that look alike under `f` do so position by position. -/
theorem exists_of_map_eq {α β : Type} {f : α → β} {xs ys : Array α} (e : ys.map f = xs.map f) {i : Nat} {y : α}
    (hy : ys[i]? = some y) : ∃ x, xs[i]? = some x ∧ f x = f y := by
  have e : ys[i]?.map f = xs[i]?.map f := by simpa using congrArg (·[i]?) e
  rw [hy] at e
  obtain ⟨x, hx, hxy⟩ := Option.map_eq_some_iff.1 e.symm
  exact ⟨x, hx, hxy⟩

/-- What the solver does not change on an arc. -/
def Arc.frame (a : Arc F) : ArcId × VertexId × VertexId × ArcKind :=
  (a.id, a.src, a.snk, a.kind)

theorem Arc.frame_eq_iff {a b : Arc F} :
    a.frame = b.frame ↔ a.id = b.id ∧ a.src = b.src ∧ a.snk = b.snk ∧ a.kind = b.kind := by
  simp [Arc.frame]

/-- What the solver does not change on a vertex. -/
def Vertex.frame (v : Vertex F) : VertexId × F :=
  (v.id, v.weight)

theorem Vertex.frame_eq_iff {v w : Vertex F} : v.frame = w.frame ↔ v.id = w.id ∧ v.weight = w.weight := by
  simp [Vertex.frame]

namespace Network

variable {g h : Network F} {a : ArcId} {x : Arc F} {f : Arc F → Arc F} {i : Nat}

/-- What the solver does not change on its working copy. -/
def frame (g : Network F) : Nat × String × Array (VertexId × F) × Array (ArcId × VertexId × VertexId × ArcKind) :=
  (g.id, g.name, g.vertices.map Vertex.frame, g.arcs.map Arc.frame)

theorem numVertices_of_frame (e : g.frame = h.frame) : g.numVertices = h.numVertices := by
  simpa [frame, numVertices] using congrArg (·.2.2.1.size) e

theorem exists_arc_of_frame (e : g.frame = h.frame) (hx : g.arcs[i]? = some x) :
    ∃ y, h.arcs[i]? = some y ∧ y.frame = x.frame :=
  exists_of_map_eq (congrArg (·.2.2.2) e) hx

theorem exists_vertex_of_frame (e : g.frame = h.frame) {v : Vertex F} (hv : g.vertices[i]? = some v) :
    ∃ w, h.vertices[i]? = some w ∧ w.frame = v.frame :=
  exists_of_map_eq (congrArg (·.2.2.1) e) hv

/-- What arcs at the same position have in common the networks have in common. -/
theorem map_arcs_of_frame {β : Type} (e : h.frame = g.frame) {f : Arc F → β}
    (hf : ∀ {i : Nat} {x y : Arc F}, g.arcs[i]? = some x → h.arcs[i]? = some y → y.frame = x.frame → f y = f x) :
    h.arcs.map f = g.arcs.map f := by
  refine Array.ext_getElem? fun i => ?_
  rw [Array.getElem?_map, Array.getElem?_map]
  cases hx : g.arcs[i]? with
  | some x =>
    obtain ⟨y, hy, hxy⟩ := exists_arc_of_frame e.symm hx
    rw [hy, Option.map_some, Option.map_some, hf hx hy hxy]
  | none =>
    cases hy : h.arcs[i]? with
    | none => rfl
    | some y =>
      obtain ⟨x, hx', -⟩ := exists_arc_of_frame e hy
      rw [hx] at hx'
      cases hx'

theorem Numbered.of_frame (hg : g.Numbered) (e : h.frame = g.frame) : h.Numbered := by
  have hn := numVertices_of_frame e
  refine ⟨?_, ?_, ?_, ?_⟩
  · intro i v hv
    obtain ⟨w, hw, hvw⟩ := exists_vertex_of_frame e hv
    rw [← (Vertex.frame_eq_iff.1 hvw).1, hg.vertex_id hw]
  all_goals
    intro i x hx
    obtain ⟨y, hy, hxy⟩ := exists_arc_of_frame e hx
    obtain ⟨hid, hsrc, hsnk, -⟩ := Arc.frame_eq_iff.1 hxy
  · rw [← hid, hg.arc_id hy]
  · rw [← hsrc, hn]; exact hg.src_lt hy
  · rw [← hsnk, hn]; exact hg.snk_lt hy

theorem WellFormed.of_frame (hg : g.WellFormed) (e : h.frame = g.frame) : h.WellFormed := by
  refine ⟨hg.toNumbered.of_frame e, ?_, ?_⟩
  · intro i x hx
    obtain ⟨y, hy, hxy⟩ := exists_arc_of_frame e hx
    obtain ⟨-, hsrc, hsnk, -⟩ := Arc.frame_eq_iff.1 hxy
    rw [← hsrc, ← hsnk]
    exact hg.loopless hy
  · intro i j x y hx hy hkx hky
    obtain ⟨x', hx', ex⟩ := exists_arc_of_frame e hx
    obtain ⟨y', hy', ey⟩ := exists_arc_of_frame e hy
    rw [← (Arc.frame_eq_iff.1 ex).2.2.2] at hkx
    rw [← (Arc.frame_eq_iff.1 ey).2.2.2] at hky
    exact hg.layered hx' hy' hkx hky

/-! ## One arc changed -/

theorem modifyArc_eq_ok_iff :
    g.modifyArc a f = .ok h ↔ a.index < g.numArcs ∧ h = { g with arcs := g.arcs.modify a.index f } := by
  simp only [modifyArc, Checked.bind_eq_ok_iff, Checked.modify_eq_ok_iff, Checked.pure_eq_ok_iff]
  constructor
  · rintro ⟨_, ⟨hlt, rfl⟩, rfl⟩; exact ⟨hlt, rfl⟩
  · rintro ⟨hlt, rfl⟩; exact ⟨_, ⟨hlt, rfl⟩, rfl⟩

theorem vertices_modifyArc (e : g.modifyArc a f = .ok h) : h.vertices = g.vertices := by
  rw [(modifyArc_eq_ok_iff.1 e).2]

theorem getElem?_modifyArc (e : g.modifyArc a f = .ok h) (i : Nat) :
    h.arcs[i]? = if a.index = i then g.arcs[i]?.map f else g.arcs[i]? := by
  rw [(modifyArc_eq_ok_iff.1 e).2, Array.getElem?_modify]

/-- What the change keeps of every arc is kept of the network. -/
theorem map_modifyArc {β : Type} (e : g.modifyArc a f = .ok h) {k : Arc F → β} (hk : ∀ x, k (f x) = k x) :
    h.arcs.map k = g.arcs.map k := by
  refine Array.ext_getElem? fun i => ?_
  rw [Array.getElem?_map, Array.getElem?_map, getElem?_modifyArc e]
  split
  · cases g.arcs[i]? <;> simp [hk]
  · rfl

theorem frame_modifyArc (e : g.modifyArc a f = .ok h) (hf : ∀ x, (f x).frame = x.frame) : h.frame = g.frame := by
  have hmap := map_modifyArc e hf
  obtain ⟨-, rfl⟩ := modifyArc_eq_ok_iff.1 e
  simp only [frame, hmap]

/-- The arcs around the one that is changed. -/
theorem exists_split_modifyArc (e : g.modifyArc a f = .ok h) :
    ∃ l x r, g.arcs[a.index]? = some x ∧ g.arcs.toList = l ++ x :: r ∧ h.arcs.toList = l ++ f x :: r := by
  obtain ⟨hlt, rfl⟩ := modifyArc_eq_ok_iff.1 e
  have hlt : a.index < g.arcs.toList.length := by simpa [numArcs] using hlt
  refine ⟨g.arcs.toList.take a.index, g.arcs.toList[a.index], g.arcs.toList.drop (a.index + 1), ?_, ?_, ?_⟩
  · simp
  · rw [List.getElem_cons_drop, List.take_append_drop]
  · rw [Array.toList_modify, List.modify_eq_take_cons_drop hlt]

/-! ## New potentials -/

theorem frame_withPotentials {ps : Array F} (hps : ps.size = g.numVertices) :
    (g.withPotentials ps).frame = g.frame := by
  have e : (g.withPotentials ps).vertices.map Vertex.frame = g.vertices.map Vertex.frame := by
    refine Array.ext_getElem? fun i => ?_
    simp only [withPotentials, Array.getElem?_map, Array.getElem?_zipWith]
    by_cases hi : i < g.vertices.size
    · have hi' : i < ps.size := by rw [hps]; exact hi
      simp [hi, hi', Vertex.frame]
    · simp [hi]
  simp only [frame, e]
  rfl

theorem getElem?_withPotentials {ps : Array F} {v : Vertex F} {p : F} (hv : g.vertices[i]? = some v)
    (hp : ps[i]? = some p) : (g.withPotentials ps).vertices[i]? = some { v with potential := p } := by
  simp [withPotentials, Array.getElem?_zipWith, hv, hp]

/-! ## Working copies -/

/-- What the solver does not change in the instance. -/
def base (g : Network F) : Nat × String × Array (VertexId × F) × List (ArcId × VertexId × VertexId × ArcKind) :=
  (g.id, g.name, g.vertices.map Vertex.frame, g.realArcs.map Arc.frame)

theorem base_of_frame (e : h.frame = g.frame) : h.base = g.base := by
  have key : ∀ k : Network F, k.realArcs.map Arc.frame = (k.frame.2.2.2.toList).filter (·.2.2.2 = .real) := by
    intro k
    simp only [frame, realArcs, Array.toList_map, List.filter_map]
    rfl
  have hid := congrArg (·.1) e
  have hname := congrArg (·.2.1) e
  have hvertices := congrArg (·.2.2.1) e
  simp only [base, key, e, Prod.mk.injEq, and_true]
  exact ⟨hid, hname, hvertices⟩

theorem numVertices_of_base (e : h.base = g.base) : h.numVertices = g.numVertices := by
  simpa [base, numVertices] using congrArg (·.2.2.1.size) e

/-- Working copies of one instance have the same real arcs at the same positions. -/
theorem exists_real_of_base (e : h.base = g.base) (hh : h.WellFormed) (hg : g.WellFormed)
    (hx : h.arcs[i]? = some x) (hk : x.kind = .real) : ∃ y, g.arcs[i]? = some y ∧ y.frame = x.frame := by
  have e : h.realArcs[i]?.map Arc.frame = g.realArcs[i]?.map Arc.frame := by
    simpa [base] using congrArg (·.2.2.2[i]?) e
  rw [hh.getElem?_realArcs.2 ⟨hx, hk⟩] at e
  obtain ⟨y, hy, hxy⟩ := Option.map_eq_some_iff.1 e.symm
  exact ⟨y, (hg.getElem?_realArcs.1 hy).1, hxy⟩

end Network

end Transportation
