import Transportation.Proofs.Instance.Reading
import Transportation.Proofs.Simplex.Capacity
import Transportation.Proofs.Simplex.WorkingCopy
import Transportation.Proofs.Text.Written
/-!
# What is written is read back

A network comes back from its instance file without its name, its number, its flow and its artificial arcs
(`read_write`). That is so for every network whose real arcs are links of its vertices, as long as there are numbers for
them when all vertices come first, and so for the working copy of a solver, whatever it has done
(`read_write_of_reachable`). A builder that gets its vertices late may have taken more arcs than that
(`read_write_of_crowded`).
-/

namespace Transportation

open Text

namespace Instance

/-! ## The lines of a network -/

/-- What an instance file keeps of a network. -/
def ofNetwork {F : Type} (g : Network F) : Instance F :=
  ⟨g.vertices.toList.map Vertex.weight, g.realArcs.map fun a => ⟨a.src, a.snk, a.cost⟩⟩

variable {max : Nat} {g : Network (Signed max)}

/-- The network can be told by an instance file. -/
structure Writable (g : Network (Signed max)) : Prop where
  numVertices_pos : 0 < g.numVertices
  numVertices_lt : g.numVertices < idLimit
  joins : ∀ a ∈ g.realArcs, a.src.index < g.numVertices ∧ a.snk.index < g.numVertices ∧ a.src ≠ a.snk
  name : '\n' ∉ g.name.toList

theorem writable_of_wellFormed (hg : g.WellFormed) (hpos : 0 < g.numVertices) (hlt : g.numVertices < idLimit)
    (hname : '\n' ∉ g.name.toList) : Writable g := by
  refine ⟨hpos, hlt, fun a ha => ?_, hname⟩
  obtain ⟨i, hi⟩ := Network.mem_arcs_iff.1 (List.mem_filter.1 ha).1
  exact ⟨hg.src_lt hi, hg.snk_lt hi, hg.loopless hi⟩

theorem count_of_lt {n m : Nat} (h : n < m) (hm : m < idLimit) : Numeral.Count (toString n).toList n := by
  have hlimit : idLimit < 2 ^ 64 := by decide
  exact Numeral.count_toString (by omega)

theorem spells_weights {v : Vertex (Signed max)} {vs : List (Vertex (Signed max))} (h : g.vertices.toList = v :: vs) :
    Spells (" ".intercalate (g.vertices.toList.map fun v => Numeral.write v.weight)) (Numeral.write v.weight).toList
      (vs.map fun v => (Numeral.write v.weight).toList) := by
  refine ⟨?_, ?_⟩
  · rw [h, String.toList_intercalate, List.map_map]
    rfl
  · rw [← List.map_cons (f := fun v : Vertex (Signed max) => (Numeral.write v.weight).toList)]
    refine List.forall_mem_map.2 fun v _ => Numeral.plain_write v.weight

theorem spells_arcLine (a : Arc (Signed max)) :
    Spells (arcLine a) (toString a.src.index).toList [(toString a.snk.index).toList, (Numeral.write a.cost).toList] := by
  refine ⟨?_, ?_⟩
  · simp only [arcLine, String.toList_append, List.intercalate_cons_cons, List.intercalate_singleton, List.append_assoc]
    rfl
  · simp only [List.forall_mem_cons]
    exact ⟨Numeral.plain_toString_nat _, Numeral.plain_toString_nat _, Numeral.plain_write _, by simp⟩

/-- The lines of arcs say their links. -/
theorem saysLinks {n : Nat} (hn : n < idLimit) {arcs : List (Arc (Signed max))}
    (h : ∀ a ∈ arcs, a.src.index < n ∧ a.snk.index < n ∧ a.src ≠ a.snk) (count : Nat) :
    List.Forall₂ (SaysLink n) (numberLines ((arcs.map arcLine).map fun l => encode l.toList) count)
      (arcs.map fun a => (⟨a.src, a.snk, a.cost⟩ : Link (Signed max))) := by
  induction arcs generalizing count with
  | nil => exact .nil
  | cons a arcs ih =>
    obtain ⟨hsrc, hsnk, hne⟩ := h a List.mem_cons_self
    rw [List.map_cons, List.map_cons, List.map_cons, numberLines_of_spells (spells_arcLine a)]
    have hcost := Numeral.read_write a.cost
    refine .cons ⟨_, _, _, _, rfl, count_of_lt hsrc hn, count_of_lt hsnk hn, hcost, hsrc, hsnk, hne⟩ ?_
    exact ih (fun a ha => h a (List.mem_cons_of_mem _ ha)) _

/-- The lines of a network other than its name. -/
def body (g : Network (Signed max)) : List String :=
  toString g.numVertices :: " ".intercalate (g.vertices.toList.map fun v => Numeral.write v.weight) ::
    g.realArcs.map arcLine

theorem exists_vertex (hg : Writable g) : ∃ v vs, g.vertices.toList = v :: vs :=
  List.exists_cons_of_length_pos (by simpa [Network.numVertices] using hg.numVertices_pos)

theorem line_feed_not_mem_body (g : Network (Signed max)) : ∀ l ∈ body g, '\n' ∉ l.toList := by
  simp only [body, List.forall_mem_cons, List.forall_mem_map]
  refine ⟨(Numeral.spells_toString _).line_feed_not_mem, ?_, fun a _ => (spells_arcLine a).line_feed_not_mem⟩
  cases hvs : g.vertices.toList with
  | nil => simp
  | cons v vs => exact hvs ▸ (spells_weights hvs).line_feed_not_mem

theorem says_body (hg : Writable g) (count : Nat) :
    Says (numberLines ((body g).map fun l => encode l.toList) count) (ofNetwork g) := by
  obtain ⟨v, vs, hvs⟩ := exists_vertex hg
  have hlen : (g.vertices.toList.map Vertex.weight).length = g.numVertices := by simp [Network.numVertices]
  rw [body, List.map_cons, List.map_cons, numberLines_of_spells (Numeral.spells_toString _),
    numberLines_of_spells (spells_weights hvs)]
  refine ⟨⟨_, _, rfl, ?_⟩, ⟨_, _, _, rfl, ?_⟩, ?_⟩
  · rw [hlen]
    exact Numeral.count_toString (Nat.lt_trans hg.numVertices_lt (by decide))
  · rw [hvs, ← List.map_cons (f := fun v : Vertex (Signed max) => (Numeral.write v.weight).toList)]
    exact List.forall₂_map_left_iff.2 (List.forall₂_map_right_iff.2 (List.forall₂_same.2 fun v _ =>
      Numeral.read_write v.weight))
  · rw [hlen]
    exact saysLinks hg.numVertices_lt hg.joins _

theorem says_write (hg : Writable g) : Says (contents (encode (write g).toList)) (ofNetwork g) := by
  have hbody := line_feed_not_mem_body g
  rw [← lines_eq, lines]
  by_cases hname : g.name.isEmpty
  · have hwrite : write g = unlines (body g) := by
      simp [write, body, hname]
    rw [hwrite, splitLines_unlines_of_not_mem hbody]
    exact says_body hg 0
  · have hwrite : write g = unlines (("// " ++ g.name) :: body g) := by
      simp [write, body, hname]
    have hheader : ("// " ++ g.name).toList = '/' :: '/' :: ' ' :: g.name.toList := by
      rw [String.toList_append]
      rfl
    have hlines : ∀ l ∈ ("// " ++ g.name) :: body g, '\n' ∉ l.toList := by
      refine List.forall_mem_cons.2 ⟨?_, hbody⟩
      rw [hheader]
      simpa using hg.name
    rw [hwrite, splitLines_unlines_of_not_mem hlines, List.map_cons, numberLines_cons, hheader, lineOf?_comment,
      Option.toList_none, List.nil_append]
    exact says_body hg 1

theorem fits_ofNetwork : (ofNetwork g).Fits ↔ g.numVertices + g.realArcs.length < idLimit := by
  simp [Fits, ofNetwork, Network.numVertices]

/-- What is written of a network is read back if there are numbers for its vertices and real arcs. -/
theorem read_write [NeZero max] (hg : Writable g) (hfit : g.numVertices + g.realArcs.length < idLimit) :
    read (write g).toUTF8.data.toList = .ok (.ok (ofNetwork g).network) := by
  rw [toList_toUTF8]
  exact read_of_says (says_write hg) (fits_ofNetwork.2 hfit)

/-- When all vertices come first, there may be no room left for the arcs. -/
theorem read_write_of_full [NeZero max] (hg : Writable g) (hfull : idLimit ≤ g.numVertices + g.realArcs.length) :
    read (F := Signed max) (write g).toUTF8.data.toList = .error .arcCapacity := by
  have hfit : ¬ (ofNetwork g).Fits := fits_ofNetwork.not.2 (Nat.not_lt.2 hfull)
  have hweights : (ofNetwork g).weights.length < idLimit := by
    simpa [ofNetwork, Network.numVertices] using hg.numVertices_lt
  rw [toList_toUTF8, read_of_not_fits (List.append_nil _).symm (says_write hg) hfit, if_pos hweights]

/-! ## Working copies -/

/-- The network `h` is `g` as it would be built anew: without a name, with the weights in order, and with the real arcs
in order, without flow and outside the tree. -/
structure Rebuilt {F : Type} [Amount F] (g h : Network F) : Prop where
  name_eq : h.name = ""
  weights_eq : h.vertices.toList.map Vertex.weight = g.vertices.toList.map Vertex.weight
  vertex_id : ∀ (i : Nat) (v : Vertex F), h.vertices[i]? = some v → v.id = ⟨i⟩
  arcs_eq : List.Forall₂ (fun a x => x.src = a.src ∧ x.snk = a.snk ∧ x.cost = a.cost) g.realArcs h.arcs.toList
  arc_eq : ∀ (i : Nat) (x : Arc F), h.arcs[i]? = some x →
    x.id = ⟨i⟩ ∧ x.kind = .real ∧ x.flow = Amount.zero ∧ x.inTree = false

theorem getElem?_vertices_network {F : Type} [Amount F] (i : Instance F) (k : Nat) :
    i.network.vertices[k]? = (i.weights[k]?).map (Builder.vertex k) := by
  simp [network]

theorem getElem?_arcs_network {F : Type} [Amount F] (i : Instance F) (k : Nat) :
    i.network.arcs[k]? = (i.links[k]?).map (Builder.arc k) := by
  simp [network]

theorem rebuilt_ofNetwork {F : Type} [Amount F] (g : Network F) : Rebuilt g (ofNetwork g).network := by
  refine ⟨rfl, ?_, fun k v hv => ?_, ?_, fun k x hx => ?_⟩
  · refine List.ext_getElem? fun k => ?_
    rw [List.getElem?_map, Array.getElem?_toList, getElem?_vertices_network, Option.map_map]
    exact Option.map_id'
  · rw [getElem?_vertices_network] at hv
    obtain ⟨w, -, rfl⟩ := Option.map_eq_some_iff.1 hv
    rfl
  · have hlen : g.realArcs.length = (ofNetwork g).network.arcs.toList.length := by simp [network, ofNetwork]
    refine List.forall₂_iff_get.2 ⟨hlen, fun k hk hk' => ?_⟩
    simp [network, ofNetwork, Builder.arc]
  · rw [getElem?_arcs_network] at hx
    obtain ⟨l, -, rfl⟩ := Option.map_eq_some_iff.1 hx
    exact ⟨rfl, rfl, rfl, rfl⟩

namespace Rebuilt

variable {F : Type} [Amount F] {g h : Network F}

theorem numVertices_eq (r : Rebuilt g h) : h.numVertices = g.numVertices := by
  simpa [Network.numVertices] using congrArg List.length r.weights_eq

theorem numArcs_eq (r : Rebuilt g h) : h.numArcs = g.realArcs.length := by
  rw [Network.numArcs, ← Array.length_toList]
  exact r.arcs_eq.length_eq.symm

end Rebuilt

/-- Whatever a solver has done with a network that was built, what is written of its working copy is read back if and
only if there are numbers for its vertices and arcs together, as there are if no vertex was added after the last arc
(`Builder.room_calls`). Otherwise reading runs out of numbers for arcs, since it takes all vertices before the first
arc. -/
theorem read_write_of_reachable [NeZero max] (b : Builder (Signed max)) (id : Nat) {s : Simplex (Signed max)}
    (h : Simplex.Reachable (fun _ => True) (b.network.setId id) s) (hpos : 0 < b.numVertices)
    (hname : '\n' ∉ b.name.toList) :
    ((∃ g, read (write s.solution).toUTF8.data.toList = .ok (.ok g) ∧ Rebuilt s.solution g) ↔
        b.numVertices + b.numArcs < idLimit) ∧
      (b.numVertices < idLimit → idLimit ≤ b.numVertices + b.numArcs →
        read (F := Signed max) (write s.solution).toUTF8.data.toList = .error .arcCapacity) := by
  have hsound := Simplex.sound_of_reachable (Simplex.wellFormed_setId (Network.wellFormed_network b) id) h
  have hn : s.solution.numVertices = b.numVertices := hsound.numVertices_eq.trans (Network.numVertices_network b)
  have hm : s.solution.realArcs.length = b.numArcs := by
    rw [← hsound.traces.length_eq, Array.length_toList]
    rfl
  have hname' : s.solution.name = b.name := congrArg (·.2.1) hsound.base
  have hwritable : b.numVertices < idLimit → Writable s.solution := fun hlt =>
    writable_of_wellFormed hsound.wellFormed (hn ▸ hpos) (hn ▸ hlt) (hname' ▸ hname)
  refine ⟨⟨?_, fun hfit => ?_⟩, fun hlt hfull => ?_⟩
  · rintro ⟨g, hread, hg⟩
    have hroom := room_of_read hread
    rwa [hg.numVertices_eq, hg.numArcs_eq, hn, hm] at hroom
  · have hlt : b.numVertices < idLimit := Nat.lt_of_le_of_lt (Nat.le_add_right _ _) hfit
    have hread := read_write (hwritable hlt) (by rwa [hn, hm])
    exact ⟨_, hread, rebuilt_ofNetwork _⟩
  · exact read_write_of_full (hwritable hlt) (by rwa [hn, hm])

/-- The working copy of the relay comes back without its two artificial arcs and its name. There is no room for the arcs
of a crowded network. -/
theorem read_write_of_relay_and_crowded :
    (∃ s : Simplex Signed8, Simplex.Reachable (fun _ => True) (Builder.relay.network.setId 7) s ∧
      s.solution.name = "relay" ∧ s.solution.artificialArcs.length = 2 ∧
      ∃ g, read (write s.solution).toUTF8.data.toList = .ok (.ok g) ∧ Rebuilt s.solution g) ∧
    ∃ as b, Builder.empty.calls (Builder.crowded (idLimit - 3)) = .ok (as, b) ∧ b.numVertices < idLimit ∧
      idLimit ≤ b.numVertices + b.numArcs ∧ read (F := Signed8)
        (write (Simplex.new (b.network.setId 7)).solution).toUTF8.data.toList = .error .arcCapacity := by
  constructor
  · have hsolve : (Simplex.new (Builder.relay.network.setId 7)).run Simplex.solve =
        .ok (.ok .optimal, (Simplex.new (Builder.relay.network.setId 7)).after Simplex.solve) := by decide +kernel
    have hreach : Simplex.Reachable (fun _ => True) (Builder.relay.network.setId 7)
        ((Simplex.new (Builder.relay.network.setId 7)).after Simplex.solve) := .solve .new hsolve
    have hiff := (read_write_of_reachable Builder.relay 7 hreach (by decide) (by decide)).1
    exact ⟨_, hreach, by decide +kernel, by decide +kernel, hiff.2 (by decide)⟩
  · obtain ⟨m, as, b, hm, hcalls, -, hb⟩ := Builder.exists_crowded
    have hn := hb.numVertices_eq
    have hlt : b.numVertices < idLimit := by rw [hn]; decide
    have hfull : idLimit ≤ b.numVertices + b.numArcs := by rw [hn, hb.numArcs_eq]; omega
    have hname : '\n' ∉ b.name.toList := by rw [hb.name]; exact List.not_mem_nil
    exact ⟨as, b, hcalls, hlt, hfull, (read_write_of_reachable b 7 .new (by omega) hname).2 hlt hfull⟩

/-- No call is refused, but when the three vertices that came late are read first there is no room for the last arcs. -/
theorem read_write_of_crowded : ∃ as b, Builder.empty.calls (Builder.crowded (idLimit - 3)) = .ok (as, b) ∧
    (∀ a ∈ as, ∀ fault, a ≠ .refused fault) ∧ 0 < b.numVertices ∧ '\n' ∉ b.name.toList ∧
    read (F := Signed8) (write b.network).toUTF8.data.toList = .error .arcCapacity := by
  obtain ⟨m, as, b, hm, hcalls, hanswers, hb⟩ := Builder.exists_crowded
  have hn : b.network.numVertices = 5 := (Network.numVertices_network b).trans hb.numVertices_eq
  have hlen : b.network.realArcs.length = m := (Network.length_realArcs_network b).trans hb.numArcs_eq
  have hlt : b.network.numVertices < idLimit := by rw [hn]; decide
  have hpos : 0 < b.numVertices := by rw [hb.numVertices_eq]; decide
  have hname : '\n' ∉ b.name.toList := by rw [hb.name]; exact List.not_mem_nil
  have hwritable : Writable b.network :=
    writable_of_wellFormed (Network.wellFormed_network b) (by omega) hlt hname
  exact ⟨as, b, hcalls, hanswers, hpos, hname, read_write_of_full hwritable (by omega)⟩

end Instance

end Transportation
