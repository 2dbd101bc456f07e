import Transportation.Proofs.Network.Calls
import Transportation.Proofs.Simplex.Overflow
import Transportation.Proofs.Simplex.WorkingCopy
/-!
# Room for artificial arcs

When an arc is added, there is room left for one artificial arc for each vertex that is there already. Vertices that are
added later are not asked whether there is room for theirs, so that at most their number is missing in the end
(`start_of_calls`). In a network that is `crowded` in this way the star runs out of numbers for arcs.
-/

namespace Transportation

variable {F : Type}

namespace Builder

/-! ## Room in a builder -/

/-- The number of vertices added after the last arc, with `k` of them before the calls. -/
def lateVertices (k : Nat) : List (Call F) → List Answer → Nat
  | c :: cs, a :: as => lateVertices (if a.arcIds = [] then k + c.weights.length else 0) cs as
  | _, _ => k

/-- An arc makes sure that there is room for all vertices so far, and vertices take up room. -/
theorem room_call {b b' : Builder F} {c : Call F} {a : Answer} (h : b.call c = .ok (a, b')) {k : Nat}
    (hk : b.numVertices + b.numArcs < idLimit + k) :
    b'.numVertices + b'.numArcs < idLimit + if a.arcIds = [] then k + c.weights.length else 0 := by
  obtain ⟨ha, hb⟩ := answers_of_call h
  have hn := hb.numVertices_eq
  have hm := hb.numArcs_eq
  rw [List.flatMap_singleton] at hn
  cases ha with
  | arc _ room =>
    have hn : b'.numVertices = b.numVertices := hn
    have hm : b'.numArcs = b.numArcs + 1 := hm
    simp only [Answer.arcIds, List.cons_ne_nil, if_false]
    omega
  | _ =>
    have hm : b'.numArcs = b.numArcs := hm
    simp only [Answer.arcIds, if_true]
    omega

theorem room_calls {b b' : Builder F} {cs : List (Call F)} {as : List Answer} (h : b.calls cs = .ok (as, b')) {k : Nat}
    (hk : b.numVertices + b.numArcs < idLimit + k) :
    b'.numVertices + b'.numArcs < idLimit + lateVertices k cs as := by
  induction cs generalizing b as k with
  | nil =>
    cases h
    exact hk
  | cons c cs ih =>
    obtain ⟨⟨a, b₁⟩, hcall, h⟩ := Checked.bind_eq_ok_iff.1 h
    obtain ⟨⟨as, b₂⟩, hcalls, h⟩ := Checked.bind_eq_ok_iff.1 h
    cases h
    exact ih hcalls (room_call hcall hk)

/-- Arcs are all taken as long as they join vertices that are there and there is room. -/
theorem calls_addArc {b : Builder F} {links : List (Link F)} (hjoins : ∀ l ∈ links, l.Joins b.numVertices)
    (room : b.numArcs + links.length + b.numVertices < idLimit) :
    b.calls (links.map .addArc) =
      .ok ((List.range' b.numArcs links.length).map fun i => .arc ⟨i⟩, b.withLinks links hjoins) := by
  induction links generalizing b with
  | nil =>
    rw [withLinks_nil]
    rfl
  | cons l links ih =>
    rw [List.length_cons] at room
    have hl : ∀ l' ∈ [l], l'.Joins b.numVertices := List.forall_mem_singleton.2 (hjoins l (List.mem_cons_self ..))
    have hcall : b.call (.addArc l) = .ok (.arc ⟨b.numArcs⟩, b.withLinks [l] hl) := by
      rw [call, addArc_eq b (hl l (List.mem_singleton_self l)), if_pos (by omega)]
      rfl
    have hcalls := ih (b := b.withLinks [l] hl) (fun l' hl' => hjoins l' (List.mem_cons_of_mem _ hl')) (by
      rw [numArcs_withLinks, numVertices_withLinks, List.length_singleton]
      omega)
    rw [withLinks_cons hl hjoins, numArcs_withLinks, List.length_singleton] at hcalls
    exact calls_cons hcall hcalls

theorem calls_append {b b₁ b₂ : Builder F} {cs cs' : List (Call F)} {as as' : List Answer}
    (h : b.calls cs = .ok (as, b₁)) (h' : b₁.calls cs' = .ok (as', b₂)) :
    b.calls (cs ++ cs') = .ok (as ++ as', b₂) := by
  induction cs generalizing b as with
  | nil =>
    cases h
    exact h'
  | cons c cs ih =>
    obtain ⟨⟨a, b'⟩, hcall, h⟩ := Checked.bind_eq_ok_iff.1 h
    obtain ⟨⟨as, b''⟩, hcalls, h⟩ := Checked.bind_eq_ok_iff.1 h
    cases h
    exact calls_cons hcall (ih hcalls)

end Builder

namespace Network

variable [Amount F] {g h : Network F} {v : VertexId} {vs : List VertexId}

/-! ## A star that runs out of numbers -/

theorem joinHub_of_remote {w : Vertex F} (hv : g.vertices[v.index]? = some w)
    (hw : Amount.lt w.weight Amount.zero = false) (hremote : ∀ a ∈ g.realArcs, a.src ≠ g.hub) :
    g.joinHub v = g.addArtificialArc g.hub v Amount.one w.weight := by
  have hfind : g.findArc? g.hub v = none := findArc?_eq_none_iff.2 fun a ha h => hremote a ha h.1
  rw [joinHub_eq, vertex_eq_ok_iff.2 hv, Checked.ok_bind, hw, if_neg Bool.false_ne_true, join, hfind, Option.elim_none]

/-- If no real arc leaves the hub, every demand takes an artificial arc. -/
theorem foldlM_joinHub_of_remote (hvs : ∀ v ∈ vs, ∃ w, g.vertices[v.index]? = some w ∧
    Amount.lt w.weight Amount.zero = false) (hremote : ∀ a ∈ g.realArcs, a.src ≠ g.hub) (hroom : g.numArcs ≤ idLimit)
    (hfull : idLimit < g.numArcs + vs.length) : vs.foldlM joinHub g = .error .invalidArcId := by
  induction vs generalizing g with
  | nil => exact absurd hfull (Nat.not_lt.2 hroom)
  | cons v vs ih =>
    obtain ⟨w, hv, hw⟩ := hvs v (List.mem_cons_self ..)
    rw [List.foldlM_cons, joinHub_of_remote hv hw hremote, addArtificialArc, Checked.require]
    split
    · next hlt =>
      have hreal : ({ g with arcs := g.arcs.push ⟨⟨g.numArcs⟩, g.hub, v, Amount.one, w.weight, .artificial, true⟩ } :
          Network F).realArcs = g.realArcs := by simp [realArcs, Arc.isReal]
      refine ih (fun v hv => hvs v (List.mem_cons_of_mem _ hv)) (hreal ▸ hremote) ?_ ?_ <;>
        simp only [numArcs, Array.size_push, List.length_cons] at * <;> omega
    · rfl

theorem star_of_remote (hdemand : ∀ w ∈ g.vertices, Amount.lt w.weight Amount.zero = false)
    (hremote : ∀ a ∈ g.realArcs, a.src ≠ g.hub) (hroom : g.realArcs.length ≤ idLimit)
    (hfull : idLimit < g.realArcs.length + (g.numVertices - 1)) : g.star = .error .invalidArcId := by
  have hnum : g.cleared.numArcs = g.realArcs.length := by
    simp [cleared, mapArcs, dropArtificialArcs, numArcs, realArcs, ← Array.length_toList]
  refine foldlM_joinHub_of_remote (g := g.cleared) (fun v hv => ?_) ?_ (hnum ▸ hroom) ?_
  · have hlt : v.index < g.numVertices := (of_mem_filter_hub (g := g) hv).1
    exact ⟨_, Array.getElem?_eq_getElem hlt, hdemand _ (Array.getElem_mem hlt)⟩
  · intro a ha
    obtain ⟨x, hx, rfl⟩ : ∃ x ∈ g.realArcs, { x with cost := Amount.zero, flow := Amount.zero, inTree := false } = a := by
      simpa [cleared, mapArcs, dropArtificialArcs, realArcs] using (List.mem_filter.1 ha).1
    exact hremote x hx
  · exact (length_filter_hub g).symm ▸ hnum ▸ hfull

end Network

namespace Simplex

variable [Amount F] {s s' : Simplex F} {g : Network F}

theorem start_of_star_error {fault : Fault} (hb : s.input.isBalancedWithin s.options.zero = .ok true)
    (hstar : s.input.star = .error fault) : s.run start = .error fault := by
  unfold start
  rw [run_get_bind, run_checked_bind, hb, Checked.ok_bind]
  simp only [if_true]
  rw [run_checked_bind, hstar]
  rfl

/-- The first phase adds at most one arc for every vertex but the hub. -/
theorem id_lt_of_start (hg : g.WellFormed) (hin : s.input = g) (hid : g.numArcs + (g.numVertices - 1) ≤ idLimit)
    (h : s.run start = .ok (.ok (), s')) {x : Arc F} (hx : x ∈ s'.solution.arcs) : x.id.index < idLimit := by
  subst hin
  generalize hr : (.ok () : Except SolveError Unit) = r at h
  cases startRun_of_run h with
  | unbalanced => cases hr
  | @started k t _ _ _ hstar _ hu =>
    obtain ⟨hs, hle⟩ := Network.star_of_foldlM hg ((Network.nodup_vertexIds _).filter _)
      (fun u => Network.of_mem_filter_hub) hstar
    obtain ⟨ps, -, rfl⟩ := Incidence.computePotentials_eq_ok_iff.1 hu
    obtain ⟨i, hi⟩ := Array.mem_iff_getElem?.1 (show x ∈ k.arcs from hx)
    have hcleared := s.input.numArcs_cleared_le
    have hlen := s.input.length_filter_hub
    have hlt : i < k.numArcs := (Array.getElem?_eq_some_iff.1 hi).1
    rw [hs.wellFormed.arc_id hi]
    show i < idLimit
    omega

variable [LawfulAmount F]

/-- A network has room for itself but for the vertices that were added after its last arc. If there is room for it, the
first phase does not run out of numbers for its artificial arcs: it faults by overflows of amounts only. -/
theorem start_of_calls {cs : List (Builder.Call F)} {as : List Builder.Answer} {b : Builder F}
    (h : Builder.empty.calls cs = .ok (as, b)) :
    b.numVertices + b.numArcs < idLimit + Builder.lateVertices 0 cs as ∧
      (b.numVertices + b.numArcs ≤ idLimit → ∀ s : Simplex F, s.input = b.network →
        Checked.FaultsOnly Fault.IsOverflow (s.run start) ∧
          ∀ s', s.run start = .ok (.ok (), s') → ∀ x ∈ s'.solution.arcs, x.id.index < idLimit) := by
  refine ⟨Builder.room_calls h (show 0 < idLimit by decide), fun hroom s hin => ?_⟩
  have hg := Network.wellFormed_network b
  have hid : b.network.numArcs + (b.network.numVertices - 1) ≤ idLimit := by
    rw [Network.numArcs_network, Network.numVertices_network]
    omega
  exact ⟨overflow_start hg hin hid, fun s' hs' x => id_lt_of_start hg hin hid hs'⟩

/-- The relay has no vertex that was added after its arcs. -/
theorem start_of_relay : ∃ as s', Builder.empty.calls ([.setName "relay", .addVertices Builder.relay.weights.toList] ++
      Builder.relay.links.toList.map .addArc) = .ok (as, Builder.relay) ∧
    Builder.relay.numVertices + Builder.relay.numArcs ≤ idLimit ∧
    (new Builder.relay.network).run start = .ok (.ok (), s') ∧ ∀ x ∈ s'.solution.arcs, x.id.index < idLimit := by
  have hcalls : Builder.empty.calls ([.setName "relay", .addVertices Builder.relay.weights.toList] ++
      Builder.relay.links.toList.map .addArc) =
        .ok ([.done, .vertices [⟨0⟩, ⟨1⟩, ⟨2⟩], .arc ⟨0⟩, .arc ⟨1⟩], Builder.relay) := rfl
  have hfits : Builder.relay.numVertices + Builder.relay.numArcs ≤ idLimit := by decide
  have hs : (new Builder.relay.network).run start = .ok (.ok (), (new Builder.relay.network).after start) := by
    decide +kernel
  exact ⟨_, _, hcalls, hfits, hs, ((start_of_calls hcalls).2 hfits _ rfl).2 _ hs⟩

end Simplex

namespace Builder

/-- Arcs between two vertices and then three more vertices. -/
def crowded (m : Nat) : List (Call Signed8) :=
  [.addVertices [Signed8.zero, Signed8.zero]] ++ (List.replicate m ⟨⟨0⟩, ⟨1⟩, Signed8.zero⟩).map .addArc ++
    [.addVertices [Signed8.zero, Signed8.zero, Signed8.zero]]

/-- What these calls build. -/
structure IsCrowded (m : Nat) (b : Builder Signed8) : Prop where
  name : b.name = ""
  weights : b.weights = Array.replicate 5 Signed8.zero
  links : b.links = Array.replicate m ⟨⟨0⟩, ⟨1⟩, Signed8.zero⟩

theorem IsCrowded.numVertices_eq {m : Nat} {b : Builder Signed8} (h : b.IsCrowded m) : b.numVertices = 5 := by
  rw [numVertices, h.weights, Array.size_replicate]

theorem IsCrowded.numArcs_eq {m : Nat} {b : Builder Signed8} (h : b.IsCrowded m) : b.numArcs = m := by
  rw [numArcs, h.links, Array.size_replicate]

/-- No call is refused as long as there is room for the arcs and their two vertices. -/
theorem calls_crowded {m : Nat} (hm : m + 2 < idLimit) : ∃ as b, empty.calls (crowded m) = .ok (as, b) ∧
    (∀ a ∈ as, ∀ fault, a ≠ .refused fault) ∧ b.IsCrowded m := by
  have hpair : empty.calls [.addVertices [Signed8.zero, Signed8.zero]] =
      .ok ([.vertices [⟨0⟩, ⟨1⟩]], empty.withWeights [Signed8.zero, Signed8.zero]) := rfl
  have hjoins : ∀ l ∈ List.replicate m (⟨⟨0⟩, ⟨1⟩, Signed8.zero⟩ : Link Signed8),
      l.Joins (empty.withWeights [Signed8.zero, Signed8.zero]).numVertices := by
    intro l hl
    rw [List.eq_of_mem_replicate hl]
    exact ⟨by decide, by decide, by decide⟩
  have harcs := calls_addArc hjoins (by
    rw [numArcs_withWeights, numArcs_empty, List.length_replicate, numVertices_withWeights, numVertices_empty]
    simpa [Nat.add_comm] using hm)
  have hrest : ∀ b : Builder Signed8, b.numVertices = 2 →
      b.calls [.addVertices [Signed8.zero, Signed8.zero, Signed8.zero]] =
        .ok ([.vertices [⟨2⟩, ⟨3⟩, ⟨4⟩]], b.withWeights [Signed8.zero, Signed8.zero, Signed8.zero]) := by
    intro b hb
    rw [calls, call, addVertices_eq, if_pos (.inr (by rw [hb]; decide)), hb]
    rfl
  refine ⟨_, _, calls_append (calls_append hpair harcs) (hrest _ rfl), ?_, rfl, rfl, ?_⟩
  · rintro a ha fault rfl
    simp at ha
  · simp [withLinks, withWeights, empty]

/-- There is room for as many arcs as this before the other three vertices come. -/
theorem exists_crowded : ∃ m as b, m + 3 = idLimit ∧ empty.calls (crowded (idLimit - 3)) = .ok (as, b) ∧
    (∀ a ∈ as, ∀ fault, a ≠ .refused fault) ∧ b.IsCrowded m := by
  obtain ⟨m, hm⟩ : ∃ m, m + 3 = idLimit := ⟨idLimit - 3, by decide⟩
  obtain ⟨as, b, hcalls, hanswers, hb⟩ := calls_crowded (m := m) (by omega)
  rw [show idLimit - 3 = m by omega]
  exact ⟨m, as, b, hm, hcalls, hanswers, hb⟩

end Builder

namespace Simplex

/-- Nothing is wanted of the arcs, but the hub is one of the vertices that they do not reach. -/
theorem star_of_crowded {b : Builder Signed8} {m : Nat} (hb : b.IsCrowded m) (hm : m ≤ idLimit)
    (hfull : idLimit < m + 4) : b.network.star = .error .invalidArcId := by
  have hn : b.network.numVertices = 5 := (Network.numVertices_network b).trans hb.numVertices_eq
  have hlen : b.network.realArcs.length = m := (Network.length_realArcs_network b).trans hb.numArcs_eq
  refine Network.star_of_remote ?_ ?_ ?_ ?_
  · show ∀ w ∈ b.weights.mapIdx Builder.vertex, _
    rw [hb.weights]
    decide
  · intro a ha
    rw [Network.realArcs_network, Builder.network, hb.links, Array.mem_toList_iff] at ha
    obtain ⟨i, hi, rfl⟩ := Array.mem_mapIdx.1 ha
    rw [Array.getElem_replicate, Network.hub, hn]
    exact VertexId.mk.inj.mt (by decide)
  · rwa [hlen]
  · rwa [hlen, hn]

/-- The room for five vertices and as many arcs as two of them may have between them is missing. No call is refused and
the weights cancel out, but there is no number for the last artificial arc but one. -/
theorem start_of_crowded : ∃ as b, Builder.empty.calls (Builder.crowded (idLimit - 3)) = .ok (as, b) ∧
    (∀ a ∈ as, ∀ fault, a ≠ .refused fault) ∧ idLimit < b.numVertices + b.numArcs ∧
    b.network.totalWeight = .ok Signed8.zero ∧ (new b.network).run start = .error .invalidArcId := by
  obtain ⟨m, as, b, hm, hcalls, hanswers, hb⟩ := Builder.exists_crowded
  have hn := hb.numVertices_eq
  have hlen := hb.numArcs_eq
  have htotal : b.network.totalWeight = .ok Signed8.zero := by
    rw [Network.totalWeight, Builder.network, hb.weights]
    rfl
  have hbalanced : (new b.network).input.isBalancedWithin (new b.network).options.zero = .ok true := by
    show b.network.isBalancedWithin Signed8.zero = .ok true
    rw [Network.isBalancedWithin, htotal]
    rfl
  have hstar := star_of_crowded hb (by omega) (by omega)
  exact ⟨as, b, hcalls, hanswers, by omega, htotal, start_of_star_error hbalanced hstar⟩

end Simplex

end Transportation
