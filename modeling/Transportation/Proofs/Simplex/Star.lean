import Transportation.Proofs.Faults
import Transportation.Proofs.Network.Tree
import Transportation.Simplex.Star
/-!
# The star

The tree of the star has one arc for every vertex but the hub, its spoke, which joins the vertex to the hub and
balances it. No two spokes are the same arc, so the star is a spanning tree, and it has at most one arc more than the
real ones for every vertex.
-/

namespace Transportation

variable {F : Type}

namespace Network

variable {g h k : Network F} {v : VertexId} {x : Arc F} {done : List VertexId}

/-! ## An artificial arc more -/

theorem getElem?_push (i : Nat) :
    ({ g with arcs := g.arcs.push x } : Network F).arcs[i]? = if i = g.numArcs then some x else g.arcs[i]? := by
  simp only [Array.getElem?_push]
  rfl

theorem WellFormed.push (hg : g.WellFormed) (hid : x.id = ⟨g.numArcs⟩) (hsrc : x.src.index < g.numVertices)
    (hsnk : x.snk.index < g.numVertices) (hne : x.src ≠ x.snk) (hk : x.kind = .artificial) :
    ({ g with arcs := g.arcs.push x } : Network F).WellFormed := by
  have hcases : ∀ {i : Nat} {y : Arc F}, ({ g with arcs := g.arcs.push x } : Network F).arcs[i]? = some y →
      (i = g.numArcs ∧ y = x) ∨ g.arcs[i]? = some y := by
    intro i y hy
    rw [getElem?_push] at hy
    split at hy
    · next hi => exact .inl ⟨hi, (Option.some.inj hy).symm⟩
    · exact .inr hy
  refine ⟨⟨hg.vertex_id, ?_, ?_, ?_⟩, ?_, ?_⟩
  · intro i y hy
    rcases hcases hy with ⟨rfl, rfl⟩ | hy
    · exact hid
    · exact hg.arc_id hy
  · intro i y hy
    rcases hcases hy with ⟨rfl, rfl⟩ | hy
    · exact hsrc
    · exact hg.src_lt hy
  · intro i y hy
    rcases hcases hy with ⟨rfl, rfl⟩ | hy
    · exact hsnk
    · exact hg.snk_lt hy
  · intro i y hy
    rcases hcases hy with ⟨rfl, rfl⟩ | hy
    · exact hne
    · exact hg.loopless hy
  · intro i j y z hy hz hky hkz
    rcases hcases hy with ⟨-, rfl⟩ | hy'
    · rw [hk] at hky; cases hky
    -- The new arc is artificial and comes last, so no real arc stands after an artificial one.
    rcases hcases hz with ⟨rfl, -⟩ | hz'
    · exact (Array.getElem?_eq_some_iff.1 hy').1
    · exact hg.layered hy' hz' hky hkz

theorem base_push (hk : x.kind = .artificial) : ({ g with arcs := g.arcs.push x } : Network F).base = g.base := by
  simp [base, realArcs, Arc.isReal, hk]

theorem treeArcs_push (ht : x.inTree = true) :
    ({ g with arcs := g.arcs.push x } : Network F).treeArcs = g.treeArcs ++ [x] := by
  simp [treeArcs, ht]

variable [Amount F]

/-! ## The empty star -/

theorem getElem?_cleared (i : Nat) : g.cleared.arcs[i]? =
    g.realArcs[i]?.map ({ · with cost := Amount.zero, flow := Amount.zero, inTree := false }) := by
  rw [← Array.getElem?_toList]
  simp [cleared, dropArtificialArcs, mapArcs, realArcs]

theorem treeArcs_cleared : g.cleared.treeArcs = [] := by
  simp [treeArcs, cleared, mapArcs]

theorem base_cleared : g.cleared.base = g.base := by
  simp only [base, cleared, mapArcs, dropArtificialArcs, realArcs, Array.toList_map, Array.toList_filter,
    List.filter_map, List.map_map, Prod.mk.injEq, true_and]
  rw [List.filter_filter]
  simp only [Arc.isReal, Function.comp_def, Bool.and_self]
  rfl

theorem WellFormed.cleared (hg : g.WellFormed) : g.cleared.WellFormed := by
  have hcases : ∀ {i : Nat} {y : Arc F}, g.cleared.arcs[i]? = some y →
      ∃ x, g.arcs[i]? = some x ∧ y.frame = x.frame ∧ x.kind = .real := by
    intro i y hy
    rw [getElem?_cleared] at hy
    obtain ⟨x, hx, rfl⟩ := Option.map_eq_some_iff.1 hy
    obtain ⟨hx, hk⟩ := hg.getElem?_realArcs.1 hx
    exact ⟨x, hx, rfl, hk⟩
  refine ⟨⟨hg.vertex_id, ?_, ?_, ?_⟩, ?_, ?_⟩
  all_goals intro i
  · intro y hy
    obtain ⟨x, hx, e, -⟩ := hcases hy
    rw [(Arc.frame_eq_iff.1 e).1, hg.arc_id hx]
  · intro y hy
    obtain ⟨x, hx, e, -⟩ := hcases hy
    rw [(Arc.frame_eq_iff.1 e).2.1]
    exact hg.src_lt hx
  · intro y hy
    obtain ⟨x, hx, e, -⟩ := hcases hy
    rw [(Arc.frame_eq_iff.1 e).2.2.1]
    exact hg.snk_lt hx
  · intro y hy
    obtain ⟨x, hx, e, -⟩ := hcases hy
    rw [(Arc.frame_eq_iff.1 e).2.1, (Arc.frame_eq_iff.1 e).2.2.1]
    exact hg.loopless hx
  · intro j y z hy hz hky hkz
    obtain ⟨x, -, e, hk⟩ := hcases hz
    rw [(Arc.frame_eq_iff.1 e).2.2.2, hk] at hkz
    cases hkz

/-! ## Spokes -/

/-- The arc `x` joins `v` to the hub of `g` and balances it. -/
inductive Spoke (g : Network F) (v : VertexId) (x : Arc F) : Prop
  | supply {w : Vertex F} (hv : g.vertices[v.index]? = some w) (hw : Amount.lt w.weight Amount.zero = true)
      (src : x.src = v) (snk : x.snk = g.hub) (flow : Amount.neg w.weight = .ok x.flow)
  | demand {w : Vertex F} (hv : g.vertices[v.index]? = some w) (hw : Amount.lt w.weight Amount.zero = false)
      (src : x.src = g.hub) (snk : x.snk = v) (flow : x.flow = w.weight)

/-- Joining `v` to the hub makes `x` a tree arc. -/
inductive Joined (g : Network F) (x : Arc F) : Network F → Prop
  | found {a : ArcId} {y : Arc F} {h : Network F} (hy : g.arcs[a.index]? = some y) (hk : y.kind = .real)
      (hx : x = { y with flow := x.flow, inTree := true })
      (e : g.modifyArc a ({ · with flow := x.flow, inTree := true }) = .ok h) : Joined g x h
  | added (hid : x.id = ⟨g.numArcs⟩) (hk : x.kind = .artificial) (hc : x.cost = Amount.one) (ht : x.inTree = true) :
      Joined g x { g with arcs := g.arcs.push x }

/-- Joins `u` to `v` by a tree arc with the given flow, the real arc between them or else an artificial one. -/
def join (g : Network F) (u v : VertexId) (flow : F) : Checked (Network F) :=
  (g.findArc? u v).elim (g.addArtificialArc u v Amount.one flow) fun a =>
    g.modifyArc a ({ · with flow, inTree := true })

theorem joinHub_eq (g : Network F) (v : VertexId) : g.joinHub v = g.vertex v >>= fun w =>
    if Amount.lt w.weight Amount.zero then Amount.neg w.weight >>= g.join v g.hub else g.join g.hub v w.weight := by
  unfold joinHub join
  congr 1
  funext w
  dsimp only
  cases Amount.lt w.weight Amount.zero with
  | true =>
    simp only [if_true, pure_bind]
    congr 1
    funext flow
    cases g.findArc? v g.hub <;> rfl
  | false =>
    simp only [Bool.false_eq_true, if_false, pure_bind]
    cases g.findArc? g.hub v <;> rfl

theorem exists_joined (hg : g.Numbered) {u v : VertexId} {flow : F} (e : g.join u v flow = .ok h) :
    ∃ x, x.src = u ∧ x.snk = v ∧ x.flow = flow ∧ g.Joined x h := by
  unfold join at e
  cases ha : g.findArc? u v with
  | some a =>
    simp only [ha, Option.elim_some] at e
    obtain ⟨y, hy, rfl⟩ := Option.map_eq_some_iff.1 ha
    have hp := Array.find?_some hy
    simp only [Bool.and_eq_true, beq_iff_eq, Arc.isReal, decide_eq_true_eq] at hp
    obtain ⟨⟨hk, rfl⟩, rfl⟩ := hp
    have hy := hg.getElem?_id (Array.mem_toList_iff.2 (Array.mem_of_find?_eq_some hy))
    exact ⟨{ y with flow, inTree := true }, rfl, rfl, rfl, .found hy hk rfl e⟩
  | none =>
    simp only [ha, Option.elim_none, addArtificialArc, Checked.require_bind_eq_ok_iff, Checked.pure_eq_ok_iff] at e
    obtain ⟨-, rfl⟩ := e
    exact ⟨_, rfl, rfl, rfl, .added rfl rfl rfl rfl⟩

theorem spoke_of_joinHub (hg : g.Numbered) (e : g.joinHub v = .ok h) : ∃ x, g.Spoke v x ∧ g.Joined x h := by
  rw [joinHub_eq] at e
  obtain ⟨w, hw, e⟩ := Checked.bind_eq_ok_iff.1 e
  rw [vertex_eq_ok_iff] at hw
  cases hlt : Amount.lt w.weight Amount.zero with
  | true =>
    simp only [hlt, if_true] at e
    obtain ⟨flow, hf, e⟩ := Checked.bind_eq_ok_iff.1 e
    obtain ⟨x, hsrc, hsnk, rfl, hx⟩ := exists_joined hg e
    exact ⟨x, .supply hw hlt hsrc hsnk hf, hx⟩
  | false =>
    simp only [hlt, Bool.false_eq_true, if_false] at e
    obtain ⟨x, hsrc, hsnk, hf, hx⟩ := exists_joined hg e
    exact ⟨x, .demand hw hlt hsrc hsnk hf, hx⟩

theorem Spoke.joins (h : g.Spoke v x) : (x.src = v ∧ x.snk = g.hub) ∨ (x.src = g.hub ∧ x.snk = v) := by
  cases h with
  | supply _ _ hsrc hsnk _ => exact .inl ⟨hsrc, hsnk⟩
  | demand _ _ hsrc hsnk _ => exact .inr ⟨hsrc, hsnk⟩

theorem Spoke.congr (h : g.Spoke v x) (hv : k.vertices = g.vertices) : k.Spoke v x := by
  have hhub : k.hub = g.hub := by simp only [hub, numVertices, hv]
  cases h with
  | supply hw hlt hsrc hsnk hf => exact .supply (hv ▸ hw) hlt hsrc (hhub ▸ hsnk) hf
  | demand hw hlt hsrc hsnk hf => exact .demand (hv ▸ hw) hlt (hhub ▸ hsrc) hsnk hf

/-- Spokes of different vertices have different ends. -/
theorem Spoke.eq (h : g.Spoke v x) {w : VertexId} {y : Arc F} (h' : g.Spoke w y) (hv : v ≠ g.hub) (hw : w ≠ g.hub)
    (hsrc : x.src = y.src) (hsnk : x.snk = y.snk) : v = w := by
  rcases h.joins with ⟨h₁, h₂⟩ | ⟨h₁, h₂⟩ <;> rcases h'.joins with ⟨h₃, h₄⟩ | ⟨h₃, h₄⟩
  · rw [← h₁, hsrc, h₃]
  · exact absurd (h₁.symm.trans (hsrc.trans h₃)) hv
  · exact absurd (h₃.symm.trans (hsrc.symm.trans h₁)) hw
  · rw [← h₂, hsnk, h₄]

/-! ## The star so far -/

/-- The network `h` is the star of `g` as far as the vertices `done` have been joined to the hub. -/
structure Star (g : Network F) (done : List VertexId) (h : Network F) : Prop where
  wellFormed : h.WellFormed
  vertices : h.vertices = g.vertices
  base : h.base = g.base
  spokes : ∃ l, h.treeArcs.Perm l ∧ List.Forall₂ (Spoke g) done l
  real : ∀ {i : Nat} {x : Arc F}, h.arcs[i]? = some x → x.kind = .real → x.cost = Amount.zero
  artificial : ∀ {i : Nat} {x : Arc F}, h.arcs[i]? = some x → x.kind = .artificial → x.cost = Amount.one
  idle : ∀ {i : Nat} {x : Arc F}, h.arcs[i]? = some x → x.inTree = false → x.flow = Amount.zero

theorem star_cleared (hg : g.WellFormed) : Star g [] g.cleared := by
  refine ⟨hg.cleared, rfl, base_cleared, ⟨[], by rw [treeArcs_cleared], .nil⟩, ?_, ?_, ?_⟩
  all_goals
    intro i x hx
    rw [getElem?_cleared] at hx
    obtain ⟨y, hy, rfl⟩ := Option.map_eq_some_iff.1 hx
  · exact fun _ => rfl
  · intro hk
    rw [show y.kind = .real from (hg.getElem?_realArcs.1 hy).2] at hk
    cases hk
  · exact fun _ => rfl

/-- No tree arc of the star so far has the ends of a new spoke. -/
theorem Star.ne_of_spoke (hs : Star g done h) (hv : v ∉ done) (hhub : ∀ u ∈ v :: done, u ≠ g.hub) (hx : g.Spoke v x)
    {y : Arc F} (hy : y ∈ h.treeArcs) : ¬ (x.src = y.src ∧ x.snk = y.snk) := by
  rintro ⟨hsrc, hsnk⟩
  obtain ⟨l, hperm, hl⟩ := hs.spokes
  obtain ⟨w, hw, hwy⟩ := Checked.exists_of_forall₂ hl (hperm.mem_iff.1 hy)
  have := hx.eq hwy (hhub v (by simp)) (hhub w (by simp [hw])) hsrc hsnk
  exact hv (this ▸ hw)

theorem Star.spokes_snoc (hs : Star g done h) (hx : g.Spoke v x) (hk : k.treeArcs.Perm (h.treeArcs ++ [x])) :
    ∃ l, k.treeArcs.Perm l ∧ List.Forall₂ (Spoke g) (done ++ [v]) l := by
  obtain ⟨l, hperm, hl⟩ := hs.spokes
  exact ⟨l ++ [x], hk.trans (hperm.append_right _), List.rel_append hl (.cons hx .nil)⟩

/-- A real arc that is found becomes a spoke. -/
theorem Star.found (hs : Star g done h) (hx : g.Spoke v x) {a : ArcId} {y : Arc F}
    (hy : h.arcs[a.index]? = some y) (ht : y.inTree = false) (hxy : x = { y with flow := x.flow, inTree := true })
    (e : h.modifyArc a ({ · with flow := x.flow, inTree := true }) = .ok k) : Star g (done ++ [v]) k := by
  have hframe : k.frame = h.frame := frame_modifyArc e fun _ => rfl
  have hperm : k.treeArcs.Perm (h.treeArcs ++ [x]) := by
    rw [hxy]
    exact treeArcs_enter e hy ht rfl
  have hat : ∀ {i : Nat} {z : Arc F}, k.arcs[i]? = some z → ∃ z', h.arcs[i]? = some z' ∧ z.cost = z'.cost ∧
      z.kind = z'.kind ∧ (z.inTree = false → z = z') := by
    intro i z hz
    rw [getElem?_modifyArc e] at hz
    split at hz
    · obtain ⟨z', hz', rfl⟩ := Option.map_eq_some_iff.1 hz
      exact ⟨z', hz', rfl, rfl, fun h => (by cases h)⟩
    · exact ⟨z, hz, rfl, rfl, fun _ => rfl⟩
  refine ⟨hs.wellFormed.of_frame hframe, (vertices_modifyArc e).trans hs.vertices,
    (base_of_frame hframe).trans hs.base, hs.spokes_snoc hx hperm, ?_, ?_, ?_⟩
  · intro i z hz hk
    obtain ⟨z', hz', hc, hk', -⟩ := hat hz
    exact hc.trans (hs.real hz' (hk'.symm.trans hk))
  · intro i z hz hk
    obtain ⟨z', hz', hc, hk', -⟩ := hat hz
    exact hc.trans (hs.artificial hz' (hk'.symm.trans hk))
  · intro i z hz hk
    obtain ⟨z', hz', -, -, he⟩ := hat hz
    obtain rfl := he hk
    exact hs.idle hz' hk

/-- An artificial arc is added as a spoke. -/
theorem Star.added (hs : Star g done h) (hx : g.Spoke v x) (hlt : v.index < g.numVertices) (hhub : v ≠ g.hub)
    (hid : x.id = ⟨h.numArcs⟩) (hk : x.kind = .artificial) (hc : x.cost = Amount.one) (ht : x.inTree = true) :
    Star g (done ++ [v]) { h with arcs := h.arcs.push x } := by
  have hhublt : g.hub.index < g.numVertices := Nat.div_lt_self (by omega) (by omega)
  have hends : x.src.index < h.numVertices ∧ x.snk.index < h.numVertices ∧ x.src ≠ x.snk := by
    rw [show h.numVertices = g.numVertices by simp only [numVertices, hs.vertices]]
    rcases hx.joins with ⟨hsrc, hsnk⟩ | ⟨hsrc, hsnk⟩
    · rw [hsrc, hsnk]; exact ⟨hlt, hhublt, hhub⟩
    · rw [hsrc, hsnk]; exact ⟨hhublt, hlt, hhub.symm⟩
  refine ⟨hs.wellFormed.push hid hends.1 hends.2.1 hends.2.2 hk, hs.vertices, (base_push hk).trans hs.base,
    hs.spokes_snoc hx (by rw [treeArcs_push ht]), ?_, ?_, ?_⟩
  -- What is claimed of the arcs holds of the new one and, by the star so far, of all others.
  all_goals
    intro i z hz
    rw [getElem?_push] at hz
    split at hz
  · cases hz; intro hr; rw [hk] at hr; cases hr
  · exact hs.real hz
  · cases hz; exact fun _ => hc
  · exact hs.artificial hz
  · cases hz; intro hr; rw [ht] at hr; cases hr
  · exact hs.idle hz

theorem Star.joined (hs : Star g done h) (hv : v ∉ done) (hhub : ∀ u ∈ v :: done, u ≠ g.hub)
    (hlt : v.index < g.numVertices) (hx : g.Spoke v x) (hj : h.Joined x k) : Star g (done ++ [v]) k := by
  cases hj with
  | @found a y k hy hk he e =>
    -- A real arc already in the tree would be the spoke of another vertex with the same ends.
    have ht : y.inTree = false := by
      by_contra ht
      have hy : y ∈ h.treeArcs := mem_treeArcs_iff.2 ⟨mem_arcs_iff.2 ⟨_, hy⟩, by simpa using ht⟩
      exact hs.ne_of_spoke hv hhub hx hy ⟨by rw [he], by rw [he]⟩
    exact hs.found hx hy ht he e
  | added hid hk hc ht => exact hs.added hx hlt (hhub v (by simp)) hid hk hc ht

theorem Joined.numArcs_le (hj : h.Joined x k) : k.numArcs ≤ h.numArcs + 1 := by
  cases hj with
  | found _ _ _ e =>
    rw [(modifyArc_eq_ok_iff.1 e).2]
    simp [numArcs]
  | added => simp [numArcs]

/-- Each vertex joined makes the star larger by one arc at most. -/
theorem star_of_foldlM (hg : g.WellFormed) (hn : done.Nodup) (hdone : ∀ u ∈ done, u.index < g.numVertices ∧ u ≠ g.hub)
    (e : done.foldlM joinHub g.cleared = .ok h) :
    Star g done h ∧ h.numArcs ≤ g.cleared.numArcs + done.length := by
  refine Checked.foldlM_induction (fun done h => Star g done h ∧ h.numArcs ≤ g.cleared.numArcs + done.length) e
    ⟨star_cleared hg, le_refl _⟩ ?_
  rintro done v h k ⟨rest, rfl⟩ ⟨hs, hle⟩ e
  obtain ⟨x, hx, hj⟩ := spoke_of_joinHub hs.wellFormed.toNumbered e
  refine ⟨hs.joined ?_ ?_ (hdone v (by simp)).1 (hx.congr hs.vertices.symm) hj, ?_⟩
  -- Each vertex is joined once.
  · exact fun hv => (List.nodup_append.1 hn).2.2 v hv v (by simp) rfl
  · intro u hu
    refine (hdone u ?_).2
    rcases List.mem_cons.1 hu with rfl | hu <;> simp_all
  · have := hj.numArcs_le
    rw [List.length_append, List.length_singleton]
    omega

omit [Amount F] in
theorem of_mem_filter_hub (hv : v ∈ g.vertexIds.filter (· ≠ g.hub)) : v.index < g.numVertices ∧ v ≠ g.hub := by
  obtain ⟨hv, hne⟩ := List.mem_filter.1 hv
  exact ⟨mem_vertexIds_iff.1 hv, by simpa using hne⟩

theorem star_of_eq_ok (hg : g.WellFormed) (e : g.star = .ok h) : Star g (g.vertexIds.filter (· ≠ g.hub)) h := by
  have e : (g.vertexIds.filter (· ≠ g.hub)).foldlM joinHub g.cleared = .ok h := e
  exact (star_of_foldlM hg ((nodup_vertexIds g).filter _) (fun u => of_mem_filter_hub) e).1

/-! ## Faults -/

open Checked

variable {P : Fault → Prop}

/-- A vertex can be joined to the hub if its supply is an amount and an arc more has a number. -/
theorem faultsOnly_joinHub (hg : g.Numbered) (hv : v.index < g.numVertices) (hid : g.numArcs < idLimit)
    (hneg : ∀ w, g.vertices[v.index]? = some w → Amount.lt w.weight Amount.zero = true →
      FaultsOnly P (Amount.neg w.weight)) : FaultsOnly P (g.joinHub v) := by
  have hw := Array.getElem?_eq_getElem hv
  have hjoin : ∀ src snk flow, FaultsOnly P (g.join src snk flow) := by
    intro src snk flow
    unfold join
    cases ha : g.findArc? src snk with
    | none => exact .require_bind hid (.pure _)
    | some a =>
      obtain ⟨y, hy, rfl⟩ := Option.map_eq_some_iff.1 ha
      have hy := hg.getElem?_id (Array.mem_toList_iff.2 (Array.mem_of_find?_eq_some hy))
      exact .of_ok (modifyArc_eq_ok_iff.2 ⟨(Array.getElem?_eq_some_iff.1 hy).1, rfl⟩)
  rw [joinHub_eq]
  simp only [vertex_eq_ok_iff.2 hw, ok_bind]
  split
  · next hlt =>
    exact .bind (hneg _ hw hlt) fun _ _ => hjoin _ _ _
  · exact hjoin _ _ _

omit [Amount F] in
theorem length_filter_hub (g : Network F) : (g.vertexIds.filter (· ≠ g.hub)).length = g.numVertices - 1 := by
  rcases Nat.eq_zero_or_pos g.numVertices with hn | hn
  · simp [vertexIds, hn]
  · have hhub : g.hub ∈ g.vertexIds := mem_vertexIds_iff.2 (Nat.div_lt_self hn (by omega))
    have he : g.vertexIds.filter (· ≠ g.hub) = g.vertexIds.erase g.hub := by
      rw [(nodup_vertexIds g).erase_eq_filter]
      exact List.filter_congr fun v _ => Bool.eq_iff_iff.2 (by simp)
    rw [he, List.length_erase_of_mem hhub]
    simp [vertexIds]

theorem numArcs_cleared_le (g : Network F) : g.cleared.numArcs ≤ g.numArcs := by
  simpa [cleared, mapArcs, dropArtificialArcs, numArcs] using Array.size_filter_le

/-- The star can fault as the sign changes of supplies can, if there are numbers for an arc more for every vertex but
the hub. -/
theorem faultsOnly_star (hg : g.WellFormed) (hid : g.numArcs + (g.numVertices - 1) ≤ idLimit)
    (hneg : ∀ w ∈ g.vertices.toList, Amount.lt w.weight Amount.zero = true → FaultsOnly P (Amount.neg w.weight)) :
    FaultsOnly P g.star := by
  have hmem : ∀ u ∈ g.vertexIds.filter (· ≠ g.hub), u.index < g.numVertices ∧ u ≠ g.hub :=
    fun u => of_mem_filter_hub
  have hnd : (g.vertexIds.filter (· ≠ g.hub)).Nodup := (nodup_vertexIds g).filter _
  have hlen := length_filter_hub g
  have hcleared := g.numArcs_cleared_le
  unfold star
  refine .foldlM fun done v rest h hl e => ?_
  have hl : g.vertexIds.filter (· ≠ g.hub) = done ++ v :: rest := hl
  rw [hl] at hmem hnd hlen
  obtain ⟨hs, hle⟩ := star_of_foldlM hg (List.nodup_append.1 hnd).1 (fun u hu => hmem u (by simp [hu])) e
  rw [List.length_append, List.length_cons] at hlen
  refine faultsOnly_joinHub hs.wellFormed.toNumbered ?_ (by omega) fun w hw => ?_
  · rw [show h.numVertices = g.numVertices by simp only [numVertices, hs.vertices]]
    exact (hmem v (by simp)).1
  · rw [hs.vertices] at hw
    exact hneg w (Array.mem_toList_iff.2 (Array.mem_of_getElem? hw))

/-! ## The whole star -/

theorem Star.numVertices_eq (hs : Star g done h) : h.numVertices = g.numVertices := by
  simp only [numVertices, hs.vertices]

theorem Star.connected (hs : Star g done h) (hv : v ∈ done) : h.tree.Connected v g.hub := by
  obtain ⟨l, hperm, hl⟩ := hs.spokes
  obtain ⟨x, hx, hspoke⟩ := Checked.exists_of_forall₂ hl.flip hv
  have hx : x ∈ h.treeArcs := hperm.mem_iff.2 hx
  rcases hspoke.joins with ⟨hsrc, hsnk⟩ | ⟨hsrc, hsnk⟩
  · refine ArcSet.Leads.connected (s := ⟨x.id, true⟩) (hs.wellFormed.leads_tree.2 ⟨x, hx, rfl, ?_⟩)
    simp [hsrc, hsnk]
  · refine ArcSet.Leads.connected (s := ⟨x.id, false⟩) (hs.wellFormed.leads_tree.2 ⟨x, hx, rfl, ?_⟩)
    simp [hsrc, hsnk]

theorem Star.spans (hs : Star g (g.vertexIds.filter (· ≠ g.hub)) h) : h.tree.Spans h.numVertices := by
  have hhub : ∀ v : VertexId, v.index < h.numVertices → h.tree.Connected v g.hub := by
    intro v hv
    by_cases e : v = g.hub
    · rw [e]
    · refine hs.connected (List.mem_filter.2 ⟨mem_vertexIds_iff.2 ?_, by simpa using e⟩)
      rwa [← hs.numVertices_eq]
  exact fun u v hu hv => (hhub u hu).trans (hhub v hv).symm

theorem Star.numTreeArcs_eq (hs : Star g (g.vertexIds.filter (· ≠ g.hub)) h) :
    h.numTreeArcs = h.numVertices - 1 := by
  obtain ⟨l, hperm, hl⟩ := hs.spokes
  rw [numTreeArcs, hperm.length_eq, ← hl.length_eq, hs.numVertices_eq, length_filter_hub]

end Network

end Transportation
