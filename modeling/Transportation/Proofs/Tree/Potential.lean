import Mathlib.Data.Int.Basic
import Transportation.Amount.Signed
import Transportation.Proofs.Tree.Search
import Transportation.Tree.Potential
/-!
# Potentials of a tree

The potentials computed from a tree are zero at the root, and along every tree arc that lies on no cycle they are
related as each step along it relates them (`Potentials.related`). Every vertex found has a path from the root along
such arcs, so that an arc along which they were not related would close a cycle. In exact arithmetic the potential
grows by the cost of the arc (`Arc.Tight`).
-/

namespace Transportation

namespace Incidence

section
variable {F : Type} [Amount F] {g h : Network F} {t : Incidence} {root : VertexId} {ps : Array F} {all : Bool}

/-- What every discovery keeps holds of the potentials, which tell whether the tree connects all vertices. -/
theorem result_of_potentials {I : (VertexId → Prop) → Array F → Prop} (hg : g.Numbered) (ht : t.HoldsTree g)
    (hroot : root.index < g.numVertices) (hI : Search.Kept g extendPotential I)
    (h0 : I (· = root) (Array.replicate g.numVertices Amount.zero)) (h : t.potentials g root = .ok (ps, all)) :
    I (g.tree.Connected root) ps ∧
      (all = true ↔ ∀ v : VertexId, v.index < g.numVertices → g.tree.Connected root v) := by
  unfold potentials at h
  simp only [show g.numVertices ≠ 0 by omega, if_false, Checked.bind_eq_ok_iff, Checked.pure_eq_ok_iff,
    Prod.mk.injEq] at h
  obtain ⟨s, hs, rfl, rfl⟩ := h
  have hf := Search.found_of_run hg ht hI hroot h0 hs
  exact ⟨hf.result, by rw [decide_eq_true_iff]; exact hf.reached_eq_iff⟩

theorem potentials_of_empty (hn : g.numVertices = 0) (h : t.potentials g root = .ok (ps, all)) :
    ps = #[] ∧ all = true := by
  unfold potentials at h
  simp only [hn, if_true, Checked.pure_eq_ok_iff, Prod.mk.injEq, Array.replicate_zero] at h
  exact ⟨h.1.symm, h.2.symm⟩

/-- Giving a vertex its potential keeps the size. -/
theorem kept_size : Search.Kept g extendPotential fun _ (ps : Array F) => ps.size = g.numVertices := by
  intro S x u v ps ps' _ _ _ _ hps h
  simp only [extendPotential, Checked.bind_eq_ok_iff, Checked.modify_eq_ok_iff] at h
  obtain ⟨_, _, _, _, _, rfl⟩ := h
  simpa using hps

/-- Only what is found is given a potential. -/
theorem kept_zero : Search.Kept g extendPotential fun S (ps : Array F) =>
    ∀ v : VertexId, v.index < g.numVertices → ¬ S v → ps[v.index]? = some Amount.zero := by
  intro S x u v ps ps' _ _ _ _ hps h w hw hn
  simp only [extendPotential, Checked.bind_eq_ok_iff, Checked.modify_eq_ok_iff] at h
  obtain ⟨_, _, _, _, _, rfl⟩ := h
  obtain ⟨hn, hwv⟩ := not_or.1 hn
  rw [Array.getElem?_modify, if_neg fun h => hwv (VertexId.ext h.symm)]
  exact hps w hw hn

theorem size_potentials (hg : g.Numbered) (ht : t.HoldsTree g) (hroot : g.numVertices ≠ 0 → root.index < g.numVertices)
    (h : t.potentials g root = .ok (ps, all)) : ps.size = g.numVertices := by
  by_cases hn : g.numVertices = 0
  · rw [(potentials_of_empty hn h).1, hn]; rfl
  · exact (result_of_potentials hg ht (hroot hn) kept_size (by simp) h).1

/-- If the tree spans the network, the potentials of all vertices are found. -/
theorem all_of_spans (hg : g.Numbered) (ht : t.HoldsTree g) (hroot : g.numVertices ≠ 0 → root.index < g.numVertices)
    (hs : g.tree.Spans g.numVertices) (h : t.potentials g root = .ok (ps, all)) : all = true := by
  by_cases hn : g.numVertices = 0
  · exact (potentials_of_empty hn h).2
  · refine (result_of_potentials (I := fun _ _ => True) hg ht (hroot hn) ?_ trivial h).2.2 fun v hv => ?_
    · exact fun _ _ _ _ _ _ => trivial
    · exact hs root v (hroot hn) hv

theorem computePotentials_eq_ok_iff :
    t.computePotentials g root = .ok (h, all) ↔
      ∃ ps, t.potentials g root = .ok (ps, all) ∧ h = g.withPotentials ps := by
  simp only [computePotentials, Checked.bind_eq_ok_iff, Checked.pure_eq_ok_iff, Prod.mk.injEq]
  constructor
  · rintro ⟨⟨ps, b⟩, hps, rfl, rfl⟩; exact ⟨ps, hps, rfl⟩
  · rintro ⟨ps, hps, rfl⟩; exact ⟨(ps, all), hps, rfl, rfl⟩

/-! ## Faults -/

variable {P : Fault → Prop} {I : (VertexId → Prop) → Array F → Prop}

/-- A discovery can fault as the step of arithmetic in it can. -/
theorem guarded_extendPotential (hg : g.Numbered) (hsize : ∀ {S ps}, I S ps → ps.size = g.numVertices)
    (hP : ∀ {S : VertexId → Prop} {x : Arc F} {u v : VertexId} {ps : Array F} {p : F}, x ∈ g.treeArcs →
      g.tree.Leads ⟨x.id, x.src = u⟩ u v → S u → I S ps → ps[u.index]? = some p →
      Checked.FaultsOnly P (x.potentialFrom u p)) : Search.Guarded P g extendPotential I := by
  intro S x u v ps hx hl hu _ hps
  have hlt : u.index < ps.size := by rw [hsize hps]; exact hg.within_tree hl
  have hlt' : v.index < ps.size := by rw [hsize hps]; exact hg.within_tree hl.reverse
  have htree : x ∈ g.treeArcs := by
    obtain ⟨y, hy, hid, -⟩ := hg.leads_tree.1 hl
    rwa [hg.eq_of_id_eq (Network.mem_treeArcs_iff.1 hy).1 (Network.mem_arcs_iff.2 ⟨_, hx⟩) hid] at hy
  refine .bind (.get hlt) fun p hp => .bind (hP htree hl hu hps (Checked.get_eq_ok_iff.1 hp)) fun q _ => ?_
  exact .modify hlt'

theorem faultsOnly_computePotentials (hg : g.Numbered) (ht : t.HoldsTree g)
    (hroot : g.numVertices ≠ 0 → root.index < g.numVertices) (hI : Search.Kept g extendPotential I)
    (hP : Search.Guarded P g extendPotential I) (h0 : I (· = root) (Array.replicate g.numVertices Amount.zero)) :
    Checked.FaultsOnly P (t.computePotentials g root) := by
  refine .bind ?_ fun _ _ => .pure _
  unfold potentials
  by_cases hn : g.numVertices = 0
  · simp only [hn, if_true]
    exact .pure _
  · simp only [hn, if_false]
    have hrun : Checked.FaultsOnly P
        (Search.run extendPotential g t root (Array.replicate g.numVertices Amount.zero)) :=
      Search.faultsOnly_run hg ht @hI @hP (hroot hn) h0
    exact .bind hrun fun _ _ => .pure _

/-! ## Along the tree arcs -/

variable {R : Arc F → F → F → Prop} {Good : F → Prop} {u v : VertexId} {x : Arc F}

/-- The potentials at the source and the sink of `x` are related. -/
def Related (R : Arc F → F → F → Prop) (ps : Array F) (x : Arc F) : Prop :=
  ∃ p q, ps[x.src.index]? = some p ∧ ps[x.snk.index]? = some q ∧ R x p q

/-- The tree arcs between vertices of `S` whose potentials are related. -/
noncomputable def relatedTree (R : Arc F → F → F → Prop) (g : Network F) (S : VertexId → Prop) (ps : Array F) :
    ArcSet :=
  open Classical in
  ⟨fun a => if ∃ x ∈ g.treeArcs, x.id = a ∧ S x.src ∧ S x.snk ∧ Related R ps x then g.tree.ends a else none⟩

omit [Amount F] in
theorem leads_relatedTree {S : VertexId → Prop} {s : Step} : (relatedTree R g S ps).Leads s u v ↔
    g.tree.Leads s u v ∧ ∃ x ∈ g.treeArcs, x.id = s.arc ∧ S x.src ∧ S x.snk ∧ Related R ps x := by
  unfold ArcSet.Leads relatedTree
  by_cases h : ∃ x ∈ g.treeArcs, x.id = s.arc ∧ S x.src ∧ S x.snk ∧ Related R ps x <;> simp [h]

omit [Amount F] in
/-- Potentials stay related while more vertices are found, if the potentials found so far stay. -/
theorem relatedTree_sub {S S' : VertexId → Prop} {ps' : Array F} (hS : ∀ {w}, S w → S' w)
    (hp : ∀ {w : VertexId}, S w → ps'[w.index]? = ps[w.index]?) :
    (relatedTree R g S ps).Sub (relatedTree R g S' ps') := by
  intro a q h
  unfold relatedTree at h ⊢
  simp only [ite_eq_iff, reduceCtorEq, and_false, or_false] at h ⊢
  obtain ⟨⟨y, hy, hya, hsrc, hsnk, ht⟩, h⟩ := h
  refine ⟨⟨y, hy, hya, hS hsrc, hS hsnk, ?_⟩, h⟩
  unfold Related
  rw [hp hsrc, hp hsnk]
  exact ht

/-- What is computed along a tree arc from a good potential is good, and the two are related. -/
structure Carries (R : Arc F → F → F → Prop) (Good : F → Prop) (g : Network F) : Prop where
  zero : Good Amount.zero
  forward : ∀ {x p q}, x ∈ g.treeArcs → Good p → Amount.add p x.cost = .ok q → Good q ∧ R x p q
  backward : ∀ {x p q}, x ∈ g.treeArcs → Good q → Amount.sub q x.cost = .ok p → Good p ∧ R x p q

/-- What is known of the potentials while the vertices `S` have been found. -/
structure Potentials (R : Arc F → F → F → Prop) (Good : F → Prop) (g : Network F) (root : VertexId)
    (S : VertexId → Prop) (ps : Array F) : Prop where
  size : ps.size = g.numVertices
  found : S root
  at_root : root.index < g.numVertices → ps[root.index]? = some Amount.zero
  good : ∀ v p, S v → ps[v.index]? = some p → Good p
  connected : ∀ v, S v → (relatedTree R g S ps).Connected root v

/-- Along a tree arc that closes no cycle the potentials are related. -/
theorem Potentials.related (hg : g.Numbered) (h : Potentials R Good g root (g.tree.Connected root) ps)
    (hx : x ∈ g.treeArcs) (hroot : g.tree.Connected root x.src)
    (hcut : ¬ (g.tree.without x.id).Connected x.src x.snk) : Related R ps x := by
  by_contra ht
  have hl : g.tree.Leads ⟨x.id, true⟩ x.src x.snk := hg.leads_of_mem hx
  have hsub : (relatedTree R g (g.tree.Connected root) ps).Sub (g.tree.without x.id) := by
    intro a p h
    unfold relatedTree at h
    simp only [ite_eq_iff, reduceCtorEq, and_false, or_false] at h
    obtain ⟨⟨y, hy, rfl, -, -, hyt⟩, h⟩ := h
    have hne : y.id ≠ x.id := by
      intro e
      have := hg.eq_of_id_eq (Network.mem_treeArcs_iff.1 hy).1 (Network.mem_treeArcs_iff.1 hx).1 e
      exact ht (this ▸ hyt)
    simpa [ArcSet.without, hne] using h
  exact hcut (((h.connected _ hroot).sub hsub).symm.trans
    ((h.connected _ (hroot.trans hl.connected)).sub hsub))

theorem potentials_start (hc : Carries R Good g) :
    Potentials R Good g root (· = root) (Array.replicate g.numVertices Amount.zero) := by
  refine ⟨by simp, rfl, fun h => by simp [h], fun v p _ hp => ?_, fun v h => h ▸ .refl _ _⟩
  rw [Array.getElem?_replicate] at hp
  split at hp <;> cases hp
  exact hc.zero

theorem potentials_kept (hg : g.Numbered) (hc : Carries R Good g) :
    Search.Kept g extendPotential (Potentials R Good g root) := by
  intro S x u v ps ps' hx hl hu hv hps h
  simp only [extendPotential, Checked.bind_eq_ok_iff, Checked.get_eq_ok_iff, Checked.modify_eq_ok_iff] at h
  obtain ⟨p, hp, q, hq, hlt, rfl⟩ := h
  have hat : ∀ w : VertexId, (ps.modify v.index fun _ => q)[w.index]? = if w = v then some q else ps[w.index]? := by
    intro w
    rw [Array.getElem?_modify]
    by_cases h : v.index = w.index
    · obtain rfl := VertexId.ext h
      simp [hlt]
    · rw [if_neg h, if_neg fun e : w = v => h (e ▸ rfl)]
  have hold : ∀ {w}, S w → (ps.modify v.index fun _ => q)[w.index]? = ps[w.index]? := by
    intro w hw
    rw [hat, if_neg]
    rintro rfl
    exact hv hw
  have hsub : (relatedTree R g S ps).Sub (relatedTree R g (fun w => S w ∨ w = v) (ps.modify v.index fun _ => q)) :=
    relatedTree_sub .inl hold
  have hxt : x ∈ g.treeArcs := by
    obtain ⟨y, hy, hyx, -⟩ := hg.leads_tree.1 hl
    rwa [hg.eq_of_id_eq (Network.mem_treeArcs_iff.1 hy).1 (Network.mem_arcs_iff.2 ⟨_, hx⟩) hyx] at hy
  obtain ⟨y, hy, hyx, hends⟩ := hg.leads_tree.1 hl
  obtain rfl := hg.eq_of_id_eq (Network.mem_treeArcs_iff.1 hy).1 (Network.mem_treeArcs_iff.1 hxt).1 hyx
  have hgood := hps.good u p hu hp
  -- The new vertex is reached by the arc that led to it, along which its potential is computed.
  have hnew : Good q ∧ (S y.src ∨ y.src = v) ∧ (S y.snk ∨ y.snk = v) ∧
      Related R (ps.modify v.index fun _ => q) y := by
    unfold Arc.potentialFrom at hq
    by_cases hyu : y.src = u
    · simp only [hyu, decide_true, if_true, Prod.mk.injEq, true_and] at hends
      rw [if_pos hyu] at hq
      obtain ⟨hq, hR⟩ := hc.forward hxt hgood hq
      refine ⟨hq, .inl (hyu ▸ hu), .inr hends, p, q, ?_, ?_, hR⟩
      · rw [hyu, hold hu, hp]
      · rw [hends, hat, if_pos rfl]
    · simp only [hyu, decide_false, Bool.false_eq_true, if_false, Prod.mk.injEq] at hends
      rw [if_neg hyu] at hq
      obtain ⟨hq, hR⟩ := hc.backward hxt hgood hq
      refine ⟨hq, .inr hends.1, .inl (hends.2 ▸ hu), q, p, ?_, ?_, hR⟩
      · rw [hends.1, hat, if_pos rfl]
      · rw [hends.2, hold hu, hp]
  obtain ⟨hgood', hsrc, hsnk, hrel⟩ := hnew
  refine ⟨by simp [hps.size], .inl hps.found, fun h => (hold hps.found).trans (hps.at_root h), fun w r hw hr => ?_,
    fun w hw => ?_⟩
  · rw [hat] at hr
    split at hr
    · cases hr
      exact hgood'
    · next hne => exact hps.good w r (hw.resolve_right hne) hr
  · rcases hw with hw | rfl
    · exact (hps.connected w hw).sub hsub
    · exact ((hps.connected u hu).sub hsub).trans
        (ArcSet.Leads.connected (leads_relatedTree.2 ⟨hl, y, hy, rfl, hsrc, hsnk, hrel⟩))

/-- The potentials computed. -/
theorem potentials_of_eq_ok (hg : g.Numbered) (ht : t.HoldsTree g) (hc : Carries R Good g)
    (hroot : root.index < g.numVertices) (h : t.potentials g root = .ok (ps, all)) :
    Potentials R Good g root (g.tree.Connected root) ps :=
  (result_of_potentials hg ht hroot (potentials_kept hg hc) (potentials_start hc) h).1

end

end Incidence

/-! ## Bounded integers -/

variable {max : Nat}

namespace Network

variable {g : Network (Signed max)} {v : VertexId}

def potential (g : Network (Signed max)) (v : VertexId) : Int :=
  (g.vertices[v.index]?.map fun w => w.potential.val).getD 0

theorem potential_eq {w : Vertex (Signed max)} (hw : g.vertices[v.index]? = some w) :
    g.potential v = w.potential.val := by
  simp [potential, hw]

end Network

/-- The potential at `v` of potentials by position. -/
def potentialAt (ps : Array (Signed max)) (v : VertexId) : Int :=
  (ps[v.index]?.map Signed.val).getD 0

theorem potentialAt_eq {ps : Array (Signed max)} {v : VertexId} {p : Signed max} (h : ps[v.index]? = some p) :
    potentialAt ps v = p.val := by
  simp [potentialAt, h]

/-- Along the arc the potential grows by its cost. -/
def Arc.Tight (x : Arc (Signed max)) (p : VertexId → Int) : Prop :=
  p x.snk = p x.src + x.cost.val

/-- What a unit on the arc costs when the potentials are prices at its ends. -/
def Arc.reducedCost (x : Arc (Signed max)) (p : VertexId → Int) : Int :=
  x.cost.val + p x.src - p x.snk

theorem Arc.Tight.reducedCost_eq {x : Arc (Signed max)} {p : VertexId → Int} (h : x.Tight p) : x.reducedCost p = 0 := by
  unfold Arc.Tight at h
  unfold Arc.reducedCost
  omega

/-- Along the arc the potential grows by its cost, for the potentials at its source and its sink. -/
def Arc.Tightens (x : Arc (Signed max)) (p q : Signed max) : Prop :=
  q.val = p.val + x.cost.val

theorem tight_of_related {ps : Array (Signed max)} {x : Arc (Signed max)}
    (h : Incidence.Related Arc.Tightens ps x) : x.Tight (potentialAt ps) := by
  obtain ⟨p, q, hp, hq, h⟩ := h
  rwa [Arc.Tight, potentialAt_eq hp, potentialAt_eq hq]

theorem carries_tightens [NeZero max] (g : Network (Signed max)) :
    Incidence.Carries Arc.Tightens (fun _ => True) g where
  zero := trivial
  forward _ _ h := ⟨trivial, Signed.add_eq_ok_iff.1 h⟩
  backward _ _ h := by
    have h := Signed.sub_eq_ok_iff.1 h
    refine ⟨trivial, ?_⟩
    unfold Arc.Tightens
    omega

end Transportation
