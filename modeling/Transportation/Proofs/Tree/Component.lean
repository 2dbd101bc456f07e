import Transportation.Proofs.Amount
import Transportation.Proofs.Network.Base
import Transportation.Proofs.Tree.Potential
import Transportation.Proofs.Tree.Spanning
/-!
# Potentials of a component

Whatever the tree arcs are, potentials are computed for the component of the root and are zero elsewhere. If there is
no cycle in the component, they are the only ones by which its tree arcs cost nothing
(`computePotentials_of_ofNetwork`).
-/

namespace Transportation

open Checked

namespace Incidence

/-- Of the steps of arithmetic on the way, one may overflow. Nothing else goes wrong. -/
theorem overflow_computePotentials {F : Type} [Amount F] [LawfulAmount F] {g : Network F} {t : Incidence}
    (hg : g.Numbered) (ht : t.HoldsTree g) {root : VertexId} (hroot : g.numVertices ≠ 0 → root.index < g.numVertices) :
    FaultsOnly Fault.IsOverflow (t.computePotentials g root) := by
  refine faultsOnly_computePotentials hg ht hroot kept_size ?_ (by simp)
  refine guarded_extendPotential hg id fun {S x u v ps p} _ _ _ _ _ => ?_
  unfold Arc.potentialFrom
  split
  · exact LawfulAmount.add _ _
  · exact LawfulAmount.sub _ _

variable {max : Nat} {g h : Network (Signed max)} {t : Incidence} {root : VertexId} {all : Bool}

/-- Potentials that agree at the root and by which no tree arc of its component costs anything agree in the component. -/
theorem eq_of_reducedCost (hg : g.Numbered) {p q : VertexId → Int} (hroot : p root = q root)
    (hp : ∀ x ∈ g.treeArcs, g.tree.Connected root x.src → x.reducedCost p = 0)
    (hq : ∀ x ∈ g.treeArcs, g.tree.Connected root x.src → x.reducedCost q = 0) {v : VertexId}
    (hv : g.tree.Connected root v) : p v = q v := by
  refine (hv.induction (P := fun u => g.tree.Connected root u ∧ p u = q u) ⟨.refl _ _, hroot⟩ ?_).2
  rintro s u w hs ⟨hu, hpq⟩
  have hw := hu.trans hs.connected
  refine ⟨hw, ?_⟩
  obtain ⟨x, hx, -, he⟩ := hg.leads_tree.1 hs
  unfold Arc.reducedCost at hp hq
  cases hf : s.forward <;> simp only [hf, Bool.false_eq_true, if_true, if_false, Prod.mk.injEq] at he
  all_goals
    obtain ⟨rfl, rfl⟩ := he
  · have hxp := hp x hx hw
    have hxq := hq x hx hw
    omega
  · have hxp := hp x hx hu
    have hxq := hq x hx hu
    omega

variable [NeZero max]

/-- What the potentials of `h` are, computed from `root` for the network `g`. -/
structure PotentialsFrom (g : Network (Signed max)) (root : VertexId) (h : Network (Signed max)) (all : Bool) :
    Prop where
  all_iff : all = true ↔ ∀ v : VertexId, v.index < g.numVertices → g.tree.Connected root v
  unpriced_eq : h.unpriced = g.unpriced
  at_root : h.potential root = 0
  elsewhere : ∀ v : VertexId, v.index < g.numVertices → ¬ g.tree.Connected root v → h.potential v = 0
  reducedCost : g.tree.AcyclicFrom root → ∀ x ∈ g.treeArcs, g.tree.Connected root x.src →
    x.reducedCost h.potential = 0
  unique : g.tree.AcyclicFrom root → ∀ p : VertexId → Int, p root = 0 →
    (∀ x ∈ g.treeArcs, g.tree.Connected root x.src → x.reducedCost p = 0) →
    ∀ v, g.tree.Connected root v → p v = h.potential v

theorem potentialsFrom_of_computePotentials (hg : g.Numbered) (ht : t.HoldsTree g)
    (hroot : root.index < g.numVertices) (e : t.computePotentials g root = .ok (h, all)) :
    PotentialsFrom g root h all := by
  obtain ⟨ps, hps, rfl⟩ := computePotentials_eq_ok_iff.1 e
  have hcomputed := potentials_of_eq_ok hg ht (carries_tightens g) hroot hps
  obtain ⟨hzero, hall⟩ := result_of_potentials hg ht hroot kept_zero (fun v hv _ => by simp [hv]) hps
  have hat : ∀ {v : VertexId} {p : Signed max}, v.index < g.numVertices → ps[v.index]? = some p →
      (g.withPotentials ps).potential v = p.val := by
    intro v p hv hp
    rw [Network.potential_eq (Network.getElem?_withPotentials (Array.getElem?_eq_getElem hv) hp)]
  have hcost : g.tree.AcyclicFrom root → ∀ x ∈ g.treeArcs, g.tree.Connected root x.src →
      x.reducedCost (g.withPotentials ps).potential = 0 := by
    intro hacyclic x hx hsrc
    have hl : g.tree.Leads ⟨x.id, true⟩ x.src x.snk := hg.leads_of_mem hx
    obtain ⟨p, q, hp, hq, hR⟩ := hcomputed.related hg hx hsrc (hacyclic.not_connected_without hsrc hl)
    refine Arc.Tight.reducedCost_eq ?_
    rwa [Arc.Tight, hat (hg.within_tree hl) hp, hat (hg.within_tree hl.reverse) hq]
  have hanchor : (g.withPotentials ps).potential root = 0 := (hat hroot (hcomputed.at_root hroot)).trans Signed.zero_val
  exact {
    all_iff := hall
    unpriced_eq := Network.unpriced_withPotentials hcomputed.size
    at_root := hanchor
    elsewhere := by
      intro v hv hn
      exact (hat hv (hzero v hv hn)).trans Signed.zero_val
    reducedCost := hcost
    unique := by
      intro hacyclic p hp hpx v hv
      exact eq_of_reducedCost hg (hp.trans hanchor.symm) hpx (hcost hacyclic) hv }

/-- The lists of the tree arcs can be made and potentials be computed from any root, unless a step of arithmetic
overflows. -/
theorem computePotentials_of_ofNetwork (hg : g.Numbered) (hroot : root.index < g.numVertices) :
    ∃ t, ofNetwork g = .ok t ∧ FaultsOnly Fault.IsOverflow (t.computePotentials g root) ∧
      ∀ h all, t.computePotentials g root = .ok (h, all) → PotentialsFrom g root h all := by
  obtain ⟨t, ht⟩ := exists_ofNetwork hg
  have hholds := holdsTree_ofNetwork ht
  refine ⟨t, ht, ?_, ?_⟩
  · exact overflow_computePotentials hg hholds fun _ => hroot
  · intro h all e
    exact potentialsFrom_of_computePotentials hg hholds hroot e

theorem computePotentials_of_brook : (Network.brook [0, 1, 2, 3]).Numbered ∧
    (⟨0⟩ : VertexId).index < (Network.brook [0, 1, 2, 3]).numVertices ∧
    (Network.brook [0, 1, 2, 3]).tree.AcyclicFrom ⟨0⟩ ∧
    ∃ t h, ofNetwork (.brook [0, 1, 2, 3]) = .ok t ∧ t.computePotentials (.brook [0, 1, 2, 3]) ⟨0⟩ = .ok (h, true) ∧
      h.vertices.toList.map (·.potential.val) = [0, 1, -1, 2, 5] ∧
      PotentialsFrom (.brook [0, 1, 2, 3]) ⟨0⟩ h true := by
  have hg : (Network.brook [0, 1, 2, 3]).Numbered := by decide +kernel
  have hroot : (⟨0⟩ : VertexId).index < (Network.brook [0, 1, 2, 3]).numVertices := by decide +kernel
  have hrun : (ofNetwork (.brook [0, 1, 2, 3]) >>= fun t => t.computePotentials (.brook [0, 1, 2, 3]) ⟨0⟩).map
      (fun r => (r.1.vertices.toList.map (·.potential.val), r.2)) = .ok ([0, 1, -1, 2, 5], true) := by
    decide +kernel
  obtain ⟨t, ht, -, hresult⟩ := computePotentials_of_ofNetwork hg hroot
  rw [ht, ok_bind] at hrun
  cases he : t.computePotentials (.brook [0, 1, 2, 3]) ⟨0⟩ with
  | error e =>
    rw [he] at hrun
    cases hrun
  | ok r =>
    obtain ⟨h, all⟩ := r
    rw [he] at hrun
    obtain ⟨hps, rfl⟩ : h.vertices.toList.map (·.potential.val) = [0, 1, -1, 2, 5] ∧ all = true := by
      simpa [Except.map] using hrun
    exact ⟨hg, hroot, fun z c _ => ArcSet.forest_iff_acyclic.1 forest_brook z c, t, h, ht, he, hps,
      hresult h true he⟩

end Incidence

end Transportation
