import Transportation.Proofs.Simplex.Faults
import Transportation.Proofs.Tree.Component
/-!
# Operations fault by overflows only

In a sound solver no look-up fails, arcs enter and leave the tree as they should and nothing is divided by zero. So
whatever is asked of it, whatever its options are, an operation faults only if the number type does not hold a result.
-/

namespace Transportation

open Checked

variable {F : Type} [Amount F] [LawfulAmount F] {g h : Network F} {t : Incidence} {a : ArcId} {c : List Step}

namespace Network

theorem overflow_reducedCost? {phase : Phase} (hg : g.Numbered) (ha : a.index < g.numArcs) :
    FaultsOnly Fault.IsOverflow (g.reducedCost? phase a) :=
  faultsOnly_reducedCost? hg ha fun _ _ _ _ => ⟨LawfulAmount.add _ _, fun _ _ => LawfulAmount.sub _ _⟩

theorem overflow_blocking? {tolerance : F} (hc : ∀ s ∈ c, ∃ x, g.arcs[s.arc.index]? = some x) :
    FaultsOnly Fault.IsOverflow (g.blocking? tolerance c) :=
  faultsOnly_blocking? hc fun _ _ =>
    faultsOnly_beats (LawfulAmount.sub _ _) (LawfulAmount.sub _ _) fun _ _ => LawfulAmount.abs _

theorem overflow_push {delta : F} (hn : (c.map Step.arc).Nodup) (hc : ∀ s ∈ c, ∃ x, g.arcs[s.arc.index]? = some x) :
    FaultsOnly Fault.IsOverflow (g.push delta c) := by
  refine faultsOnly_push hn fun s hs => ?_
  obtain ⟨x, hx⟩ := hc s hs
  refine ⟨x, hx, ?_⟩
  split
  · exact LawfulAmount.add _ _
  · exact LawfulAmount.sub _ _

theorem overflow_isBalancedWithin (g : Network F) (tolerance : F) :
    FaultsOnly Fault.IsOverflow (g.isBalancedWithin tolerance) := by
  refine .bind (.foldlM fun _ _ _ _ _ _ => LawfulAmount.add _ _) fun total _ => ?_
  split
  · exact .bind (LawfulAmount.sub _ _) fun _ _ => .pure _
  · exact .pure _

theorem overflow_largestCost (g : Network F) : FaultsOnly Fault.IsOverflow g.largestCost :=
  .foldlM fun _ _ _ _ _ _ => .bind (LawfulAmount.abs _) fun _ _ => .pure _

/-- What the largest amount is divided by are counts of vertices. -/
theorem overflow_defaultArtificialCost (g : Network F) : FaultsOnly Fault.IsOverflow g.defaultArtificialCost := by
  have hn : Amount.Positive ((Amount.ofCount? (max g.numVertices 1)).getD (Amount.one : F)) := by
    cases h : Amount.ofCount? (F := F) (max g.numVertices 1) with
    | none => exact .one
    | some n => exact .count (by omega) h
  refine .bind (overflow_largestCost g) fun value _ => .bind (LawfulAmount.add _ _) fun n' hn' => ?_
  refine .bind (LawfulAmount.div _ _ (.succ hn hn')) fun cap _ => .bind (LawfulAmount.div _ _ hn) fun share _ => ?_
  split
  · exact .pure _
  · exact .bind (LawfulAmount.add _ _) fun _ _ => LawfulAmount.mul _ _

end Network

theorem SpanningTree.overflow_computePotentials (hs : SpanningTree t g) {root : VertexId}
    (hroot : g.numVertices ≠ 0 → root.index < g.numVertices) :
    FaultsOnly Fault.IsOverflow (t.computePotentials g root) :=
  Incidence.overflow_computePotentials hs.wellFormed.toNumbered hs.lists.holds hroot

namespace Simplex

open Network

variable {s : Simplex F}

theorem Sound.overflow_price (hs : Sound g s) : FaultsOnly Fault.IsOverflow s.price :=
  faultsOnly_price (LawfulAmount.neg _) fun _ ha => overflow_reducedCost? hs.wellFormed.toNumbered ha

theorem Sound.overflow_pivot (hs : Sound g s) : FaultsOnly Fault.IsOverflow (s.run Simplex.pivot) := by
  refine faultsOnly_pivot hs.tree (fun _ => hs.overflow_price) (fun hc => overflow_blocking? (hc.exists_arc hs.tree))
    (fun hc _ => ?_) fun {e t h c b h₁ t' h₂} hc hb hpush hl => ?_
  · obtain ⟨-, -, hn⟩ := ((hs.tree hc.phase).insert hc.insert).cycle hc.cycle
    exact overflow_push hn (hc.exists_arc hs.tree)
  · have htree := (hs.tree hc.phase).exchange hc.insert hc.cycle hb hpush hl
    exact htree.overflow_computePotentials
      (hs.root_lt hc.phase (numVertices_of_plan (plan_exchange hc.insert hpush hl)))

theorem Sound.overflow_optimize (hs : Sound g s) : FaultsOnly Fault.IsOverflow (s.run optimize) :=
  faultsOnly_optimize (I := Sound g) (fun _ => hs) (fun hs h => hs.pivot h) (fun hs => hs.overflow_price)
    fun hs => hs.overflow_pivot

theorem overflow_start (hg : g.WellFormed) (hin : s.input = g) (hid : g.numArcs + (g.numVertices - 1) ≤ idLimit) :
    FaultsOnly Fault.IsOverflow (s.run start) := by
  subst hin
  refine faultsOnly_start hg (overflow_isBalancedWithin _ _)
    (faultsOnly_star hg hid fun _ _ _ => LawfulAmount.neg _) fun hstar ht => ?_
  have hstar := star_of_eq_ok hg hstar
  exact (spanningTree_star hstar ht).overflow_computePotentials (firstSupplier_lt hstar.wellFormed.toNumbered)

theorem overflow_artificialCost (s : Simplex F) : FaultsOnly Fault.IsOverflow s.artificialCost := by
  unfold artificialCost
  split
  · exact .pure _
  · exact overflow_defaultArtificialCost _

theorem Sound.overflow_restoreCosts (hs : Sound g s) (hg : g.WellFormed) :
    FaultsOnly Fault.IsOverflow (s.run restoreCosts) := by
  refine faultsOnly_restoreCosts hg hs (fun _ => s.overflow_artificialCost) fun {c k} hphase _ hk => ?_
  have hframe := frame_restore hk
  have hn := numVertices_of_frame hframe
  have htree := (hs.tree hphase).congr (hs.wellFormed.of_frame hframe) hn (map_restore hk fun _ _ => rfl)
  exact htree.overflow_computePotentials (hs.root_lt hphase hn)

theorem overflow_checkStart (s : Simplex F) : FaultsOnly Fault.IsOverflow (s.run checkStart) :=
  faultsOnly_checkStart fun _ => .mapM fun _ _ => .bind (LawfulAmount.mul _ _) fun _ _ => .pure _

theorem overflow_solve (hg : g.WellFormed) (hin : s.input = g) (hid : g.numArcs + (g.numVertices - 1) ≤ idLimit) :
    FaultsOnly Fault.IsOverflow (s.run solve) := by
  have hs₁ : ∀ {s₁}, StartRun s.renewed (.ok ()) s₁ → Sound g s₁ := by
    intro s₁ h₁
    obtain ⟨h, -⟩ | ⟨-, -, hs⟩ := sound_of_start (s := s.renewed) hg hin h₁
    · cases h
    · exact hs
  have hs₂ : ∀ {s₁ s₂ k}, StartRun s.renewed (.ok ()) s₁ → OptimizeRun s₁ (.ok k) s₂ → Sound g s₂ :=
    fun h₁ h₂ => (stable_sound hg).optimize (hs₁ h₁) h₂
  refine faultsOnly_solve (overflow_start hg hin hid) (fun h₁ => (hs₁ h₁).overflow_optimize) (fun {s₁ s₂ k} h₁ h₂ => ?_)
    fun h₁ h₂ h₃ => ((hs₂ h₁ h₂).restore h₃).overflow_optimize
  exact ⟨s₂.overflow_checkStart, (hs₂ h₁ h₂).overflow_restoreCosts hg⟩

end Simplex

end Transportation
