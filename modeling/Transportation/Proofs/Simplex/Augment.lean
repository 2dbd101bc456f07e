import Transportation.Proofs.Simplex.Demand
import Transportation.Proofs.Simplex.Optimal
/-!
# Pushing stays within the demand

When the cycle is cut at an arc walked forward and at one walked backward, the tree falls into two parts. Both arcs
lead into the same part and no other arc that carries flow leads from one part to the other. So the two carry together
what the vertices of that part need (`Unicyclic.flow_add_le`), and the sum is no more than the total demand.
-/

namespace Transportation

open Network

section
variable {F : Type} {t : Incidence} {g : Network F} {a b : ArcId} {c : List Step} {u v w : VertexId}

/-- Without an arc of the cycle the other arcs form a forest. -/
theorem Unicyclic.forest_without (hs : Unicyclic t g a) (hw : g.tree.Walk u c u) (hn : (c.map Step.arc).Nodup)
    (hb : b ∈ c.map Step.arc) : (g.tree.without b).Forest := by
  have hg := hs.wellFormed.toNumbered
  obtain ⟨x, hx, ht⟩ := hg.exists_of_walk hw hb
  obtain ⟨t', h, hl⟩ := hs.lists.exists_remove hg hx ht
  obtain ⟨-, -, -, -, hm⟩ := Incidence.remove_eq_ok_iff.1 hl
  have htree := hs.remove hl (hs.spans_without hw hn hb)
  rw [← tree_leave hg hm]
  exact @SpanningTree.forest _ _ _ htree

/-- The rest of a closed walk leads back from where a step of it ends. -/
theorem ArcSet.Walk.around {T : ArcSet} {s : Step} (hw : T.Walk u c u) (hn : (c.map Step.arc).Nodup) (hs : s ∈ c)
    (hl : T.Leads s v w) : ∃ d, T.Walk w d v ∧ (d.map Step.arc).Nodup ∧ s.arc ∉ d.map Step.arc ∧
      ∀ s' ∈ c, s'.arc ≠ s.arc → s' ∈ d := by
  obtain ⟨p, s', q, x, y, rfl, hs', -, hp, hl', hq⟩ := hw.split (List.mem_map_of_mem hs)
  obtain rfl : s' = s := List.inj_on_of_nodup_map hn (by simp) hs hs'
  obtain ⟨rfl, rfl⟩ := hl.unique hl'
  have hperm : (p ++ s' :: q).Perm (s' :: (q ++ p)) :=
    List.perm_middle.trans ((List.perm_append_comm).cons s')
  have hn := (hperm.map Step.arc).nodup_iff.1 hn
  rw [List.map_cons, List.nodup_cons] at hn
  refine ⟨q ++ p, ArcSet.walk_append.2 ⟨u, hq, hp⟩, hn.2, hn.1, fun z hz hne => ?_⟩
  rcases List.mem_cons.1 (hperm.mem_iff.1 hz) with rfl | hz
  · exact absurd rfl hne
  · exact hz

/-- The part of the vertices that both the arc `x`, walked forward, and the arc `y`, walked backward, lead into. No other
tree arc leads into it or out of it. -/
theorem Unicyclic.exists_part (hs : Unicyclic t g a) (hw : g.tree.Walk u c u) (hn : (c.map Step.arc).Nodup)
    {x y : Arc F} (hx : x ∈ g.treeArcs) (hxc : ⟨x.id, true⟩ ∈ c) (hy : y ∈ g.treeArcs) (hyc : ⟨y.id, false⟩ ∈ c) :
    x ≠ y ∧ ∃ S : VertexId → Prop, S x.snk ∧ ¬ S x.src ∧ S y.snk ∧ ¬ S y.src ∧
      ∀ z ∈ g.treeArcs, z ≠ x → z ≠ y → (S z.snk ↔ S z.src) := by
  have hg := hs.wellFormed.toNumbered
  have hid : ∀ {z z' : Arc F}, z ∈ g.treeArcs → z' ∈ g.treeArcs → z ≠ z' → z.id ≠ z'.id := fun hz hz' hne h =>
    hne (hg.eq_of_id_eq (mem_treeArcs_iff.1 hz).1 (mem_treeArcs_iff.1 hz').1 h)
  have hne : y.id ≠ x.id := by
    intro h
    have := List.inj_on_of_nodup_map hn hyc hxc h
    simp at this
  -- The rest of the cycle leads from the sink of `x` to the sink of `y`, and from the source of `y` to that of `x`.
  obtain ⟨d, hd, hdn, hdx, hmem⟩ := hw.around hn hxc (hg.leads_of_mem hx)
  obtain ⟨p, s, q, v, w, rfl, hsy, -, hp, hl, hq⟩ := hd.split (List.mem_map_of_mem (hmem _ hyc hne))
  obtain rfl : s = ⟨y.id, false⟩ := List.inj_on_of_nodup_map hdn (by simp) (hmem _ hyc hne) hsy
  obtain ⟨rfl, rfl⟩ := (hg.leads_of_mem hy).reverse.unique hl
  rw [List.map_append, List.map_cons, List.nodup_append, List.nodup_cons] at hdn
  rw [List.map_append, List.map_cons, List.mem_append, List.mem_cons, not_or, not_or] at hdx
  have hyp : y.id ∉ p.map Step.arc := fun h => hdn.2.2 _ h _ List.mem_cons_self rfl
  let U := (g.tree.without y.id).without x.id
  have hsnk : U.Connected x.snk y.snk :=
    ⟨p, ArcSet.walk_without_iff.2 ⟨ArcSet.walk_without_iff.2 ⟨hp, hyp⟩, hdx.1⟩⟩
  have hsrc : U.Connected y.src x.src :=
    ⟨q, ArcSet.walk_without_iff.2 ⟨ArcSet.walk_without_iff.2 ⟨hq, hdn.2.1.1⟩, hdx.2.2⟩⟩
  have hcut : ¬ U.Connected x.snk x.src := fun h =>
    hs.forest_without hw hn (List.mem_map_of_mem hyc) (ArcSet.leads_without_iff.2 ⟨hg.leads_of_mem hx, hne.symm⟩) h.symm
  refine ⟨fun h => hne (h ▸ rfl), U.Connected x.snk, .refl _ _, hcut, hsnk, fun h => hcut (h.trans hsrc),
    fun z hz hzx hzy => ?_⟩
  have hzl : U.Leads ⟨z.id, true⟩ z.src z.snk :=
    ArcSet.leads_without_iff.2 ⟨ArcSet.leads_without_iff.2 ⟨hg.leads_of_mem hz, hid hz hy hzy⟩, hid hz hx hzx⟩
  exact ⟨fun h => h.trans hzl.connected.symm, fun h => h.trans hzl.connected⟩

end

/-- Two elements of a list add no more than the whole. -/
theorem add_le_sum_map {α : Type} {l : List α} {f : α → Int} {x y : α} (hf : ∀ z ∈ l, 0 ≤ f z) (hx : x ∈ l)
    (hy : y ∈ l) (hne : x ≠ y) : f x + f y ≤ (l.map f).sum := by
  obtain ⟨p, q, rfl⟩ := List.append_of_mem hx
  have hy : y ∈ p ++ q := by
    rcases List.mem_append.1 hy with h | h
    · exact List.mem_append_left _ h
    · exact List.mem_append_right _ ((List.mem_cons.1 h).resolve_left (Ne.symm hne))
  have hle : f y ≤ ((p ++ q).map f).sum := by
    refine List.single_le_sum (fun d hd => ?_) _ (List.mem_map_of_mem hy)
    obtain ⟨z, hz, rfl⟩ := List.mem_map.1 hd
    refine hf z ?_
    rcases List.mem_append.1 hz with h | h <;> simp [h]
  rw [(List.perm_middle.map f).sum_eq, List.map_cons, List.sum_cons]
  omega

variable {max : Nat} {g k : Network (Signed max)} {t : Incidence} {a : ArcId} {c : List Step} {u : VertexId}
  {x y : Arc (Signed max)}

/-- Arcs that lead into a part of the vertices carry together what the part needs, if no other arc leads into it or out
of it. -/
theorem Network.BasicFlow.flow_add_le (hf : BasicFlow g k) (hg : k.Numbered) (hn : k.numVertices = g.numVertices)
    (hx : x ∈ k.arcs.toList) (hy : y ∈ k.arcs.toList) (hne : x ≠ y) {S : VertexId → Prop} (hxsnk : S x.snk)
    (hxsrc : ¬ S x.src) (hysnk : S y.snk) (hysrc : ¬ S y.src)
    (hother : ∀ z ∈ k.treeArcs, z ≠ x → z ≠ y → (S z.snk ↔ S z.src)) :
    x.flow.val + y.flow.val ≤ g.totalDemand := by
  classical
  let side : VertexId → Int := fun v => if S v then 1 else 0
  have hgainx : (side x.snk - side x.src) * x.flow.val = x.flow.val := by simp [side, hxsnk, hxsrc]
  have hgainy : (side y.snk - side y.src) * y.flow.val = y.flow.val := by simp [side, hysnk, hysrc]
  have hnonneg : ∀ z ∈ k.arcs.toList, 0 ≤ (side z.snk - side z.src) * z.flow.val := by
    intro z hz
    obtain ⟨i, hi⟩ := mem_arcs_iff.1 hz
    by_cases hzx : z = x
    · rw [hzx, hgainx]
      exact hf.nonneg (hzx ▸ hi)
    by_cases hzy : z = y
    · rw [hzy, hgainy]
      exact hf.nonneg (hzy ▸ hi)
    cases ht : z.inTree with
    | false => rw [hf.idle hi ht, mul_zero]
    | true =>
      have hsame : side z.snk = side z.src := if_congr (hother z (mem_treeArcs_iff.2 ⟨hz, ht⟩) hzx hzy) rfl rfl
      rw [hsame, sub_self, zero_mul]
  calc x.flow.val + y.flow.val
      ≤ (k.arcs.toList.map fun z => (side z.snk - side z.src) * z.flow.val).sum := by
        rw [← hgainx, ← hgainy]
        exact add_le_sum_map hnonneg hx hy hne
    _ = g.worth side := (hf.worth_eq hg hn side).symm
    _ = ∑ v ∈ g.vertexSet, if S v then g.weightAt v else 0 := by
        refine Finset.sum_congr rfl fun v _ => ?_
        simp only [side, ite_mul, one_mul, zero_mul]
    _ ≤ g.totalDemand := sum_weights_le _

/-- An arc walked forward and one walked backward carry together no more than the total demand. -/
theorem Unicyclic.flow_add_le (hs : Unicyclic t k a) (hf : BasicFlow g k) (hk : k.numVertices = g.numVertices)
    (hw : k.tree.Walk u c u) (hn : (c.map Step.arc).Nodup) {i j : Nat} (hx : k.arcs[i]? = some x)
    (hxc : ⟨⟨i⟩, true⟩ ∈ c) (hy : k.arcs[j]? = some y) (hyc : ⟨⟨j⟩, false⟩ ∈ c) :
    x.flow.val + y.flow.val ≤ g.totalDemand := by
  have hg := hs.wellFormed.toNumbered
  have htree : ∀ {l : Nat} {z : Arc (Signed max)} {forward : Bool}, k.arcs[l]? = some z → ⟨⟨l⟩, forward⟩ ∈ c →
      z ∈ k.treeArcs := by
    intro l z forward hz hzc
    obtain ⟨z', hz', ht⟩ := hg.exists_of_walk hw (List.mem_map_of_mem hzc)
    rw [hz, Option.some.injEq] at hz'
    exact mem_treeArcs_iff.2 ⟨mem_arcs_iff.2 ⟨_, hz⟩, hz' ▸ ht⟩
  rw [← hg.arc_id hx] at hxc
  rw [← hg.arc_id hy] at hyc
  obtain ⟨hne, S, hxsnk, hxsrc, hysnk, hysrc, hother⟩ :=
    hs.exists_part hw hn (htree hx (hg.arc_id hx ▸ hxc)) hxc (htree hy (hg.arc_id hy ▸ hyc)) hyc
  exact hf.flow_add_le hg hk (mem_arcs_iff.2 ⟨_, hx⟩) (mem_arcs_iff.2 ⟨_, hy⟩) hne hxsnk hxsrc hysnk hysrc hother

end Transportation
