import Mathlib.Combinatorics.SimpleGraph.Acyclic
import Transportation.Proofs.Tree.Walk
/-!
# Forests

In a forest the ends of an arc are not connected without it. So a walk that never turns back along the arc it came
by does not meet a vertex twice (`Forest.ne_of_walk`, `Forest.nodup_starts`) nor an arc (`Forest.nodup`), and is the
only one between its ends (`Forest.walk_unique`). That `n` vertices are connected takes `n - 1` arcs
(`le_card_of_connected`), and there are no more of them if and only if they form a forest (`forest_of_card`,
`Forest.card_lt`).
-/

namespace Transportation.ArcSet

variable {T U : ArcSet} {u v w : VertexId} {s : Step} {c p q : List Step} {a : ArcId}

def Forest (T : ArcSet) : Prop :=
  ∀ {s u v}, T.Leads s u v → ¬ (T.without s.arc).Connected u v

/-- No two steps in a row use the same arc. -/
def NonBacktracking (c : List Step) : Prop :=
  (c.map Step.arc).IsChain (· ≠ ·)

theorem NonBacktracking.left (h : NonBacktracking (p ++ q)) : NonBacktracking p := by
  unfold NonBacktracking at *
  rw [List.map_append] at h
  exact h.left_of_append

theorem NonBacktracking.right (h : NonBacktracking (p ++ q)) : NonBacktracking q := by
  unfold NonBacktracking at *
  rw [List.map_append] at h
  exact h.right_of_append

/-- What is connected is so by a walk that does not turn back. -/
theorem Connected.exists_nonBacktracking (h : T.Connected u v) : ∃ c, T.Walk u c v ∧ NonBacktracking c := by
  obtain ⟨c, hc⟩ := h
  induction c generalizing u with
  | nil => exact ⟨[], hc, by simp [NonBacktracking]⟩
  | cons s c ih =>
    obtain ⟨w, hs, hc⟩ := hc
    obtain ⟨d, hd, hn⟩ := ih hc
    cases d with
    | nil => exact ⟨[s], ⟨w, hs, hd⟩, by simp [NonBacktracking]⟩
    | cons s' d =>
      by_cases ha : s.arc = s'.arc
      · -- The walk turns back at once, so both steps can be left out.
        obtain ⟨x, hs', hd⟩ := hd
        have hx : x = u := by
          rcases hs.same_arc hs' ha with ⟨rfl, rfl⟩ | ⟨-, rfl⟩ <;> rfl
        exact ⟨d, hx ▸ hd, hn.right (p := [s'])⟩
      · refine ⟨s :: s' :: d, ⟨w, hs, hd⟩, ?_⟩
        unfold NonBacktracking at hn ⊢
        rw [List.map_cons] at hn ⊢
        exact List.IsChain.cons_cons ha hn

/-- Two arcs between the same vertices would connect them without either of the two. -/
theorem Forest.arc_eq {s' : Step} (hT : T.Forest) (hs : T.Leads s u v) (hs' : T.Leads s' u v) : s.arc = s'.arc := by
  by_contra hne
  exact hT hs (leads_without_iff.2 ⟨hs', Ne.symm hne⟩).connected

theorem Forest.sub (hU : U.Forest) (hTU : T.Sub U) : T.Forest := by
  intro s u v hs h
  exact hU (hs.sub hTU) (h.sub (hTU.without s.arc))

theorem Forest.without (hT : T.Forest) (a : ArcId) : (T.without a).Forest :=
  hT.sub (T.without_sub a)

/-! ## Walks in a forest -/

/-- A walk that does not turn back does not return to where it started. Otherwise it would have to use its first
arc again, and between the two uses of that arc lies a shorter walk that returns. -/
theorem Forest.ne_of_walk (hT : T.Forest) (h : T.Walk u c v) (hn : NonBacktracking c) (hc : c ≠ []) : u ≠ v := by
  rintro rfl
  induction hk : c.length using Nat.strong_induction_on generalizing u c with
  | _ k ih =>
    obtain ⟨s, c, rfl⟩ := List.exists_cons_of_ne_nil hc
    obtain ⟨w, hs, hw⟩ := h
    by_cases ha : s.arc ∈ c.map Step.arc
    · obtain ⟨p, s', q, x, y, rfl, hs', hp, hwp, hl, -⟩ := hw.split ha
      have hwx : (T.without s.arc).Connected w x := ⟨p, walk_without_iff.2 ⟨hwp, hp⟩⟩
      rcases hs.same_arc hl hs'.symm with ⟨rfl, -⟩ | ⟨rfl, -⟩
      · exact hT hs hwx.symm
      · -- The arc is walked back, so the walk in between starts and ends where the first step ends.
        have hpne : p ≠ [] := by
          rintro rfl
          simp [NonBacktracking, hs'] at hn
        have hnp : NonBacktracking p := (NonBacktracking.right (p := [s]) hn).left
        exact ih p.length (by simp at hk; omega) hnp hpne hwp rfl
    · exact hT hs (Connected.symm ⟨c, walk_without_iff.2 ⟨hw, ha⟩⟩)

/-- A walk that does not turn back visits no vertex twice. -/
theorem Forest.nodup_starts (hT : T.Forest) (h : T.Walk u c v) (hn : NonBacktracking c) :
    (T.starts c ++ [v]).Nodup := by
  induction c generalizing u with
  | nil => simp [starts]
  | cons s c ih =>
    obtain ⟨w, hs, hw⟩ := h
    rw [starts_cons hs]
    refine List.nodup_cons.2 ⟨fun hu => ?_, ih hw (NonBacktracking.right (p := [s]) hn)⟩
    obtain ⟨p, q, rfl, hp, -⟩ := hw.cut hu
    have hnp : NonBacktracking (s :: p) := NonBacktracking.left (q := q) hn
    exact hT.ne_of_walk (c := s :: p) ⟨w, hs, hp⟩ hnp (by simp) rfl

theorem Forest.nodup (hT : T.Forest) (h : T.Walk u c v) (hn : NonBacktracking c) : (c.map Step.arc).Nodup :=
  h.nodup_arcs (hT.nodup_starts h hn)

theorem NonBacktracking.reverse (h : NonBacktracking c) : NonBacktracking (c.map Step.reverse).reverse := by
  unfold NonBacktracking at *
  rw [List.map_reverse, List.isChain_reverse, List.map_map]
  exact h.imp fun _ _ => Ne.symm

/-- Steps along one arc between different vertices the same way are the same step. -/
theorem Leads.eq_of_arc {s' : Step} (h : T.Leads s u v) (h' : T.Leads s' u v) (hne : u ≠ v) (ha : s.arc = s'.arc) :
    s = s' := by
  obtain ⟨a, f⟩ := s
  obtain ⟨a', f'⟩ := s'
  unfold Leads at *
  cases f <;> cases f' <;> simp_all [Ne.symm hne]

/-- Two vertices are connected by one walk at most that does not turn back. -/
theorem Forest.walk_unique {d : List Step} (hT : T.Forest) (hc : T.Walk u c v) (hd : T.Walk u d v)
    (hnc : NonBacktracking c) (hnd : NonBacktracking d) : c = d := by
  induction c generalizing u d with
  | nil =>
    by_contra hne
    exact hT.ne_of_walk hd hnd (Ne.symm hne) hc
  | cons s c ih =>
    cases d with
    | nil => exact absurd hd (hT.ne_of_walk hc hnc (by simp))
    | cons s' d =>
      have hback : T.Walk v (((s :: c).map Step.reverse).reverse) u := hc.reverse
      obtain ⟨w, hs, hw⟩ := hc
      have hne : u ≠ w := hT.ne_of_walk (walk_singleton.2 hs) (by simp [NonBacktracking]) (by simp)
      by_cases ha : s.arc = s'.arc
      · obtain ⟨w', hs', hw'⟩ := hd
        obtain rfl : w' = w := by
          rcases hs.same_arc hs' ha with ⟨-, rfl⟩ | ⟨rfl, -⟩
          · rfl
          · exact absurd rfl hne
        rw [hs.eq_of_arc hs' hne ha,
          ih hw hw' (NonBacktracking.right (p := [s]) hnc) (NonBacktracking.right (p := [s']) hnd)]
      · -- Back along the one walk and forth along the other leads around without turning back.
        refine absurd rfl (hT.ne_of_walk (walk_append.2 ⟨u, hback, hd⟩) ?_ (by simp))
        unfold NonBacktracking
        rw [List.map_append, List.isChain_append]
        refine ⟨hnc.reverse, hnd, ?_⟩
        simp [Step.reverse, ha]

/-! ## Counting arcs -/

/-- The vertices of the first `n` that an arc joins. -/
def graph (T : ArcSet) (n : Nat) : SimpleGraph (Fin n) :=
  SimpleGraph.fromRel fun i j => ∃ s, T.Leads s ⟨i⟩ ⟨j⟩

/-- The ends of the arcs are among the first `n` vertices. -/
def Within (T : ArcSet) (n : Nat) : Prop :=
  ∀ {s u v}, T.Leads s u v → u.index < n

/-- All of the first `n` vertices are connected. -/
def Spans (T : ArcSet) (n : Nat) : Prop :=
  ∀ u v : VertexId, u.index < n → v.index < n → T.Connected u v

theorem spans_iff {n : Nat} (hu : u.index < n) : T.Spans n ↔ ∀ v : VertexId, v.index < n → T.Connected u v :=
  ⟨fun h v hv => h u v hu hv, fun h v w hv hw => (h v hv).symm.trans (h w hw)⟩

/-- A walk that does not turn back has fewer steps than there are vertices. -/
theorem Forest.length_lt_of_walk {n : Nat} (hT : T.Forest) (hr : T.Within n) (h : T.Walk u c v)
    (hn : NonBacktracking c) (hv : v.index < n) : c.length < n := by
  have hsub : (T.starts c ++ [v]).map VertexId.index ⊆ List.range n := by
    intro i hi
    obtain ⟨w, hw, rfl⟩ := List.mem_map.1 hi
    rw [List.mem_range]
    rcases List.mem_append.1 hw with hw | hw
    · obtain ⟨s, -, x, hl⟩ := mem_starts_iff.1 hw
      exact hr hl
    · exact List.mem_singleton.1 hw ▸ hv
  have hinj : Function.Injective VertexId.index := fun _ _ => VertexId.ext
  have hle := (List.subperm_of_subset ((hT.nodup_starts h hn).map hinj) hsub).length_le
  simp only [List.length_map, List.length_append, List.length_singleton, h.length_starts, List.length_range] at hle
  omega

theorem reachable_graph {n : Nat} (hr : T.Within n) (h : T.Connected u v) (hu : u.index < n) (hv : v.index < n) :
    (T.graph n).Reachable ⟨u.index, hu⟩ ⟨v.index, hv⟩ := by
  refine h.induction (P := fun x => ∀ hx : x.index < n, (T.graph n).Reachable ⟨u.index, hu⟩ ⟨x.index, hx⟩)
    (fun _ => .refl _) ?_ hv
  intro s x y hs hP hy
  have hx : x.index < n := hr hs
  by_cases e : x = y
  · subst e; exact hP hx
  · refine (hP hx).trans (SimpleGraph.Adj.reachable ?_)
    rw [graph, SimpleGraph.fromRel_adj]
    refine ⟨fun h => e ?_, .inl ⟨s, hs⟩⟩
    cases x; cases y; simpa using h

/-- An edge of the graph is an arc of the set. -/
theorem exists_arc_of_mem_edgeSet {n : Nat} (e : (T.graph n).edgeSet) :
    ∃ a : ArcId, ∃ i j : Fin n, T.ends a = some (⟨i⟩, ⟨j⟩) ∧ e.1 = s(i, j) := by
  obtain ⟨e, he⟩ := e
  induction e with
  | _ i j =>
    rw [SimpleGraph.mem_edgeSet, graph, SimpleGraph.fromRel_adj] at he
    obtain ⟨-, ⟨s, hs⟩ | ⟨s, hs⟩⟩ := he
    all_goals
      unfold Leads at hs
      cases hf : s.forward <;> simp only [hf, Bool.false_eq_true, if_true, if_false] at hs
    · exact ⟨s.arc, j, i, hs, Sym2.eq_swap⟩
    · exact ⟨s.arc, i, j, hs, rfl⟩
    · exact ⟨s.arc, i, j, hs, rfl⟩
    · exact ⟨s.arc, j, i, hs, Sym2.eq_swap⟩

theorem card_edgeSet_le {n : Nat} {l : List ArcId} (hl : ∀ a, (T.ends a).isSome → a ∈ l) :
    Nat.card (T.graph n).edgeSet ≤ l.length := by
  classical
  choose f i j hf he using exists_arc_of_mem_edgeSet (T := T) (n := n)
  have hinj : Function.Injective fun e => (⟨f e, List.mem_toFinset.2 (hl _ (by simp [hf]))⟩ : l.toFinset) := by
    intro e e' h
    have h : f e = f e' := by simpa using h
    have hij := hf e
    rw [h, hf e'] at hij
    simp only [Option.some.injEq, Prod.mk.injEq, VertexId.mk.injEq, Fin.val_inj] at hij
    exact Subtype.ext (by rw [he, he, hij.1, hij.2])
  calc Nat.card (T.graph n).edgeSet ≤ Nat.card l.toFinset := Nat.card_le_card_of_injective _ hinj
    _ = l.toFinset.card := Nat.card_eq_finsetCard _
    _ ≤ l.length := l.toFinset_card_le

theorem connected_graph {n : Nat} (hn : 0 < n) (hr : T.Within n) (hc : T.Spans n) : (T.graph n).Connected := by
  have : Nonempty (Fin n) := ⟨⟨0, hn⟩⟩
  exact ⟨fun i j => reachable_graph hr (hc ⟨i⟩ ⟨j⟩ i.2 j.2) i.2 j.2⟩

/-- It takes `n - 1` arcs to connect `n` vertices. -/
theorem le_card_of_connected {n : Nat} {l : List ArcId} (hl : ∀ a, (T.ends a).isSome → a ∈ l) (hr : T.Within n)
    (hc : T.Spans n) : n ≤ l.length + 1 := by
  rcases Nat.eq_zero_or_pos n with rfl | hpos
  · omega
  have h := (connected_graph hpos hr hc).card_vert_le_card_edgeSet_add_one
  have h' := card_edgeSet_le (n := n) hl
  simp only [Nat.card_eq_fintype_card, Fintype.card_fin] at h h'
  omega

/-- If `n - 1` arcs connect `n` vertices, they form a forest. -/
theorem forest_of_card {n : Nat} {l : List ArcId} (hl : ∀ a, (T.ends a).isSome → a ∈ l) (hr : T.Within n)
    (hc : T.Spans n) (hn : l.length < n) : T.Forest := by
  intro s u v hs huv
  have hmem : s.arc ∈ l := hl _ (by rw [hs]; rfl)
  have h := le_card_of_connected (T := T.without s.arc) (n := n) (l := l.erase s.arc)
    (fun a ha => ?_) (fun h => hr (leads_without_iff.1 h).1) (fun x y hx hy => (hc x y hx hy).without hs huv)
  · rw [List.length_erase_of_mem hmem] at h
    have := List.length_pos_of_mem hmem
    omega
  · by_cases e : a = s.arc
    · simp [without, e] at ha
    · exact (List.mem_erase_of_ne e).2 (hl a (by simpa [without, e] using ha))

theorem exists_leads_of_adj {n : Nat} {i j : Fin n} (h : (T.graph n).Adj i j) : ∃ s, T.Leads s ⟨i⟩ ⟨j⟩ := by
  rw [graph, SimpleGraph.fromRel_adj] at h
  rcases h.2 with h | ⟨s, hs⟩
  · exact h
  · exact ⟨s.reverse, hs.reverse⟩

/-- Off the edge between `i` and `j`, whatever the graph reaches is connected without any arc between them. -/
theorem connected_of_reachable {n : Nat} {i j k l : Fin n} (hs : T.Leads s ⟨i⟩ ⟨j⟩)
    (h : ((T.graph n).deleteEdges {s(i, j)}).Reachable k l) : (T.without s.arc).Connected ⟨k⟩ ⟨l⟩ := by
  obtain ⟨p⟩ := h
  induction p with
  | nil => rfl
  | @cons k m l hadj _ ih =>
    refine Connected.trans ?_ ih
    rw [SimpleGraph.deleteEdges_adj, Set.mem_singleton_iff] at hadj
    obtain ⟨hadj, hne⟩ := hadj
    obtain ⟨s', hs'⟩ := exists_leads_of_adj hadj
    refine (leads_without_iff.2 ⟨hs', fun e => hne ?_⟩).connected
    rcases hs.same_arc hs' e.symm with ⟨hk, hm⟩ | ⟨hk, hm⟩
    all_goals
      simp only [VertexId.mk.injEq, Fin.val_inj] at hk hm
      subst hk hm
    · rfl
    · exact Sym2.eq_swap

/-- A forest that connects `n` vertices has no more than `n - 1` arcs. -/
theorem Forest.card_lt {n : Nat} {l : List ArcId} (hT : T.Forest) (hn : 0 < n) (hr : T.Within n) (hc : T.Spans n)
    (hl : ∀ a ∈ l, (T.ends a).isSome) (hnd : l.Nodup) : l.length < n := by
  classical
  have hbridge : ∀ ⦃i j⦄, (T.graph n).Adj i j → (T.graph n).IsBridge s(i, j) := fun i j h => by
    obtain ⟨s, hs⟩ := exists_leads_of_adj h
    exact SimpleGraph.isBridge_iff.2 fun h => hT hs (connected_of_reachable hs h)
  have htree : (T.graph n).IsTree :=
    ⟨connected_graph hn hr hc, SimpleGraph.isAcyclic_iff_forall_adj_isBridge.2 hbridge⟩
  have hends : ∀ a : l.toFinset, ∃ i j : Fin n, T.Leads ⟨a, true⟩ ⟨i⟩ ⟨j⟩ := fun a => by
    obtain ⟨⟨u, v⟩, huv⟩ := Option.isSome_iff_exists.1 (hl a (List.mem_toFinset.1 a.2))
    have h : T.Leads ⟨a, true⟩ u v := huv
    exact ⟨⟨u.index, hr h⟩, ⟨v.index, hr h.reverse⟩, h⟩
  choose i j hij using hends
  have hadj : ∀ a, s(i a, j a) ∈ (T.graph n).edgeSet := fun a => by
    rw [SimpleGraph.mem_edgeSet, graph, SimpleGraph.fromRel_adj]
    refine ⟨fun e => hT (hij a) ?_, .inl ⟨_, hij a⟩⟩
    rw [e]
  have hinj : Function.Injective fun a => (⟨s(i a, j a), hadj a⟩ : (T.graph n).edgeSet) := by
    intro a b hab
    simp only [Subtype.mk.injEq, Sym2.eq_iff] at hab
    rcases hab with ⟨h₁, h₂⟩ | ⟨h₁, h₂⟩
    · exact Subtype.ext (hT.arc_eq (hij a) (by rw [h₁, h₂]; exact hij b))
    · exact Subtype.ext (hT.arc_eq (hij a) (by rw [h₁, h₂]; exact (hij b).reverse))
  have hcard : Nat.card (T.graph n).edgeSet + 1 = n := by
    simpa using (SimpleGraph.isTree_iff_connected_and_card.1 htree).2
  have hle : l.length ≤ Nat.card (T.graph n).edgeSet := by
    rw [← List.toFinset_card_of_nodup hnd, ← Nat.card_eq_finsetCard]
    exact Nat.card_le_card_of_injective _ hinj
  omega

end Transportation.ArcSet
