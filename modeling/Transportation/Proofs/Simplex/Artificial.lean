import Transportation.Proofs.Simplex.Entering
/-!
# Artificial arcs in the tree

An artificial arc enters the tree in the first phase only. From then on until the first phase begins anew the
artificial arcs in the tree can only become fewer (`Later.sheds`), also when costs are restored again and options are
changed. So if there are none left after the first phase, the tree of the solution consists of arcs of the instance.
-/

namespace Transportation

variable {F : Type}

/-- The links, by their ends. -/
def Builder.arcSet (b : Builder F) : ArcSet :=
  ⟨fun a => b.links[a.index]?.map fun l => (l.src, l.snk)⟩

namespace Network

variable {g h k : Network F} {t t' : Incidence} {a : ArcId} {x : Arc F}

/-- The artificial arcs in the tree of `h` are in the tree of `g`. -/
def Sheds (g h : Network F) : Prop :=
  ∀ (i : Nat) (x : Arc F), h.arcs[i]? = some x → x.inTree = true → x.kind = .artificial →
    ∃ y, g.arcs[i]? = some y ∧ y.id = x.id ∧ y.inTree = true ∧ y.kind = .artificial

theorem Sheds.refl (g : Network F) : g.Sheds g :=
  fun _ x hx ht hk => ⟨x, hx, rfl, ht, hk⟩

theorem Sheds.trans (hgh : g.Sheds h) (hhk : h.Sheds k) : g.Sheds k := by
  intro i x hx ht hk
  obtain ⟨y, hy, hid, hty, hky⟩ := hhk i x hx ht hk
  obtain ⟨z, hz, hid', hzk⟩ := hgh i y hy hty hky
  exact ⟨z, hz, hid'.trans hid, hzk⟩

theorem Sheds.of_map
    (e : h.arcs.map (fun x => (x.id, x.inTree, x.kind)) = g.arcs.map fun x => (x.id, x.inTree, x.kind)) :
    g.Sheds h := by
  intro i x hx ht hk
  obtain ⟨y, hy, hyx⟩ := exists_of_map_eq e hx
  simp only [Prod.mk.injEq] at hyx
  exact ⟨y, hy, hyx.1, hyx.2.1.trans ht, hyx.2.2.trans hk⟩

/-- The same, by the numbers of the arcs. -/
theorem Sheds.exists_treeArc (h : g.Sheds k) (hx : x ∈ k.treeArcs) (hk : x.kind = .artificial) :
    ∃ y ∈ g.treeArcs, y.id = x.id ∧ y.kind = .artificial := by
  obtain ⟨hx, ht⟩ := mem_treeArcs_iff.1 hx
  obtain ⟨i, hi⟩ := mem_arcs_iff.1 hx
  obtain ⟨y, hy, hid, hty, hky⟩ := h i x hi ht hk
  exact ⟨y, mem_treeArcs_iff.2 ⟨mem_arcs_iff.2 ⟨i, hy⟩, hty⟩, hid, hky⟩

/-- A real arc may enter. -/
theorem Sheds.insert (e : t.insert g a = .ok (t', h)) (hx : g.arcs[a.index]? = some x) (hk : x.kind = .real) :
    g.Sheds h := by
  obtain ⟨_, -, -, -, hm⟩ := Incidence.insert_eq_ok_iff.1 e
  intro i y hy hty hky
  rw [getElem?_modifyArc hm] at hy
  split at hy
  · next hi =>
    rw [← hi, hx] at hy
    cases hy
    rw [hk] at hky
    cases hky
  · exact ⟨y, hy, rfl, hty, hky⟩

theorem Sheds.remove (e : t.remove g a = .ok (t', h)) : g.Sheds h := by
  obtain ⟨_, -, -, -, hm⟩ := Incidence.remove_eq_ok_iff.1 e
  intro i y hy hty hky
  rw [getElem?_modifyArc hm] at hy
  split at hy
  · obtain ⟨z, -, rfl⟩ := Option.map_eq_some_iff.1 hy
    cases hty
  · exact ⟨y, hy, rfl, hty, hky⟩

end Network

namespace Simplex

open Network

variable [Amount F] {g : Network F} {s s' t : Simplex F}

/-! ## Pivots after the first phase -/

/-- An artificial arc may enter in the first phase only. -/
theorem real_of_price {c : Candidate F} {cursor : Nat} (h : s.price = .ok (some c, cursor))
    (hphase : s.phase ≠ .initial) : ∃ x, s.solution.arcs[c.arc.index]? = some x ∧ x.kind = .real := by
  obtain ⟨hr, -⟩ := attractive_of_price (Q := fun _ => True) (fun _ _ => trivial) (fun _ _ => trivial) h
  obtain ⟨x, _, _, _, hx, -, hk, -⟩ := reducedCost?_eq_some_iff.1 hr
  exact ⟨x, hx, hk.resolve_right hphase⟩

theorem PivotRun.sheds {r : Except SolveError (Option (Pivot F))} (h : PivotRun s r s')
    (hphase : s.phase ≠ .initial) : s.solution.Sheds s'.solution := by
  cases h with
  | noTree => exact .refl _
  | optimal => exact .refl _
  | noCycle _ hp hi _ hl =>
    obtain ⟨x, hx, hk⟩ := real_of_price hp hphase
    exact (Sheds.insert hi hx hk).trans (.remove hl)
  | unbounded _ hp hi _ _ hl =>
    obtain ⟨x, hx, hk⟩ := real_of_price hp hphase
    exact (Sheds.insert hi hx hk).trans (.remove hl)
  | pivoted _ hp hi _ _ hpush hl hu =>
    obtain ⟨x, hx, hk⟩ := real_of_price hp hphase
    obtain ⟨ps, -, rfl⟩ := Incidence.computePotentials_eq_ok_iff.1 hu
    have hpushed := Sheds.of_map (map_arcs_of_drained (drained_push hpush) fun _ => rfl)
    exact ((Sheds.insert hi hx hk).trans hpushed).trans ((Sheds.remove hl).trans (.of_map rfl))

theorem PivotRun.real_of_some {p : Pivot F} (h : PivotRun s (.ok (some p)) s') (hphase : s.phase ≠ .initial) :
    ∃ x, s.solution.arcs[p.entering.index]? = some x ∧ x.kind = .real := by
  generalize hr : (Except.ok (some p) : Except SolveError (Option (Pivot F))) = r at h
  cases h with
  | noTree | optimal | noCycle | unbounded => cases hr
  | pivoted _ hp =>
    split at hr <;> cases hr
    exact real_of_price hp hphase

theorem Pivots.sheds (h : Pivots s s') (hphase : s.phase ≠ .initial) : s.solution.Sheds s'.solution := by
  induction h with
  | refl => exact .refl _
  | step ht h ih => exact ih.trans (h.sheds (ht.constants.2.2.1 ▸ hphase))

theorem OptimizeRun.sheds {r : Except SolveError Nat} (h : OptimizeRun s r s') (hphase : s.phase ≠ .initial) :
    s.solution.Sheds s'.solution := by
  cases h with
  | noTree => exact .refl _
  | optimal ht | limited ht => exact ht.sheds hphase
  | failed ht h => exact (ht.sheds hphase).trans (h.sheds (ht.constants.2.2.1 ▸ hphase))

theorem RestoreRun.sheds {r : Except SolveError Unit} (h : RestoreRun s r s') : s.solution.Sheds s'.solution := by
  cases h with
  | noTree => exact .refl _
  | restored _ _ hk hu =>
    obtain ⟨ps, -, rfl⟩ := Incidence.computePotentials_eq_ok_iff.1 hu
    exact .of_map (map_restore hk fun _ _ => rfl)

/-! ## Until the first phase begins anew -/

/-- The states a solver passes through after `s`, whatever is asked of it and in whatever order, until the first
phase begins anew. -/
inductive Later (s : Simplex F) : Simplex F → Prop
  | refl : Later s s
  | optimize {t t' r} (ht : Later s t) (h : t.run optimize = .ok (r, t')) : Later s t'
  | pivot {t t' r} (ht : Later s t) (h : t.run pivot = .ok (r, t')) : Later s t'
  | checkStart {t t' r} (ht : Later s t) (h : t.run checkStart = .ok (r, t')) : Later s t'
  | restoreCosts {t t' r} (ht : Later s t) (h : t.run restoreCosts = .ok (r, t')) : Later s t'
  | setOptions {t o} (ht : Later s t) : Later s { t with options := o }

theorem Later.sheds (h : Later s t) (hphase : s.phase = .optimal) :
    t.phase = .optimal ∧ s.solution.Sheds t.solution := by
  induction h with
  | refl => exact ⟨hphase, .refl _⟩
  | optimize _ h ih =>
    have h := optimizeRun_of_run h
    exact ⟨h.phase_eq.trans ih.1, ih.2.trans (h.sheds (by rw [ih.1]; decide))⟩
  | pivot _ h ih =>
    have h := pivotRun_of_run h
    exact ⟨h.constants.2.2.1.trans ih.1, ih.2.trans (h.sheds (by rw [ih.1]; decide))⟩
  | checkStart _ h ih => exact (checkRun_of_run h).2 ▸ ih
  | restoreCosts _ h ih =>
    have h := restoreRun_of_run h
    refine ⟨?_, ih.2.trans h.sheds⟩
    cases h with
    | noTree => exact ih.1
    | restored => rfl
  | setOptions _ ih => exact ih

/-! ## The answer `optimal` -/

/-- If nothing is wrong after the first phase, no artificial arc is in the tree. -/
theorem CheckRun.not_inTree (h : CheckRun s (.ok .optimal)) : ∀ x ∈ s.solution.artificialArcs, x.inTree = false := by
  generalize hr : (Except.ok SolutionState.optimal : Except SolveError SolutionState) = r at h
  cases h with
  | noTree | infeasible => cases hr
  | @feasible arcs state hs ha hc hstate =>
    cases hr
    have hremaining : arcs.countP (fun load => load.1 && !load.2) = 0 := by
      split at hstate
      · cases hstate
      · exact Nat.eq_zero_of_not_pos ‹_›
    intro x hx
    obtain ⟨⟨inTree, carries⟩, hmem, hload⟩ := Checked.exists_of_forall₂ (Checked.mapM_eq_ok ha).flip hx
    obtain ⟨load, -, hload⟩ := Checked.bind_eq_ok_iff.1 hload
    obtain ⟨rfl, -⟩ := Prod.mk.inj (Checked.pure_eq_ok_iff.1 hload)
    have hcarries := List.countP_eq_zero.1 hc _ hmem
    have htree := List.countP_eq_zero.1 hremaining _ hmem
    cases ht : x.inTree with
    | false => rfl
    | true => simp [ht, hcarries] at htree

theorem SolveRun.not_inTree (h : SolveRun s (.ok .optimal) s') :
    s'.phase = .optimal ∧ ∀ x ∈ s'.solution.artificialArcs, x.inTree = false := by
  generalize hr : (Except.ok SolutionState.optimal : Except SolveError SolutionState) = r at h
  cases h with
  | noTree | noFirst | infeasible | noCosts | noSecond | carrying => cases hr
  | solved h₁ h₂ hc h₃ h₄ hn =>
    cases hr
    refine ⟨h₄.phase_eq.trans h₃.phase_eq, fun x hx => ?_⟩
    obtain ⟨hx, hk⟩ := List.mem_filter.1 hx
    by_contra ht
    obtain ⟨y, hy, -, hky⟩ := (h₃.sheds.trans (h₄.sheds (by rw [h₃.phase_eq]; decide))).exists_treeArc
      (mem_treeArcs_iff.2 ⟨hx, Bool.eq_true_of_not_eq_false ht⟩) (by simpa [Arc.isArtificial] using hk)
    obtain ⟨hy, hty⟩ := mem_treeArcs_iff.1 hy
    have hno := hc.not_inTree y (List.mem_filter.2 ⟨hy, by simp [Arc.isArtificial, hky]⟩)
    rw [hty] at hno
    cases hno

/-- A real arc of a working copy is a link. -/
theorem Sound.exists_link {b : Builder F} (hs : Sound b.network s) {x : Arc F} (hx : x ∈ s.solution.arcs.toList)
    (hk : x.kind = .real) : ∃ l, b.links[x.id.index]? = some l ∧ l.src = x.src ∧ l.snk = x.snk := by
  obtain ⟨y, hy, hframe⟩ := exists_real_of_base hs.base hs.wellFormed (wellFormed_network b)
    (hs.wellFormed.getElem?_id hx) hk
  rw [getElem?_network_arcs] at hy
  obtain ⟨l, hl, rfl⟩ := Option.map_eq_some_iff.1 hy
  obtain ⟨-, hsrc, hsnk, -⟩ := Arc.frame_eq_iff.1 hframe
  exact ⟨l, hl, hsrc, hsnk⟩

/-- A solver that says `optimal` has a spanning tree made of links. -/
theorem SolveRun.real_tree {b : Builder F} (h : SolveRun s (.ok .optimal) s') (hs : Sound b.network s') :
    (∀ x ∈ s'.solution.treeArcs, x.kind = .real ∧
      ∃ l, b.links[x.id.index]? = some l ∧ l.src = x.src ∧ l.snk = x.snk) ∧
    s'.solution.tree.Spans b.numVertices ∧ s'.solution.tree.Forest ∧
    s'.solution.numTreeArcs = b.numVertices - 1 := by
  obtain ⟨hphase, hart⟩ := h.not_inTree
  have htree := hs.tree (by rw [hphase]; decide)
  have hn : s'.solution.numVertices = b.numVertices := hs.numVertices_eq.trans (numVertices_network b)
  refine ⟨fun x hx => ?_, hn ▸ htree.spans, htree.forest, hn ▸ htree.count⟩
  obtain ⟨hx, ht⟩ := mem_treeArcs_iff.1 hx
  have hk : x.kind = .real := by
    cases hk : x.kind with
    | real => rfl
    | artificial =>
      have hno := hart x (List.mem_filter.2 ⟨hx, by simp [Arc.isArtificial, hk]⟩)
      rw [ht] at hno
      cases hno
  exact ⟨hk, hs.exists_link hx hk⟩

/-- What a tree made of links connects is connected by links. -/
theorem Sound.spans_links {b : Builder F} (hs : Sound b.network s) {n : Nat} (htree : s.solution.tree.Spans n)
    (hlinks : ∀ x ∈ s.solution.treeArcs, ∃ l, b.links[x.id.index]? = some l ∧ l.src = x.src ∧ l.snk = x.snk) :
    b.arcSet.Spans n := by
  intro u v hu hv
  refine (htree u v hu hv).sub fun {a p} ha => ?_
  obtain ⟨x, hx, rfl, rfl⟩ := hs.wellFormed.ends_tree.1 ha
  obtain ⟨l, hl, hsrc, hsnk⟩ := hlinks x hx
  simp [Builder.arcSet, hl, hsrc, hsnk]

/-- A solver that says `optimal` has a spanning tree made of links, and so it does not say that if the links do not
connect all vertices. After the costs have been restored no artificial arc enters the tree until the first phase
begins anew. -/
theorem real_tree_of_optimal (b : Builder F) (h : Reachable (fun _ => True) b.network s) :
    (∀ s', s.run solve = .ok (.ok .optimal, s') →
      (∀ x ∈ s'.solution.treeArcs, x.kind = .real ∧
        ∃ l, b.links[x.id.index]? = some l ∧ l.src = x.src ∧ l.snk = x.snk) ∧
      s'.solution.tree.Spans b.numVertices ∧ s'.solution.tree.Forest ∧
      s'.solution.numTreeArcs = b.numVertices - 1) ∧
    (¬ b.arcSet.Spans b.numVertices → ∀ s', s.run solve ≠ .ok (.ok .optimal, s')) ∧
    ∀ s₁, (s.run restoreCosts = .ok (.ok (), s₁) ∨ ∃ r, s.run solve = .ok (r, s₁) ∧ s₁.phase = .optimal) →
      ∀ t, Later s₁ t →
        (∀ x ∈ t.solution.treeArcs, x.kind = .artificial →
          ∃ y ∈ s₁.solution.treeArcs, y.id = x.id ∧ y.kind = .artificial) ∧
        ∀ p t', t.run pivot = .ok (.ok (some p), t') →
          ∃ x, t.solution.arc p.entering = .ok x ∧ x.kind = .real := by
  have hg := wellFormed_network b
  have hs := sound_of_reachable hg h
  have hsolve : ∀ {r s'}, s.run solve = .ok (r, s') → Sound b.network s' := fun hr =>
    (stable_sound hg).solve hs (solveRun_of_run hr)
  refine ⟨fun s' hr => (solveRun_of_run hr).real_tree (hsolve hr), fun hno s' hr => hno ?_, fun s₁ h₁ t ht => ?_⟩
  · obtain ⟨hlinks, hspans, -⟩ := (solveRun_of_run hr).real_tree (hsolve hr)
    exact (hsolve hr).spans_links hspans fun x hx => (hlinks x hx).2
  · have hphase : s₁.phase = .optimal := by
      rcases h₁ with h₁ | ⟨r, -, hphase⟩
      · exact (restoreRun_of_run h₁).phase_eq
      · exact hphase
    obtain ⟨hphase', hsheds⟩ := ht.sheds hphase
    refine ⟨fun x hx hk => hsheds.exists_treeArc hx hk, fun p t' hp => ?_⟩
    obtain ⟨x, hx, hk⟩ := (pivotRun_of_run hp).real_of_some (by rw [hphase']; decide)
    exact ⟨x, arc_eq_ok_iff.2 hx, hk⟩

theorem real_tree_of_relay :
    Reachable (fun _ => True) Builder.relay.network (new Builder.relay.network) ∧
    ∃ s', (new Builder.relay.network).run solve = .ok (.ok .optimal, s') ∧ s'.phase = .optimal ∧
      (∀ x ∈ s'.solution.treeArcs, x.kind = .real ∧
        ∃ l, Builder.relay.links[x.id.index]? = some l ∧ l.src = x.src ∧ l.snk = x.snk) ∧
      s'.solution.tree.Spans Builder.relay.numVertices ∧ s'.solution.tree.Forest ∧
      s'.solution.numTreeArcs = Builder.relay.numVertices - 1 ∧
      ∀ t, Later s' t →
        (∀ x ∈ t.solution.treeArcs, x.kind = .artificial →
          ∃ y ∈ s'.solution.treeArcs, y.id = x.id ∧ y.kind = .artificial) ∧
        ∀ p t', t.run pivot = .ok (.ok (some p), t') →
          ∃ x, t.solution.arc p.entering = .ok x ∧ x.kind = .real := by
  have hrun : (new Builder.relay.network).run solve = .ok (.ok .optimal, (new Builder.relay.network).after solve) := by
    decide +kernel
  have hphase : ((new Builder.relay.network).after solve).phase = .optimal := by decide +kernel
  obtain ⟨hsolve, -, hlater⟩ := real_tree_of_optimal Builder.relay .new
  obtain ⟨hlinks, hspans, hforest, hcount⟩ := hsolve _ hrun
  exact ⟨.new, _, hrun, hphase, hlinks, hspans, hforest, hcount, hlater _ (.inr ⟨_, hrun, hphase⟩)⟩

end Simplex

end Transportation
