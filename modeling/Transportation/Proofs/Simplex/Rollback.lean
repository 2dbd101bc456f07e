import Transportation.Proofs.Simplex.Failures
import Transportation.Proofs.Simplex.Unbounded
/-!
# Failed pivots

A pivot makes the entering arc a tree arc before it knows whether it can go on. If it cannot, the arc leaves again, and
with it go the entries it was given: it was in no list before, so it is struck from where it was put and nowhere else
(`SpanningTree.remove_insert`). After the flow has changed a pivot does not fail.
-/

namespace Transportation

variable {F : Type} {t t' t₁ : Incidence} {g g' g₁ : Network F} {a : ArcId}

/-! ## Entering and leaving again -/

/-- An arc that is not listed is listed at two vertices and struck again. -/
theorem Incidence.detach_attach {u v : VertexId} (hne : u ≠ v)
    (hnew : ∀ {i : Nat} {as : List ArcId}, t.incident[i]? = some as → a ∉ as)
    (h₁ : t.attach u v a = .ok t₁) (h₂ : t₁.detach u v a = .ok t') : t' = t := by
  have hindex : u.index ≠ v.index := fun h => hne (VertexId.ext h)
  obtain ⟨-, -, rfl⟩ := attach_eq_ok_iff.1 h₁
  obtain ⟨-, -, rfl⟩ := detach_eq_ok_iff.1 h₂
  have hlists : ∀ i : Nat, ((t.incident[i]?.map (· ++ [a])).map (·.filter (· ≠ a))) = t.incident[i]? := by
    intro i
    cases has : t.incident[i]? with
    | none => rfl
    | some as =>
      have hfilter : as.filter (· ≠ a) = as :=
        List.filter_eq_self.2 fun b hb => decide_eq_true fun h : b = a => hnew has (h ▸ hb)
      rw [Option.map_some, Option.map_some, List.filter_append, hfilter]
      simp
  obtain ⟨incident, count⟩ := t
  refine congrArg₂ Incidence.mk (Array.ext_getElem? fun i => ?_) (Nat.add_sub_cancel _ _)
  rw [getElem?_modify_modify _ _ _ _ _ hindex, getElem?_modify_modify _ _ _ _ _ hindex]
  split
  · exact hlists i
  · rfl

/-- A change to one arc that takes back the change before it. -/
theorem Network.modifyArc_modifyArc {f f' : Arc F → Arc F} (h₁ : g.modifyArc a f = .ok g₁)
    (h₂ : g₁.modifyArc a f' = .ok g') (hf : ∀ x, g.arcs[a.index]? = some x → f' (f x) = x) : g' = g := by
  obtain ⟨-, rfl⟩ := modifyArc_eq_ok_iff.1 h₁
  obtain ⟨-, rfl⟩ := modifyArc_eq_ok_iff.1 h₂
  obtain ⟨id, name, vertices, arcs⟩ := g
  refine congrArg (Network.mk id name vertices) (Array.ext_getElem? fun i => ?_)
  rw [Array.getElem?_modify, Array.getElem?_modify]
  split
  · next hi =>
    subst hi
    cases hx : arcs[a.index]? with
    | none => rfl
    | some x => rw [Option.map_some, Option.map_some, hf x hx]
  · rfl

/-- If the entering arc leaves again, the lists, the order of their entries included, and the network are as before. -/
theorem SpanningTree.remove_insert (hs : SpanningTree t g) (hi : t.insert g a = .ok (t₁, g₁))
    (hl : t₁.remove g₁ a = .ok (t', g')) : t' = t ∧ g' = g := by
  obtain ⟨x, hx, hout, hattach, henter⟩ := Incidence.insert_eq_ok_iff.1 hi
  obtain ⟨y, hy, -, hdetach, hleave⟩ := Incidence.remove_eq_ok_iff.1 hl
  rw [Network.getElem?_modifyArc henter, if_pos rfl, hx, Option.map_some, Option.some.injEq] at hy
  subst hy
  refine ⟨Incidence.detach_attach (hs.wellFormed.loopless hx) (fun has ha => ?_) hattach hdetach,
    Network.modifyArc_modifyArc henter hleave fun z hz => ?_⟩
  · -- A listed arc of this number is this arc, which is outside the tree.
    obtain ⟨z, hz, hid, -⟩ := (hs.lists.mem_iff has).1 ha
    obtain ⟨hz, hin⟩ := Network.mem_treeArcs_iff.1 hz
    have hz := hs.wellFormed.toNumbered.getElem?_id hz
    rw [hid, hx, Option.some.injEq] at hz
    rw [hz, hin] at hout
    cases hout
  · rw [hx, Option.some.injEq] at hz
    rw [← hz, ← hout]

namespace Simplex

variable [Amount F] {h : Network F} {s s' : Simplex F} {e : SolveError}

/-- A pivot that fails has moved the cursor, if anything. -/
theorem Sound.rollback (hs : Sound h s) (hp : PivotRun s (.error e) s') : ∃ cursor, s' = { s with cursor } ∧
    (s.options.pricing = .complete → cursor = s.cursor) := by
  generalize hr : (Except.error e : Except SolveError (Option (Pivot F))) = r at hp
  cases hp with
  | noTree => exact ⟨s.cursor, rfl, fun _ => rfl⟩
  | optimal => cases hr
  | noCycle hphase hprice hi _ hl | unbounded hphase hprice hi _ _ hl =>
    obtain ⟨rfl, rfl⟩ := (hs.tree hphase).remove_insert hi hl
    exact ⟨_, rfl, fun hc => cursor_of_price hc hprice⟩
  | pivoted hphase _ hi hc hb hpush hl hu =>
    -- The tree after the exchange reaches every vertex.
    have hn := Network.numVertices_of_plan (Network.plan_exchange hi hpush hl)
    obtain ⟨-, hall, -⟩ := ((hs.tree hphase).exchange hi hc hb hpush hl).computePotentials (hs.root_lt hphase hn) hu
    rw [if_pos hall] at hr
    cases hr

/-- In every reachable state, whatever the options are, a pivot that ends with an error leaves the state as it was but
for the cursor: the arcs and vertices of the working copy, the lists of the tree with their order, the number of tree
arcs, the phase and the counters. With complete pricing it leaves the cursor too. -/
theorem rollback_of_reachable (b : Builder F) (h : Reachable (fun _ => True) b.network s)
    (hp : s.run pivot = .ok (.error e, s')) :
    s' = { s with cursor := s'.cursor } ∧ (s.options.pricing = .complete → s' = s) := by
  obtain ⟨cursor, rfl, hc⟩ := (sound_of_reachable (Network.wellFormed_network b) h).rollback (pivotRun_of_run hp)
  exact ⟨rfl, fun hcomplete => by rw [hc hcomplete]⟩

theorem rollback_of_whirl : ∃ s s' : Simplex Signed8, Reachable (fun _ => True) Builder.whirl.network s ∧
    s.phase = .optimal ∧ s.options.pricing = .complete ∧ s.run pivot = .ok (.error .unbounded, s') ∧
    s' = { s with cursor := s'.cursor } ∧ s' = s := by
  let s := (new Builder.whirl.network).after solve
  have hsolve : (new Builder.whirl.network).run solve = .ok (.error .unbounded, s) := by decide +kernel
  have hreach : Reachable (fun _ => True) Builder.whirl.network s := .solve .new hsolve
  have hphase : s.phase = .optimal := by decide +kernel
  have hcomplete : s.options.pricing = .complete := by decide +kernel
  have hpivot : s.run pivot = .ok (.error .unbounded, s.after pivot) := by decide +kernel
  obtain ⟨hcursor, hsame⟩ := rollback_of_reachable Builder.whirl hreach hpivot
  exact ⟨s, _, hreach, hphase, hcomplete, hpivot, hcursor, hsame hcomplete⟩

end Simplex

end Transportation
