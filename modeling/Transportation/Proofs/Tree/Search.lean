import Transportation.Proofs.Tree.Cycle
import Transportation.Tree.Search
/-!
# What a search finds

A search finds the vertices that tree arcs connect to its root, and no others (`Found.seen_iff`). Its invariant has
two sides: what has been found is connected to the root, and what is joined to a vertex already left has been
found. A vertex enters the stack once, so the fuel lasts. A property of the result that every discovery keeps holds
at the end, and a search faults only as its discoveries can (`faultsOnly_run`).
-/

namespace Transportation

variable {F σ : Type}

namespace Search

def Seen (s : Search σ) (v : VertexId) : Prop :=
  s.seen[v.index]? = some true

theorem seen_modify {s : Search σ} {v w : VertexId} (hv : v.index < s.seen.size) :
    (s.seen.modify v.index fun _ => true)[w.index]? = some true ↔ s.Seen w ∨ w = v := by
  rw [Array.getElem?_modify]
  by_cases h : v.index = w.index
  · have e : w = v := VertexId.ext h.symm
    subst e
    simp [hv]
  · have e : w ≠ v := fun e => h (e ▸ rfl)
    simp [h, e, Seen]

theorem count_modify {xs : Array Bool} {i : Nat} (h : xs[i]? = some false) :
    (xs.modify i fun _ => true).count true = xs.count true + 1 := by
  obtain ⟨hi, hx⟩ := Array.getElem?_eq_some_iff.1 h
  have e : xs.modify i (fun _ => true) = xs.set i true hi := by
    refine Array.ext_getElem? fun j => ?_
    rw [Array.getElem?_modify, Array.getElem?_set]
    split
    · next h => subst h; simp [hi]
    · rfl
  simp [e, Array.count_set, hx]

variable {g : Network F} {t : Incidence} {root : VertexId} {discover : Arc F → VertexId → VertexId → σ → Checked σ}
  {I : (VertexId → Prop) → σ → Prop} {pending : VertexId → ArcId → Prop} {fuel : Nat} {s s' : Search σ}

/-- The state of a search that may still leave `fuel` vertices and has yet to follow the arcs `pending` from the
vertex it is leaving. -/
structure Inv (g : Network F) (root : VertexId) (I : (VertexId → Prop) → σ → Prop)
    (pending : VertexId → ArcId → Prop) (fuel : Nat) (s : Search σ) : Prop where
  size : s.seen.size = g.numVertices
  seen_root : s.Seen root
  connected : ∀ {v}, s.Seen v → g.tree.Connected root v
  stack : ∀ {v}, v ∈ s.stack → s.Seen v
  closed : ∀ {e v w}, g.tree.Leads e v w → s.Seen v → v ∉ s.stack → s.Seen w ∨ pending v e.arc
  reached : s.reached = s.seen.count true
  fuel : s.reached + fuel = g.numVertices + s.stack.length
  result : I s.Seen s.result

/-- A property of what has been found and the result, kept by every discovery. -/
def Kept (g : Network F) (discover : Arc F → VertexId → VertexId → σ → Checked σ)
    (I : (VertexId → Prop) → σ → Prop) : Prop :=
  ∀ {S : VertexId → Prop} {x : Arc F} {u v : VertexId} {r r' : σ}, g.arcs[x.id.index]? = some x →
    g.tree.Leads ⟨x.id, x.src = u⟩ u v → S u → ¬ S v → I S r → discover x u v r = .ok r' → I (fun w => S w ∨ w = v) r'

theorem inv_start (hroot : root.index < g.numVertices) {r : σ} (hr : I (· = root) r)
    (h : start g.numVertices root r = .ok s) : Inv g root I (fun _ _ => False) g.numVertices s := by
  simp only [start, Checked.bind_eq_ok_iff, Checked.modify_eq_ok_iff, Checked.pure_eq_ok_iff] at h
  obtain ⟨seen, ⟨-, rfl⟩, rfl⟩ := h
  have hseen : ∀ v, Search.Seen (σ := σ)
      ⟨(Array.replicate g.numVertices false).modify root.index fun _ => true, [root], 1, r⟩ v ↔ v = root := by
    intro v
    have := seen_modify (s := (⟨Array.replicate g.numVertices false, [root], 1, r⟩ : Search σ)) (v := root) (w := v)
      (by simpa using hroot)
    refine this.trans ⟨fun h => h.elim (fun h => ?_) id, .inr⟩
    simp [Seen, Array.getElem?_replicate] at h
  refine ⟨by simp, (hseen _).2 rfl, fun h => ?_, fun h => ?_, fun _ h h' => ?_, ?_, by simp; omega, ?_⟩
  · rw [(hseen _).1 h]
  · exact (hseen _).2 (by simpa using h)
  · exact absurd ((hseen _).1 h) (by simpa using h')
  · rw [count_modify (by simpa [Array.getElem?_replicate] using hroot), Array.count_replicate]
    simp
  · have e : Search.Seen (σ := σ)
        ⟨(Array.replicate g.numVertices false).modify root.index fun _ => true, [root], 1, r⟩ = (· = root) :=
      funext fun v => propext (hseen v)
    rw [e]
    exact hr

/-- The search that has found `v` last. -/
def mark (s : Search σ) (v : VertexId) (r : σ) : Search σ :=
  ⟨s.seen.modify v.index fun _ => true, v :: s.stack, s.reached + 1, r⟩

/-- An arc held at `u` leads to a vertex, which has been found before or is found now. -/
theorem follow_eq_ok (hg : g.Numbered) (ht : t.HoldsTree g) {u : VertexId} {as : List ArcId} {a : ArcId}
    (has : t.arcsAt u = .ok as) (ha : a ∈ as) (h : follow discover g u s a = .ok s') :
    ∃ x v, g.arcs[x.id.index]? = some x ∧ x.id = a ∧ g.tree.Leads ⟨x.id, x.src = u⟩ u v ∧
      ((s.Seen v ∧ s' = s) ∨
        ∃ r, s.seen[v.index]? = some false ∧ discover x u v s.result = .ok r ∧ s' = s.mark v r) := by
  simp only [follow, Checked.bind_eq_ok_iff] at h
  obtain ⟨x, hx, v, hv, seen, hseen, h⟩ := h
  have hl := ht.leads hg has ha hx hv
  rw [Network.arc_eq_ok_iff] at hx
  obtain rfl : x.id = a := hg.arc_id hx
  rw [Checked.get_eq_ok_iff] at hseen
  refine ⟨x, v, hx, rfl, hl, ?_⟩
  cases seen with
  | true =>
    cases h
    exact .inl ⟨hseen, rfl⟩
  | false =>
    simp only [Bool.false_eq_true, if_false, Checked.bind_eq_ok_iff, Checked.modify_eq_ok_iff,
      Checked.pure_eq_ok_iff] at h
    obtain ⟨r, hr, _, ⟨-, rfl⟩, rfl⟩ := h
    exact .inr ⟨r, hseen, hr, rfl⟩

/-- Once its other end has been found, an arc has been followed. -/
theorem Inv.followed (hs : Inv g root I pending fuel s) {u v : VertexId} {a : ArcId} {forward : Bool}
    (hl : g.tree.Leads ⟨a, forward⟩ u v) (hv : s.Seen v) :
    Inv g root I (fun w b => pending w b ∧ ¬ (w = u ∧ b = a)) fuel s := by
  refine { hs with closed := fun {e w z} he hw hn => ?_ }
  rcases hs.closed he hw hn with h | h
  · exact .inl h
  · by_cases hwe : w = u ∧ e.arc = a
    · obtain ⟨rfl, hea⟩ := hwe
      rcases hl.same_arc he hea.symm with ⟨-, rfl⟩ | ⟨rfl, rfl⟩
      · exact .inl hv
      · exact .inl hv
    · exact .inr ⟨h, hwe⟩

/-- Finding a vertex keeps the invariant: the new vertex is on the stack, so none of its arcs is due yet. -/
theorem Inv.mark (hs : Inv g root I pending fuel s) (hI : Kept g discover I) {u v : VertexId} {x : Arc F} {r : σ}
    (hx : g.arcs[x.id.index]? = some x) (hl : g.tree.Leads ⟨x.id, x.src = u⟩ u v) (hu : s.Seen u)
    (hv : s.seen[v.index]? = some false) (hr : discover x u v s.result = .ok r) :
    (s.mark v r).Seen u ∧ (s.mark v r).Seen v ∧ Inv g root I pending fuel (s.mark v r) := by
  have hmark : ∀ w, (s.mark v r).Seen w ↔ s.Seen w ∨ w = v := fun w =>
    seen_modify (Array.getElem?_eq_some_iff.1 hv).1
  have hnew : ¬ s.Seen v := by simp [Seen, hv]
  refine ⟨(hmark u).2 (.inl hu), (hmark v).2 (.inr rfl), ?_⟩
  refine ⟨by simp [Search.mark, hs.size], (hmark _).2 (.inl hs.seen_root), fun {w} hw => ?_, fun {w} hw => ?_,
    fun {e w z} he hw hn => ?_, ?_, ?_, ?_⟩
  · rcases (hmark _).1 hw with hw | rfl
    · exact hs.connected hw
    · exact (hs.connected hu).trans hl.connected
  · rcases List.mem_cons.1 hw with rfl | hw
    · exact (hmark _).2 (.inr rfl)
    · exact (hmark _).2 (.inl (hs.stack hw))
  · simp only [Search.mark, List.mem_cons, not_or] at hn
    have hw := ((hmark _).1 hw).resolve_right hn.1
    exact (hs.closed he hw hn.2).imp_left fun h => (hmark _).2 (.inl h)
  · rw [Search.mark, hs.reached, count_modify hv]
  · have := hs.fuel
    simp only [Search.mark, List.length_cons]
    omega
  · rw [funext fun w => propext (hmark w)]
    exact hI hx hl hu hnew hs.result hr

theorem Inv.follow (hs : Inv g root I pending fuel s) (hg : g.Numbered) (ht : t.HoldsTree g)
    (hI : Kept g discover I) {u : VertexId} {as : List ArcId} {a : ArcId} (hu : s.Seen u) (has : t.arcsAt u = .ok as)
    (ha : a ∈ as) (h : follow discover g u s a = .ok s') :
    s'.Seen u ∧ Inv g root I (fun v b => pending v b ∧ ¬ (v = u ∧ b = a)) fuel s' := by
  obtain ⟨x, v, hx, rfl, hl, ⟨hv, rfl⟩ | ⟨r, hv, hr, rfl⟩⟩ := follow_eq_ok hg ht has ha h
  · exact ⟨hu, hs.followed hl hv⟩
  · obtain ⟨hu, hv, hs⟩ := hs.mark hI hx hl hu hv hr
    exact ⟨hu, hs.followed hl hv⟩

/-- Leaving a vertex, the arcs `done` of it have been followed so far. -/
theorem Inv.follows (hs : Inv g root I (fun _ _ => False) (fuel + 1) s) (hg : g.Numbered) (ht : t.HoldsTree g)
    (hI : Kept g discover I) {u : VertexId} {stack : List VertexId} {as done : List ArcId} (hstack : s.stack = u :: stack)
    (has : t.arcsAt u = .ok as) (hdone : ∀ a ∈ done, a ∈ as)
    (h : done.foldlM (Search.follow discover g u) { s with stack } = .ok s') :
    s'.Seen u ∧ Inv g root I (fun v b => v = u ∧ b ∉ done) fuel s' := by
  have hu : s.Seen u := hs.stack (by simp [hstack])
  refine Checked.foldlM_induction
    (fun done s' => s'.Seen u ∧ Inv g root I (fun v b => v = u ∧ b ∉ done) fuel s') h ⟨hu, ?_⟩ ?_
  · -- Off the stack, `u` has all of its arcs pending.
    refine ⟨hs.size, hs.seen_root, hs.connected, fun h => hs.stack (by simp [hstack, h]), ?_, hs.reached, ?_,
      hs.result⟩
    · intro e v w he hv hn
      by_cases hvu : v = u
      · exact .inr ⟨hvu, by simp⟩
      · exact .inl ((hs.closed he hv (by simp [hstack, hvu, hn])).resolve_right id)
    · have := hs.fuel
      simp only [hstack, List.length_cons] at this
      simp only
      omega
  · rintro done a x y ⟨rest, rfl⟩ ⟨hx, hinv⟩ hy
    obtain ⟨hy, hinv⟩ := hinv.follow hg ht hI hx has (hdone a (by simp)) hy
    refine ⟨hy, { hinv with closed := fun he hv hn => (hinv.closed he hv hn).imp_right ?_ }⟩
    rintro ⟨⟨rfl, hb⟩, hne⟩
    exact ⟨rfl, by simpa using ⟨hb, fun h => hne ⟨rfl, h⟩⟩⟩

/-- Leaving a vertex, all of its arcs are followed. -/
theorem Inv.leave (hs : Inv g root I (fun _ _ => False) (fuel + 1) s) (hg : g.Numbered) (ht : t.HoldsTree g)
    (hI : Kept g discover I) {u : VertexId} {stack : List VertexId} {as : List ArcId} (hstack : s.stack = u :: stack)
    (has : t.arcsAt u = .ok as) (h : as.foldlM (Search.follow discover g u) { s with stack } = .ok s') :
    Inv g root I (fun _ _ => False) fuel s' := by
  obtain ⟨-, hinv⟩ := hs.follows hg ht hI hstack has (fun _ => id) h
  refine { hinv with closed := fun {e v w} he hv hn => (hinv.closed he hv hn).imp_right ?_ }
  rintro ⟨rfl, hn⟩
  refine hn ?_
  rw [Incidence.arcsAt, Checked.get_eq_ok_iff] at has
  obtain ⟨x, hx, hid, he⟩ := hg.leads_tree.1 he
  refine (ht.mem_iff has).2 ⟨x, hx, hid, ?_⟩
  cases hf : e.forward <;> simp_all

theorem Inv.explore (hg : g.Numbered) (ht : t.HoldsTree g) (hI : Kept g discover I)
    (hs : Inv g root I (fun _ _ => False) fuel s) (h : explore discover g t fuel s = .ok s') :
    s'.stack = [] ∧ ∃ fuel', Inv g root I (fun _ _ => False) fuel' s' := by
  induction fuel generalizing s with
  | zero =>
    -- Were a vertex left on the stack, more would have been found than there are.
    rw [Search.explore, Checked.pure_eq_ok_iff] at h
    subst h
    refine ⟨List.eq_nil_of_length_eq_zero ?_, 0, hs⟩
    have h₁ := hs.fuel
    have h₂ : s.seen.count true ≤ s.seen.size := Array.count_le_size
    rw [← hs.reached, hs.size] at h₂
    omega
  | succ fuel ih =>
    rw [Search.explore] at h
    split at h
    · next hnil => cases h; exact ⟨hnil, _, hs⟩
    · next u stack hstack =>
      simp only [Checked.bind_eq_ok_iff] at h
      obtain ⟨as, has, s'', hfold, h⟩ := h
      exact ih (hs.leave hg ht hI hstack has hfold) h

/-- A finished search has found what is connected to its root. -/
structure Found (g : Network F) (root : VertexId) (I : (VertexId → Prop) → σ → Prop) (s : Search σ) : Prop where
  size : s.seen.size = g.numVertices
  seen_iff : ∀ v, s.Seen v ↔ g.tree.Connected root v
  reached : s.reached = s.seen.count true
  result : I (g.tree.Connected root) s.result

theorem found_of_run (hg : g.Numbered) (ht : t.HoldsTree g) (hI : Kept g discover I)
    (hroot : root.index < g.numVertices) {r : σ} (hr : I (· = root) r) (h : run discover g t root r = .ok s) :
    Found g root I s := by
  simp only [run, Checked.bind_eq_ok_iff] at h
  obtain ⟨s₀, hs₀, h⟩ := h
  obtain ⟨hnil, fuel, hs⟩ := (inv_start hroot hr hs₀).explore hg ht hI h
  have hseen : ∀ v, s.Seen v ↔ g.tree.Connected root v := by
    refine fun v => ⟨hs.connected, fun hv => hv.induction hs.seen_root fun e x y he hx => ?_⟩
    exact (hs.closed he hx (by simp [hnil])).resolve_right id
  refine ⟨hs.size, hseen, hs.reached, ?_⟩
  rw [← funext fun v => propext (hseen v)]
  exact hs.result

/-- The number of vertices found tells whether all are connected to the root. -/
theorem Found.reached_eq_iff (hs : Found g root I s) :
    s.reached = g.numVertices ↔ ∀ v : VertexId, v.index < g.numVertices → g.tree.Connected root v := by
  rw [hs.reached, ← hs.size, Array.count_eq_size]
  constructor
  · intro h v hv
    exact (hs.seen_iff v).1 (by simpa [Seen, hv] using (h _ (Array.getElem_mem hv)).symm)
  · intro h b hb
    obtain ⟨i, hi, rfl⟩ := Array.mem_iff_getElem.1 hb
    have := (hs.seen_iff ⟨i⟩).2 (h ⟨i⟩ hi)
    simp only [Seen, Array.getElem?_eq_getElem hi, Option.some.injEq] at this
    exact this.symm

/-! ## Faults -/

variable {P : Fault → Prop}

/-- While `I` holds, every discovery can fault with faults of the kind `P` only. -/
def Guarded (P : Fault → Prop) (g : Network F) (discover : Arc F → VertexId → VertexId → σ → Checked σ)
    (I : (VertexId → Prop) → σ → Prop) : Prop :=
  ∀ {S : VertexId → Prop} {x : Arc F} {u v : VertexId} {r : σ}, g.arcs[x.id.index]? = some x →
    g.tree.Leads ⟨x.id, x.src = u⟩ u v → S u → ¬ S v → I S r → Checked.FaultsOnly P (discover x u v r)

theorem Inv.faultsOnly_follow (hs : Inv g root I pending fuel s) (hg : g.Numbered) (ht : t.HoldsTree g)
    (hP : Guarded P g discover I) {u : VertexId} {as : List ArcId} {a : ArcId} (hu : s.Seen u)
    (has : t.arcsAt u = .ok as) (ha : a ∈ as) : Checked.FaultsOnly P (Search.follow discover g u s a) := by
  obtain ⟨x, v, hx, hv, hlt, hl⟩ := ht.exists_other hg has ha
  rw [← hs.size] at hlt
  simp only [Search.follow, hx, hv, Checked.ok_bind]
  refine .bind (.get hlt) fun seen hseen => ?_
  rw [Checked.get_eq_ok_iff] at hseen
  cases seen with
  | true => exact .pure _
  | false =>
    rw [Network.arc_eq_ok_iff] at hx
    obtain rfl : x.id = a := hg.arc_id hx
    refine .bind (hP hx hl hu (by simp [Seen, hseen]) hs.result) fun r _ => ?_
    exact .bind (.modify hlt) fun _ _ => .pure _

theorem Inv.faultsOnly_explore (hg : g.Numbered) (ht : t.HoldsTree g) (hI : Kept g discover I)
    (hP : Guarded P g discover I) (hs : Inv g root I (fun _ _ => False) fuel s) :
    Checked.FaultsOnly P (Search.explore discover g t fuel s) := by
  induction fuel generalizing s with
  | zero => exact .pure _
  | succ fuel ih =>
    rw [Search.explore]
    split
    · exact .pure _
    · next u stack hstack =>
      have hu : s.Seen u := hs.stack (by simp [hstack])
      obtain ⟨as, has⟩ := ht.exists_arcsAt (u := u) (hs.size ▸ (Array.getElem?_eq_some_iff.1 hu).1)
      simp only [has, Checked.ok_bind]
      refine .bind (.foldlM fun done a rest s' hl hs' => ?_) fun s' hs' => ih (hs.leave hg ht hI hstack has hs')
      obtain ⟨hu, hinv⟩ := hs.follows hg ht hI hstack has (fun b hb => by simp [hl, hb]) hs'
      exact hinv.faultsOnly_follow hg ht hP hu has (by simp [hl])

/-- A search of tree arcs can fault as its discoveries can. -/
theorem faultsOnly_run (hg : g.Numbered) (ht : t.HoldsTree g) (hI : Kept g discover I) (hP : Guarded P g discover I)
    (hroot : root.index < g.numVertices) {r : σ} (hr : I (· = root) r) :
    Checked.FaultsOnly P (run discover g t root r) := by
  refine .bind (.bind (.modify (by simpa using hroot)) fun _ _ => .pure _) fun s hs => ?_
  exact (inv_start hroot hr hs).faultsOnly_explore hg ht hI hP

end Search

end Transportation
