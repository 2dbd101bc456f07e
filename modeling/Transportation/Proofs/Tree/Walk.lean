import Mathlib.Data.List.Chain
import Transportation.Tree.Cycle
/-!
# Walks along arcs

An `ArcSet` forgets everything of a set of arcs but their ends. Arcs may be walked either way, parallel arcs are
told apart by their numbers. Two vertices are `Connected` if a walk leads from one to the other. The main facts
say what happens when an arc is taken away: nothing, if its ends stay connected (`Connected.without`), as they do
when the arc lies on a closed walk that uses no arc twice (`Connected.without_of_cycle`).
-/

namespace Transportation

theorem ArcId.ext {a b : ArcId} (h : a.index = b.index) : a = b := by
  cases a; cases b; simp_all

theorem VertexId.ext {u v : VertexId} (h : u.index = v.index) : u = v := by
  cases u; cases v; simp_all

/-- The same arc, walked the other way. -/
def Step.reverse (s : Step) : Step :=
  { s with forward := !s.forward }

/-- A set of arcs, by the ends of each. -/
@[ext]
structure ArcSet where
  ends : ArcId → Option (VertexId × VertexId)

namespace ArcSet

variable {T U : ArcSet} {u v w x y : VertexId} {s s' : Step} {c d : List Step} {a : ArcId}

/-- The step walks an arc of the set from `u` to `v`. -/
def Leads (T : ArcSet) (s : Step) (u v : VertexId) : Prop :=
  T.ends s.arc = some (if s.forward then (u, v) else (v, u))

/-- The steps lead from `u` to `v`, each from where the one before has ended. -/
def Walk (T : ArcSet) : VertexId → List Step → VertexId → Prop
  | u, [], v => u = v
  | u, s :: c, v => ∃ w, T.Leads s u w ∧ Walk T w c v

def Connected (T : ArcSet) (u v : VertexId) : Prop :=
  ∃ c, T.Walk u c v

/-- The set without the arc `a`. -/
def without (T : ArcSet) (a : ArcId) : ArcSet :=
  ⟨fun b => if b = a then none else T.ends b⟩

/-- The arcs of `T` are arcs of `U`, with the same ends. -/
def Sub (T U : ArcSet) : Prop :=
  ∀ {a p}, T.ends a = some p → U.ends a = some p

/-! ## Steps -/

theorem Leads.reverse (h : T.Leads s u v) : T.Leads s.reverse v u := by
  unfold Leads Step.reverse at *
  cases hs : s.forward <;> simp_all

theorem Leads.unique (h : T.Leads s u v) (h' : T.Leads s x y) : x = u ∧ y = v := by
  unfold Leads at *
  cases hs : s.forward <;> simp_all

/-- Two steps along one arc go the same way or opposite ways. -/
theorem Leads.same_arc (h : T.Leads s u v) (h' : T.Leads s' x y) (e : s.arc = s'.arc) :
    (x = u ∧ y = v) ∨ (x = v ∧ y = u) := by
  unfold Leads at *
  rw [e, h'] at h
  cases hs : s.forward <;> cases hs' : s'.forward <;> simp_all

theorem Leads.sub (h : T.Leads s u v) (hTU : T.Sub U) : U.Leads s u v :=
  hTU h

theorem leads_without_iff : (T.without a).Leads s u v ↔ T.Leads s u v ∧ s.arc ≠ a := by
  unfold Leads without
  by_cases h : s.arc = a <;> simp [h]

theorem without_sub (T : ArcSet) (a : ArcId) : (T.without a).Sub T := by
  intro b p h
  unfold without at h
  by_cases hb : b = a <;> simp_all

theorem Sub.without (h : T.Sub U) (a : ArcId) : (T.without a).Sub (U.without a) := by
  intro b p hb
  unfold ArcSet.without at hb ⊢
  by_cases hba : b = a
  · simp [hba] at hb
  · simp only [hba, if_false] at hb ⊢
    exact h hb

/-! ## Walks -/

theorem walk_append : T.Walk u (c ++ d) v ↔ ∃ w, T.Walk u c w ∧ T.Walk w d v := by
  induction c generalizing u with
  | nil => simp [Walk]
  | cons s c ih =>
    simp only [List.cons_append, Walk, ih]
    constructor
    · rintro ⟨x, hs, w, hc, hd⟩; exact ⟨w, ⟨x, hs, hc⟩, hd⟩
    · rintro ⟨w, ⟨x, hs, hc⟩, hd⟩; exact ⟨x, hs, w, hc, hd⟩

theorem walk_singleton : T.Walk u [s] v ↔ T.Leads s u v := by
  simp [Walk]

theorem Walk.reverse (h : T.Walk u c v) : T.Walk v (c.map Step.reverse).reverse u := by
  induction c generalizing u with
  | nil => exact Eq.symm h
  | cons s c ih =>
    obtain ⟨w, hs, hc⟩ := h
    simp only [List.map_cons, List.reverse_cons]
    exact walk_append.2 ⟨w, ih hc, walk_singleton.2 hs.reverse⟩

theorem Walk.sub (h : T.Walk u c v) (hTU : T.Sub U) : U.Walk u c v := by
  induction c generalizing u with
  | nil => exact h
  | cons s c ih =>
    obtain ⟨w, hs, hc⟩ := h
    exact ⟨w, hs.sub hTU, ih hc⟩

/-- A walk that does not use the arc `a` does not need it. -/
theorem walk_without_iff : (T.without a).Walk u c v ↔ T.Walk u c v ∧ a ∉ c.map Step.arc := by
  induction c generalizing u with
  | nil => simp [Walk]
  | cons s c ih =>
    simp only [Walk, leads_without_iff, ih, List.map_cons, List.mem_cons, not_or]
    constructor
    · rintro ⟨w, ⟨hs, ha⟩, hc, hn⟩; exact ⟨⟨w, hs, hc⟩, Ne.symm ha, hn⟩
    · rintro ⟨⟨w, hs, hc⟩, ha, hn⟩; exact ⟨w, ⟨hs, Ne.symm ha⟩, hc, hn⟩

/-- A walk through `a`, cut where it uses `a` first. -/
theorem Walk.split (h : T.Walk u c v) (ha : a ∈ c.map Step.arc) :
    ∃ p s q x y, c = p ++ s :: q ∧ s.arc = a ∧ a ∉ p.map Step.arc ∧
      T.Walk u p x ∧ T.Leads s x y ∧ T.Walk y q v := by
  induction c generalizing u with
  | nil => simp at ha
  | cons s c ih =>
    obtain ⟨w, hs, hc⟩ := h
    by_cases hsa : s.arc = a
    · exact ⟨[], s, c, u, w, rfl, hsa, by simp, rfl, hs, hc⟩
    · have ha' : a ∈ c.map Step.arc := by
        simpa [Ne.symm hsa] using ha
      obtain ⟨p, s', q, x, y, rfl, hs', hp, hwp, hl, hq⟩ := ih hc ha'
      exact ⟨s :: p, s', q, x, y, rfl, hs', by simp_all [Ne.symm hsa], ⟨w, hs, hwp⟩, hl, hq⟩

/-- A closed walk goes on from where a step has ended. -/
theorem Walk.exists_next (h : T.Walk u c u) (hs : s ∈ c) (hl : T.Leads s x y) : ∃ s' ∈ c, ∃ z, T.Leads s' y z := by
  obtain ⟨p, q, rfl⟩ := List.append_of_mem hs
  obtain ⟨_, hp, _, hl', hq⟩ := walk_append.1 h
  obtain ⟨rfl, rfl⟩ := hl.unique hl'
  cases q with
  | cons s' q =>
    obtain ⟨z, hs', -⟩ := hq
    exact ⟨s', by simp, z, hs'⟩
  | nil =>
    -- The step is the last one, so the walk goes on with its first.
    obtain rfl : _ = u := hq
    cases p with
    | nil =>
      obtain rfl : _ = _ := hp
      exact ⟨s, by simp, _, hl⟩
    | cons s' p =>
      obtain ⟨z, hs', -⟩ := hp
      exact ⟨s', by simp, z, hs'⟩

/-- A closed walk comes from somewhere to where a step starts. -/
theorem Walk.exists_previous (h : T.Walk u c u) (hs : s ∈ c) (hl : T.Leads s x y) :
    ∃ s' ∈ c, ∃ w, T.Leads s' w x := by
  have hmem : s.reverse ∈ (c.map Step.reverse).reverse := by
    simpa using ⟨s, hs, rfl⟩
  obtain ⟨s', hs', z, hl'⟩ := h.reverse.exists_next hmem hl.reverse
  obtain ⟨s'', hs'', rfl⟩ : ∃ r ∈ c, r.reverse = s' := by simpa using hs'
  exact ⟨s'', hs'', z, by simpa [Step.reverse] using hl'.reverse⟩

/-! ## The vertices of a walk -/

/-- The vertex from which a step along an arc of the set starts. -/
def start? (T : ArcSet) (s : Step) : Option VertexId :=
  (T.ends s.arc).map fun e => if s.forward then e.1 else e.2

/-- The vertices from which the steps start, in order. -/
def starts (T : ArcSet) (c : List Step) : List VertexId :=
  c.filterMap T.start?

theorem start?_eq_some_iff : T.start? s = some u ↔ ∃ v, T.Leads s u v := by
  unfold start? Leads
  rcases T.ends s.arc with _ | ⟨x, y⟩
  · simp
  · cases s.forward <;> simp

theorem mem_starts_iff : u ∈ T.starts c ↔ ∃ s ∈ c, ∃ v, T.Leads s u v := by
  simp only [starts, List.mem_filterMap, start?_eq_some_iff]

theorem starts_cons (h : T.Leads s u v) (c : List Step) : T.starts (s :: c) = u :: T.starts c :=
  List.filterMap_cons_some (start?_eq_some_iff.2 ⟨v, h⟩)

theorem starts_append (c d : List Step) : T.starts (c ++ d) = T.starts c ++ T.starts d :=
  List.filterMap_append

/-- In a larger set a walk starts its steps from the same vertices. -/
theorem Walk.starts_sub (h : T.Walk u c v) (hTU : T.Sub U) : U.starts c = T.starts c := by
  induction c generalizing u with
  | nil => rfl
  | cons s c ih =>
    obtain ⟨w, hs, hc⟩ := h
    rw [starts_cons hs, starts_cons (hs.sub hTU), ih hc]

theorem Walk.length_starts (h : T.Walk u c v) : (T.starts c).length = c.length := by
  induction c generalizing u with
  | nil => rfl
  | cons s c ih =>
    obtain ⟨w, hs, hc⟩ := h
    rw [starts_cons hs, List.length_cons, List.length_cons, ih hc]

/-- A walk, cut at a vertex that it visits. -/
theorem Walk.cut (h : T.Walk u c v) (hx : x ∈ T.starts c ++ [v]) :
    ∃ p q, c = p ++ q ∧ T.Walk u p x ∧ T.Walk x q v := by
  rcases List.mem_append.1 hx with hx | hx
  · obtain ⟨s, hs, y, hl⟩ := mem_starts_iff.1 hx
    obtain ⟨p, q, rfl⟩ := List.append_of_mem hs
    obtain ⟨_, hp, z, hl', hq⟩ := walk_append.1 h
    obtain ⟨rfl, -⟩ := hl.unique hl'
    exact ⟨p, s :: q, rfl, hp, z, hl', hq⟩
  · obtain rfl := List.mem_singleton.1 hx
    exact ⟨c, [], by simp, h, rfl⟩

theorem Walk.mem_visited (h : T.Walk u c v) : u ∈ T.starts c ++ [v] := by
  cases c with
  | nil =>
    obtain rfl : u = v := h
    simp
  | cons s c =>
    obtain ⟨w, hs, -⟩ := h
    simp [starts_cons hs]

/-- A walk that does not visit `x` uses no arc at `x`. -/
theorem Walk.arc_not_mem (h : T.Walk u c v) (hx : x ∉ T.starts c ++ [v]) (hs : T.Leads s x y) :
    s.arc ∉ c.map Step.arc := by
  intro ha
  obtain ⟨p, s', q, z, z', rfl, hs', -, -, hl, hq⟩ := h.split ha
  rcases hs.same_arc hl hs'.symm with ⟨rfl, -⟩ | ⟨-, rfl⟩
  · exact hx (List.mem_append_left _ (mem_starts_iff.2 ⟨s', by simp, z', hl⟩))
  · have hmem := hq.mem_visited
    rw [starts_append, starts_cons hl] at hx
    simp only [List.mem_append, List.mem_cons] at hx hmem
    tauto

/-- A walk that visits no vertex twice uses no arc twice. -/
theorem Walk.nodup_arcs (h : T.Walk u c v) (hn : (T.starts c ++ [v]).Nodup) : (c.map Step.arc).Nodup := by
  induction c generalizing u with
  | nil => simp
  | cons s c ih =>
    obtain ⟨w, hs, hc⟩ := h
    rw [starts_cons hs, List.cons_append, List.nodup_cons] at hn
    exact List.nodup_cons.2 ⟨hc.arc_not_mem hn.1 hs, ih hc hn.2⟩

/-! ## Connection -/

@[refl] theorem Connected.refl (T : ArcSet) (u : VertexId) : T.Connected u u :=
  ⟨[], rfl⟩

theorem Connected.symm (h : T.Connected u v) : T.Connected v u := by
  obtain ⟨c, hc⟩ := h
  exact ⟨_, hc.reverse⟩

theorem Connected.trans (h : T.Connected u v) (h' : T.Connected v w) : T.Connected u w := by
  obtain ⟨c, hc⟩ := h
  obtain ⟨d, hd⟩ := h'
  exact ⟨c ++ d, walk_append.2 ⟨v, hc, hd⟩⟩

theorem Leads.connected (h : T.Leads s u v) : T.Connected u v :=
  ⟨[s], walk_singleton.2 h⟩

theorem Connected.sub (h : T.Connected u v) (hTU : T.Sub U) : U.Connected u v := by
  obtain ⟨c, hc⟩ := h
  exact ⟨c, hc.sub hTU⟩

/-- What is connected is so by a walk that visits no vertex twice. -/
theorem Connected.exists_path (h : T.Connected u v) : ∃ c, T.Walk u c v ∧ (T.starts c ++ [v]).Nodup := by
  obtain ⟨c, hc⟩ := h
  induction c generalizing u with
  | nil => exact ⟨[], hc, by simp [starts]⟩
  | cons s c ih =>
    obtain ⟨w, hs, hc⟩ := hc
    obtain ⟨d, hd, hn⟩ := ih hc
    by_cases hu : u ∈ T.starts d ++ [v]
    · -- The walk comes back to where it starts, so it can begin there.
      obtain ⟨p, q, rfl, -, hq⟩ := hd.cut hu
      rw [starts_append, List.append_assoc] at hn
      exact ⟨q, hq, (List.nodup_append.1 hn).2.1⟩
    · exact ⟨s :: d, ⟨w, hs, hd⟩, by rw [starts_cons hs]; exact List.nodup_cons.2 ⟨hu, hn⟩⟩

/-- What holds at a vertex and is passed on along every arc holds at all vertices connected to it. -/
theorem Connected.induction {P : VertexId → Prop} (h : T.Connected u v) (hu : P u)
    (hP : ∀ s x y, T.Leads s x y → P x → P y) : P v := by
  obtain ⟨c, hc⟩ := h
  induction c generalizing u with
  | nil => exact hc ▸ hu
  | cons s c ih =>
    obtain ⟨w, hs, hc⟩ := hc
    exact ih (hP s u w hs hu) hc

/-- An arc whose ends stay connected can be taken away. -/
theorem Connected.without (h : T.Connected u v) (hs : T.Leads s x y) (hxy : (T.without s.arc).Connected x y) :
    (T.without s.arc).Connected u v := by
  refine h.induction (P := (T.without s.arc).Connected u) (.refl _ _) ?_
  intro s' x' y' hs' hu
  by_cases e : s'.arc = s.arc
  · rcases hs.same_arc hs' e.symm with ⟨rfl, rfl⟩ | ⟨rfl, rfl⟩
    · exact hu.trans hxy
    · exact hu.trans hxy.symm
  · exact hu.trans (leads_without_iff.2 ⟨hs', e⟩).connected

/-- An arc of a closed walk that uses no arc twice can be taken away. -/
theorem Connected.without_of_cycle (h : T.Connected u v) (hc : T.Walk w c w) (hn : (c.map Step.arc).Nodup)
    (ha : a ∈ c.map Step.arc) : (T.without a).Connected u v := by
  obtain ⟨p, s, q, x, y, rfl, rfl, hp, hwp, hs, hwq⟩ := hc.split ha
  have hq : s.arc ∉ q.map Step.arc := by
    simp only [List.map_append, List.map_cons] at hn
    exact (List.nodup_cons.1 (List.nodup_append.1 hn).2.1).1
  have hx : (T.without s.arc).Connected w x := ⟨p, walk_without_iff.2 ⟨hwp, hp⟩⟩
  have hy : (T.without s.arc).Connected y w := ⟨q, walk_without_iff.2 ⟨hwq, hq⟩⟩
  exact h.without hs (hy.trans hx).symm

end ArcSet

end Transportation
