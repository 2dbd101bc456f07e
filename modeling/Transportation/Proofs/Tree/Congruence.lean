import Transportation.Proofs.Network.Push
import Transportation.Tree.Potential
/-!
# What a tree depends on

The search for potentials and the search for a cycle see the arcs without their flow and no vertex but by its number.
On networks that differ in nothing else they do the same (`SameArcs`), step by step and so from beginning to end.
-/

namespace Transportation

variable {F : Type} [Amount F] {g h : Network F}

/-- The networks have the same arcs but for their flow, and as many vertices. -/
structure SameArcs (g h : Network F) : Prop where
  numVertices : h.numVertices = g.numVertices
  arcs : h.arcs.map Arc.drained = g.arcs.map Arc.drained

namespace SameArcs

variable {β : Type}

theorem numArcs (e : SameArcs g h) : h.numArcs = g.numArcs := by
  simpa [Network.numArcs] using congrArg Array.size e.arcs

/-- A computation that does not look at the flow of an arc. -/
theorem arc_bind (e : SameArcs g h) (a : ArcId) {k : Arc F → Checked β} (hk : ∀ x, k x.drained = k x) :
    h.arc a >>= k = g.arc a >>= k := by
  refine Checked.bind_congr_of_map ?_ fun x => (hk x).symm
  unfold Network.arc
  rw [← Checked.get_map, ← Checked.get_map, e.arcs]

/-! ## Searching -/

section
variable {σ : Type} {discover : Arc F → VertexId → VertexId → σ → Checked σ}

theorem follow_eq (e : SameArcs g h) (hd : ∀ x u v r, discover x.drained u v r = discover x u v r) (u : VertexId)
    (s : Search σ) (a : ArcId) : Search.follow discover h u s a = Search.follow discover g u s a := by
  refine e.arc_bind a fun x => ?_
  simp only [hd]
  rfl

theorem explore_eq (e : SameArcs g h) (hd : ∀ x u v r, discover x.drained u v r = discover x u v r) (t : Incidence)
    (n : Nat) (s : Search σ) : Search.explore discover h t n s = Search.explore discover g t n s := by
  have hfollow : ∀ u, Search.follow discover h u = Search.follow discover g u :=
    fun u => funext fun s => funext fun a => e.follow_eq hd u s a
  induction n generalizing s with
  | zero => rfl
  | succ n ih => simp only [Search.explore, hfollow, ih]

theorem run_eq (e : SameArcs g h) (hd : ∀ x u v r, discover x.drained u v r = discover x u v r) (t : Incidence)
    (root : VertexId) (r : σ) : Search.run discover h t root r = Search.run discover g t root r := by
  simp only [Search.run, e.numVertices, e.explore_eq hd]

end

theorem potentials_eq (e : SameArcs g h) (t : Incidence) (root : VertexId) :
    t.potentials h root = t.potentials g root := by
  have hrun : ∀ r, Search.run Incidence.extendPotential h t root r = Search.run Incidence.extendPotential g t root r :=
    e.run_eq (fun _ _ _ _ => rfl) t root
  simp only [Incidence.potentials, e.numVertices, hrun]

/-! ## Pruning and walking -/

theorem prune_eq (e : SameArcs g h) (t : Incidence) (u : VertexId) (s : Pruning) :
    Pruning.prune h t u s = Pruning.prune g t u s := by
  have hrelease : Pruning.release h u = Pruning.release g u :=
    funext fun s => funext fun a => e.arc_bind a fun _ => rfl
  simp only [Pruning.prune, hrelease]

theorem steps_eq (e : SameArcs g h) (t : Incidence) (n : Nat) (s : Pruning) :
    Pruning.steps h t n s = Pruning.steps g t n s := by
  induction n generalizing s with
  | zero => rfl
  | succ n ih => simp only [Pruning.steps, e.prune_eq, ih]

theorem core_eq (e : SameArcs g h) (t : Incidence) : t.core h = t.core g := by
  have hstart : Pruning.start h t = Pruning.start g t := by
    simp only [Pruning.start, Network.vertexIds, e.numVertices]
  simp only [Incidence.core, e.numVertices, hstart, e.steps_eq]

theorem next?_eq (e : SameArcs g h) (core : Array Bool) (u : VertexId) (last : ArcId) (as : List ArcId) :
    Incidence.next? h core u last as = Incidence.next? g core u last as := by
  induction as with
  | nil => rfl
  | cons a as ih =>
    simp only [Incidence.next?, ih]
    split
    · rfl
    · exact e.arc_bind a fun _ => rfl

theorem walk?_eq (e : SameArcs g h) (t : Incidence) (core : Array Bool) (target : VertexId) (n : Nat) (u : VertexId)
    (last : ArcId) : t.walk? h core target n u last = t.walk? g core target n u last := by
  induction n generalizing u last
  case' zero =>
    rw [Incidence.walk?, Incidence.walk?]
    simp only [e.next?_eq]
  case' succ n ih =>
    rw [Incidence.walk?, Incidence.walk?]
    simp only [e.next?_eq, ih]
  all_goals
    split
    · rfl
    congr 1
    funext as
    congr 1
    funext o
    cases o with
    | none => rfl
    | some a => exact e.arc_bind a fun _ => rfl

theorem findCycle?_eq (e : SameArcs g h) (t : Incidence) (a : ArcId) : t.findCycle? h a = t.findCycle? g a := by
  unfold Incidence.findCycle?
  simp only [e.core_eq, e.numVertices, e.walk?_eq]
  congr 1
  funext core
  exact e.arc_bind a fun _ => rfl

/-! ## Tree arcs and real arcs -/

theorem ofNetwork_eq (e : SameArcs g h) : Incidence.ofNetwork h = Incidence.ofNetwork g := by
  have key : ∀ k : Network F, Incidence.ofNetwork k = (k.treeArcs.map Arc.drained).foldlM
      (fun t x => t.attach x.src x.snk x.id) ⟨Array.replicate k.numVertices [], 0⟩ := by
    intro k
    rw [List.foldlM_map]
    rfl
  have htree : h.treeArcs.map Arc.drained = g.treeArcs.map Arc.drained := by
    have hfilter : ∀ k : Network F, k.treeArcs.map Arc.drained =
        ((k.arcs.map Arc.drained).toList.filter Arc.inTree) := by
      intro k
      rw [Array.toList_map, List.filter_map]
      rfl
    rw [hfilter, hfilter g, e.arcs]
  rw [key, key g, htree, e.numVertices]

theorem findArc?_eq (e : SameArcs g h) (u v : VertexId) : h.findArc? u v = g.findArc? u v := by
  have key : ∀ k : Network F, k.findArc? u v =
      ((k.arcs.map Arc.drained).find? fun x => x.isReal && x.src == u && x.snk == v).map Arc.id := by
    intro k
    rw [Array.find?_map, Option.map_map]
    rfl
  rw [key, key g, e.arcs]

end SameArcs

end Transportation
