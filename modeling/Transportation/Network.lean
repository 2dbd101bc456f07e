import Transportation.Amount

/-!
# Transportation networks

A network is a list of vertices, each with a weight, and a list of arcs, each with a unit cost and the flow it
carries. A negative weight is a supply, any other weight a demand. Arcs name their end vertices by number, and an
arc or vertex is looked up by its position. A network made by a `Builder` numbers both by position; a network
from elsewhere may not, so the number stored in an arc is its own field.
-/

namespace Transportation

/-- The number of a vertex. -/
structure VertexId where
  index : Nat
  deriving DecidableEq, Repr

/-- The number of an arc. -/
structure ArcId where
  index : Nat
  deriving DecidableEq, Repr

/-- The first number too large to be handed out to a vertex or an arc. -/
def idLimit : Nat := Nat.pow 2 32 - 1

inductive ArcKind where
  /-- An arc of the instance. -/
  | real
  /-- An arc added by the solver, to have a spanning tree to start from. -/
  | artificial
  deriving DecidableEq, Repr

structure Vertex (F : Type) where
  id : VertexId
  weight : F
  /-- The price of one unit at this vertex, given by the spanning tree. -/
  potential : F
  deriving DecidableEq, Repr

structure Arc (F : Type) where
  id : ArcId
  src : VertexId
  snk : VertexId
  cost : F
  flow : F
  kind : ArcKind
  inTree : Bool
  deriving DecidableEq, Repr

structure Network (F : Type) where
  id : Nat
  name : String
  vertices : Array (Vertex F)
  arcs : Array (Arc F)
  deriving DecidableEq, Repr

variable {F : Type}

namespace Vertex

def isSupply [Amount F] (v : Vertex F) : Bool :=
  Amount.lt v.weight Amount.zero

end Vertex

namespace Arc

def isReal (a : Arc F) : Bool :=
  a.kind = .real

def isArtificial (a : Arc F) : Bool :=
  a.kind = .artificial

/-- The end vertex of `a` that is not `u`, for an end vertex `u`. -/
def other (a : Arc F) (u : VertexId) : Checked VertexId := do
  Checked.require (u = a.src ∨ u = a.snk) (.notIncident u.index a.id.index)
  return if u = a.src then a.snk else a.src

theorem other_eq_ok_iff {a : Arc F} {u v : VertexId} :
    a.other u = .ok v ↔ (u = a.src ∧ v = a.snk) ∨ (u ≠ a.src ∧ u = a.snk ∧ v = a.src) := by
  rw [other, Checked.require_bind_eq_ok_iff, Checked.pure_eq_ok_iff]
  by_cases h : u = a.src <;> simp [h, eq_comm]

end Arc

namespace Network

def empty : Network F :=
  ⟨0, "", #[], #[]⟩

def numVertices (g : Network F) : Nat :=
  g.vertices.size

def numArcs (g : Network F) : Nat :=
  g.arcs.size

/-! ## Look-ups -/

def vertex (g : Network F) (u : VertexId) : Checked (Vertex F) :=
  Checked.get g.vertices u.index

def arc (g : Network F) (a : ArcId) : Checked (Arc F) :=
  Checked.get g.arcs a.index

/-- The number of the vertex at position `i`. -/
def vertexAt (g : Network F) (i : Nat) : Checked VertexId := do
  Checked.require (i < g.numVertices) .invalidVertexId
  return ⟨i⟩

/-- The number of the arc at position `i`. -/
def arcAt (g : Network F) (i : Nat) : Checked ArcId := do
  Checked.require (i < g.numArcs) (.arcIdOutOfRange i g.numArcs)
  return ⟨i⟩

def vertexIds (g : Network F) : List VertexId :=
  (List.range g.numVertices).map VertexId.mk

def arcIds (g : Network F) : List ArcId :=
  (List.range g.numArcs).map ArcId.mk

def realArcs (g : Network F) : List (Arc F) :=
  g.arcs.toList.filter Arc.isReal

def artificialArcs (g : Network F) : List (Arc F) :=
  g.arcs.toList.filter Arc.isArtificial

def treeArcs (g : Network F) : List (Arc F) :=
  g.arcs.toList.filter Arc.inTree

def numTreeArcs (g : Network F) : Nat :=
  g.treeArcs.length

/-- The first real arc from `u` to `v`. -/
def findArc? (g : Network F) (u v : VertexId) : Option ArcId :=
  (g.arcs.find? fun a => a.isReal && a.src == u && a.snk == v).map Arc.id

theorem vertex_eq_ok_iff {g : Network F} {u : VertexId} {v : Vertex F} :
    g.vertex u = .ok v ↔ g.vertices[u.index]? = some v :=
  Checked.get_eq_ok_iff

theorem arc_eq_ok_iff {g : Network F} {a : ArcId} {x : Arc F} : g.arc a = .ok x ↔ g.arcs[a.index]? = some x :=
  Checked.get_eq_ok_iff

/-! ## Changes -/

def setName (g : Network F) (name : String) : Network F :=
  { g with name }

def setId (g : Network F) (id : Nat) : Network F :=
  { g with id }

def modifyArc (g : Network F) (a : ArcId) (f : Arc F → Arc F) : Checked (Network F) := do
  return { g with arcs := ← Checked.modify g.arcs a.index f }

def mapArcs (g : Network F) (f : Arc F → Arc F) : Network F :=
  { g with arcs := g.arcs.map f }

/-- The network with potentials `ps`, given in the order of the vertices. -/
def withPotentials (g : Network F) (ps : Array F) : Network F :=
  { g with vertices := g.vertices.zipWith (fun v p => { v with potential := p }) ps }

def dropArtificialArcs (g : Network F) : Network F :=
  { g with arcs := g.arcs.filter Arc.isReal }

/-- Adds an artificial tree arc from `u` to `v`, numbered by its position. -/
def addArtificialArc (g : Network F) (u v : VertexId) (cost flow : F) : Checked (Network F) := do
  Checked.require (g.numArcs < idLimit) .invalidArcId
  return { g with arcs := g.arcs.push ⟨⟨g.numArcs⟩, u, v, cost, flow, .artificial, true⟩ }

end Network

end Transportation
