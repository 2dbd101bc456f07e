import Transportation.Amount.Signed
import Transportation.Json
import Transportation.Network

/-!
# Networks as JSON

A network is written as an object with all that it holds, numbers of vertices and arcs included. Reading takes
these as they are: it checks the form and the ranges of numbers, and not that the network makes sense.
-/

namespace Transportation

variable {max : Nat}

namespace Network

def vertexFields : List String :=
  ["id", "weight", "potential"]

def arcFields : List String :=
  ["id", "src", "snk", "cost", "flow", "kind", "in_tree"]

def networkFields : List String :=
  ["id", "name", "vertices", "arcs"]

end Network

def ArcKind.name : ArcKind → String
  | real => "Real"
  | artificial => "Artificial"

/-! ## Reading -/

namespace Network

/-- The number of a vertex or an arc. -/
def idOfJson? (x : Json) : Option Nat :=
  x.nat? (Nat.pow 2 32)

def amountOfJson? (x : Json) : Option (Signed max) :=
  x.int?.bind Signed.ofInt?

def kindOfJson? (x : Json) : Option ArcKind := do
  let name ← x.alternative?
  [ArcKind.real, ArcKind.artificial].find? fun kind => kind.name = name

def vertexOfJson? (x : Json) : Option (Vertex (Signed max)) := do
  match ← x.fields? vertexFields with
  | [id, weight, potential] =>
    return ⟨⟨← idOfJson? id⟩, ← amountOfJson? weight, ← amountOfJson? potential⟩
  | _ => none

def arcOfJson? (x : Json) : Option (Arc (Signed max)) := do
  match ← x.fields? arcFields with
  | [id, src, snk, cost, flow, kind, inTree] =>
    return {
      id := ⟨← idOfJson? id⟩
      src := ⟨← idOfJson? src⟩
      snk := ⟨← idOfJson? snk⟩
      cost := ← amountOfJson? cost
      flow := ← amountOfJson? flow
      kind := ← kindOfJson? kind
      inTree := ← inTree.bool? }
  | _ => none

def ofJson? (x : Json) : Option (Network (Signed max)) := do
  match ← x.fields? networkFields with
  | [id, name, vertices, arcs] =>
    let id ← id.nat? (Nat.pow 2 64)
    let name ← name.string?
    let vertices ← (← vertices.array?).mapM vertexOfJson?
    let arcs ← (← arcs.array?).mapM arcOfJson?
    return ⟨id, name, vertices.toArray, arcs.toArray⟩
  | _ => none

/-- The network of a JSON text. -/
def ofJsonText? (text : String) : Option (Network (Signed max)) := do
  ofJson? (← Json.parse? text)

/-! ## Writing -/

def writeInt (a : Signed max) : String :=
  toString a.val

def vertexJson (v : Vertex (Signed max)) : String :=
  Json.writeObject (vertexFields.zip [toString v.id.index, writeInt v.weight, writeInt v.potential])

def arcJson (a : Arc (Signed max)) : String :=
  Json.writeObject (arcFields.zip
    [toString a.id.index, toString a.src.index, toString a.snk.index, writeInt a.cost, writeInt a.flow,
      Json.quote a.kind.name, toString a.inTree])

/-- The JSON text of a network, without blanks. -/
def toJsonText (g : Network (Signed max)) : String :=
  Json.writeObject (networkFields.zip
    [toString g.id, Json.quote g.name, Json.writeArray (g.vertices.toList.map vertexJson),
      Json.writeArray (g.arcs.toList.map arcJson)])

end Network

end Transportation
