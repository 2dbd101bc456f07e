import Transportation.Network
import Transportation.Numeral
import Transportation.Text.Line

/-!
# Networks in words
-/

namespace Transportation.Network

variable {F : Type} [Numeral F]

def describeVertex (v : Vertex F) : String :=
  s!"  vertex {v.id.index}: weight {Numeral.write v.weight}"

def describeArc (a : Arc F) : String :=
  let kind := if a.isArtificial then "artificial " else ""
  let ends := s!"{a.src.index} -> {a.snk.index}"
  let tree := if a.inTree then " (tree)" else ""
  s!"  {kind}arc {a.id.index}: {ends} cost {Numeral.write a.cost} flow {Numeral.write a.flow}{tree}"

/-- One line for the network, each vertex and each arc. -/
def describe (g : Network F) : String :=
  Text.unlines
    (s!"graph {g.id} ({g.name})" ::
      (g.vertices.toList.map describeVertex ++ g.arcs.toList.map describeArc))

end Transportation.Network
