import Transportation.Network.Builder
import Transportation.Numeral.Integer
import Transportation.Text.ReadError

/-!
# Instance files

The first line of an instance file is the number of vertices, the second has one weight for each vertex, and every
further line describes an arc: its source, its sink and its cost. Vertices are numbered from zero. An arc joins two
different vertices. The name of a network is written as a comment, so it is not read back.
-/

namespace Transportation

open Text

namespace Instance

variable {F : Type}

/-! ## Reading -/

/-- The next line, of the given number, and the lines after it. At the end of the text the error is laid to the
line `last`. -/
def nextLine (last : Nat) (expected : String) : List Line → Except ReadError (Nat × List Word × List Line)
  | [] => .error (.format last (.endOfFile expected))
  | .malformed :: _ => .error (.access .invalidUtf8)
  | .words line w ws :: rest => .ok (line, w :: ws, rest)

def checkVertex (n line x : Nat) : Except ReadError VertexId :=
  if x < n then .ok ⟨x⟩ else .error (.data line (.unknownVertex x n))

section
variable [Numeral F]

/-- The link of two of `n` vertices. -/
def readLink (n : Nat) : Line → Except ReadError (Link F)
  | .malformed => .error (.access .invalidUtf8)
  | .words line w ws => do
    let (u, ws) ← nextNumber Numeral.readCount line (w :: ws)
    let (v, ws) ← nextNumber Numeral.readCount line ws
    let (cost, ws) ← nextNumber Numeral.read line ws
    endOfLine line ws
    let src ← checkVertex n line u
    let snk ← checkVertex n line v
    if u = v then throw (.data line (.loop u))
    return ⟨src, snk, cost⟩

/-- The weights of the vertices, and the lines after them. -/
def readWeights (ls : List Line) : Except ReadError (List F × List Line) := do
  let (line, ws, ls) ← nextLine 0 "number of vertices" ls
  let (n, ws) ← nextNumber Numeral.readCount line ws
  endOfLine line ws
  let (line, ws, ls) ← nextLine line "vertex weights" ls
  let weights ← ws.mapM (readNumber Numeral.read line)
  if weights.length ≠ n then throw (.data line (.weightCount n weights.length))
  return (weights, ls)

/-- Adds the links of `n` vertices that the lines describe, each as soon as it is read. -/
def addLinks (n : Nat) (b : Builder F) : List Line → Checked (Except ReadError (Builder F))
  | [] => return .ok b
  | l :: ls =>
    match readLink n l with
    | .error e => return .error e
    | .ok link => do addLinks n (← b.addArc link).2 ls

end

/-- Reads a network from the bytes of an instance file. -/
def read [Amount F] [Numeral F] (bytes : List UInt8) : Checked (Except ReadError (Network F)) :=
  match readWeights (lines bytes) with
  | .error e => return .error e
  | .ok (weights, ls) => do
    let (_, b) ← Builder.empty.addVertices weights
    return (← addLinks weights.length b ls).map Builder.network

/-! ## Writing -/

section
variable [Numeral F]

def arcLine (a : Arc F) : String :=
  s!"{a.src.index} {a.snk.index} {Numeral.write a.cost}"

/-- Writes the vertices and the real arcs of a network. -/
def write (g : Network F) : String :=
  let header := if g.name.isEmpty then [] else ["// " ++ g.name]
  let weights := " ".intercalate (g.vertices.toList.map fun v => Numeral.write v.weight)
  unlines (header ++ [toString g.numVertices, weights] ++ g.realArcs.map arcLine)

end

end Instance

end Transportation
