import Transportation.Amount.Double
import Transportation.Instance
import Transportation.Numeral.Double
import Transportation.Simplex.Solve
import Transportation.Solution
import Transportation.Text.Quoted

/-!
# The command

The command reads an instance file, solves the instance and writes the solution beside the file. What it prints is
computed here, from the contents of the file and the times that were taken.
-/

namespace Transportation

open Text

/-! ## Options -/

namespace Command

inductive Flag where
  | dantzig
  | firstEligible
  | block
  | floatingPoint
  | verbose
  deriving DecidableEq, Repr

def Flag.ofArgument? : String → Option Flag
  | "--dantzig" | "-d" => some dantzig
  | "--first-eligible" | "-f" => some firstEligible
  | "--block" | "-b" => some block
  | "--floating-point" => some floatingPoint
  | "--verbose" | "-v" => some verbose
  | _ => none

structure Request where
  file : String
  flags : List Flag

/-- The request made by the arguments, which name one file. -/
def Request.ofArguments? (args : List String) : Option Request :=
  let (flags, files) := args.partition fun arg => (Flag.ofArgument? arg).isSome
  match files with
  | [file] => if file.startsWith "-" then none else some ⟨file, flags.filterMap Flag.ofArgument?⟩
  | _ => none

/-- The pricing rule. If several are asked for, the least reduced cost comes first and blocks come last. -/
def Request.pricing (r : Request) : Pricing :=
  if .dantzig ∈ r.flags then .complete
  else if .firstEligible ∈ r.flags then .roundRobin
  else if .block ∈ r.flags then .block
  else .complete

end Command

/-! ## Number types -/

/-- What the command needs to know of a number type. -/
class ReportedAmount (F : Type) extends Amount F, Numeral F where
  typeName : String
  /-- Amounts at most this far from zero count as zero. -/
  tolerance : F
  toDouble : F → Float

instance : ReportedAmount Signed64 where
  typeName := "isize"
  tolerance := Amount.zero
  toDouble a := Float.ofInt a.val

instance : ReportedAmount Float where
  typeName := "f64"
  tolerance := 1e-9
  toDouble x := x

namespace Command

/-! ## Reports -/

/-- What a run leaves behind. -/
structure Report where
  stdout : List String
  stderr : List String
  /-- The text of the solution file, if it was written. -/
  solution : Option String
  exitCode : Nat

/-- How an error of the solver is shown. -/
def describeSolveError : SolveError → String
  | .unbalanced => "Unbalanced"
  | .infeasible artificial => s!"Infeasible \x7b artificial: {artificial} \x7d"
  | .unbounded => "Unbounded"
  | .iterationLimit limit => s!"IterationLimit \x7b limit: {limit} \x7d"
  | .noSpanningTree => "NoSpanningTree"

def describeAccessError : AccessError → String
  | .notFound => "Os \x7b code: 2, kind: NotFound, message: \"No such file or directory\" \x7d"
  | .invalidUtf8 => "Error \x7b kind: InvalidData, message: \"stream did not contain valid UTF-8\" \x7d"

/-- How an error of the reader is shown. -/
def describeReadError : ReadError → String
  | .access cause => s!"Io({describeAccessError cause})"
  | .format line cause => s!"Format \x7b line: {line}, msg: {quote cause.message} \x7d"
  | .data line cause => s!"Data \x7b line: {line}, msg: {quote cause.message} \x7d"

/-- The end of a run by an error. -/
def Report.failed (description : String) : Report :=
  ⟨[], ["Error: " ++ description], none, 1⟩

/-- The end of a run by a fault. -/
def Report.faulted (fault : Fault) : Report :=
  ⟨[], [fault.message], none, 101⟩

/-- The report of a run that has printed `lines` before. -/
def Report.after (lines : List String) (r : Report) : Report :=
  { r with stdout := lines ++ r.stdout }

/-! ## Reading -/

/-- The last component of a path. -/
def fileName? (path : String) : Option String :=
  match ((path.splitOn "/").filter fun part => part ≠ "" && part ≠ ".").getLast? with
  | some ".." => none
  | name? => name?

section
variable {F : Type} [Amount F] [Numeral F]

/-- The network in the instance file, which bears the name of the file. -/
def readNamed (file : String) : Option (List UInt8) → Checked (Except ReadError (Network F))
  | none => return .error (.access .notFound)
  | some bytes => do
    let r ← Instance.read bytes
    return r.map fun g =>
      match fileName? file with
      | some name => g.setName name
      | none => g

end

variable {F : Type} [ReportedAmount F]

def load (r : Request) (bytes? : Option (List UInt8)) : Except Report (Network F) :=
  match readNamed r.file bytes? with
  | .error fault => .error (.faulted fault)
  | .ok (.error e) => .error (.failed (describeReadError e))
  | .ok (.ok g) => .ok g

/-- What is printed of an instance once it has been read. -/
def instanceLines (r : Request) (readTime : String) (g : Network F) : List String :=
  let suppliers := g.vertices.countP Vertex.isSupply
  [s!"Instance            : {r.file}",
    s!"Read Time (seconds) : {readTime}",
    s!"Value type          : {ReportedAmount.typeName F}",
    s!"Number of suppliers : {suppliers}",
    s!"Number of customers : {g.numVertices - suppliers}",
    s!"Number of arcs      : {g.numArcs}"]

/-! ## Solving -/

/-- The options of the solver. -/
def options (r : Request) : Options F :=
  { Options.default with pricing := r.pricing, zero := ReportedAmount.tolerance }

def solve (r : Request) (g : Network F) : Except Report (SolutionState × Simplex F) :=
  match ({ Simplex.new g with options := options r } : Simplex F).run Simplex.solve with
  | .error fault => .error (.faulted fault)
  | .ok (.error e, _) => .error (.failed (describeSolveError e))
  | .ok (.ok state, s) => .ok (state, s)

def stateName : SolutionState → String
  | .unknown => "Unknown"
  | .optimal => "Optimal"
  | .degenerate => "Degenerate"

/-- The text of the solution file. -/
def solutionText (solveTime : String) (s : Simplex F) : Checked String := do
  let header := unlines
    ["// Solved with a transportation network simplex",
      s!"// instance            : {s.input.name}",
      s!"// solution time       : {solveTime} seconds",
      s!"// number of iterations: {s.pivots}"]
  return header ++ (← Solution.write s.solution)

/-- What is printed and written of a solution. -/
def solutionReport (r : Request) (solveTime : String) (state : SolutionState) (s : Simplex F) : Report :=
  let opening := ["", s!"Solution state      : {stateName state}"]
  match s.solution.value with
  | .error fault => (Report.faulted fault).after opening
  | .ok value =>
    let warning :=
      if state = .degenerate then ["Warning             : artificial arcs remained in the initial tree"] else []
    let lines := opening ++
      [s!"Value               : {Double.writeFixed 2 (ReportedAmount.toDouble value)}",
        s!"Time (seconds)      : {solveTime}",
        s!"Iterations (total)  : {s.pivots}"] ++ warning ++
      ["", s!"Write solution to   : {r.file}.sol"]
    match solutionText solveTime s with
    | .error fault => (Report.faulted fault).after lines
    | .ok text => ⟨lines, [], some text, 0⟩

/-- The report of a whole run, given the contents of the file, if there is one, and the times taken. -/
def report (F : Type) [ReportedAmount F] (r : Request) (bytes? : Option (List UInt8))
    (readTime solveTime : String) : Report :=
  match load (F := F) r bytes? with
  | .error e => e
  | .ok g =>
    Report.after (instanceLines r readTime g) <|
      match solve r g with
      | .error e => e
      | .ok (state, s) => solutionReport r solveTime state s

end Command

end Transportation
