import Transportation.Command

/-!
# The program

Files, clocks and standard streams. What is printed and written is decided in `Transportation.Command`.
-/

namespace Transportation.Command

def usage : String :=
  "usage: transportation [--dantzig] [--first-eligible] [--block] [--floating-point] [--verbose] FILE"

/-- The contents of a file, if it can be read. -/
def contents? (file : String) : IO (Option (List UInt8)) := do
  try
    return some (← IO.FS.readBinFile file).toList
  catch _ =>
    return none

/-- The seconds since `start`. -/
def secondsSince (start : Nat) : IO Float := do
  return Float.ofNat ((← IO.monoNanosNow) - start) / 1e9

def finish (file : String) (r : Report) : IO UInt32 := do
  for line in r.stdout do
    IO.println line
  for line in r.stderr do
    IO.eprintln line
  if let some text := r.solution then
    IO.FS.writeFile (file ++ ".sol") text
  return r.exitCode.toUInt32

/-- Answers the request with amounts of the type `F`. -/
def answer (F : Type) [ReportedAmount F] (r : Request) : IO UInt32 := do
  let start ← IO.monoNanosNow
  match load (F := F) r (← contents? r.file) with
  | .error e => finish r.file e
  | .ok g =>
    for line in instanceLines r (Double.write (← secondsSince start)) g do
      IO.println line
    let start ← IO.monoNanosNow
    match solve r g with
    | .error e => finish r.file e
    | .ok (state, s) =>
      finish r.file (solutionReport r (Double.writeFixed 2 (← secondsSince start)) state s)

end Transportation.Command

open Transportation Command in
def main (args : List String) : IO UInt32 := do
  match Request.ofArguments? args with
  | none =>
    IO.eprintln usage
    return 1
  | some r => if .floatingPoint ∈ r.flags then answer Float r else answer Signed64 r
