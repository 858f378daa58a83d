import Motif.CommandLine.Run

/-!
The command as a program: it looks up what the arguments name, runs, and prints.
-/

namespace Motif.CommandLine

def usage : String :=
  "usage: motif [-h] [--schema] [--pretty] [--trace] [--stdin] [--input-file FILE]\n" ++
  "             [--max-steps N] [pattern] [input]\n"

/-- The content of a file, if it can be read. -/
def readFile? (name : String) : IO (Option String) := do
  try
    let text ← IO.FS.readFile name
    return some text
  catch _ => return none

/-- The names of input files among the arguments. -/
def fileNames : List Token → List String
  | [] => []
  | .long .inputFile (some name) :: rest => name :: fileNames rest
  | .long .inputFile none :: .plain name :: rest => name :: fileNames rest
  | _ :: rest => fileNames rest

/-- Everything that the command can look at. -/
def lookAround (texts : List String) : IO Surroundings := do
  let names := fileNames ((classifyAll texts).getD [])
  let files ← names.mapM fun name => return (name, ← readFile? name)
  let settings ← [LimitVariable.maxDepth.name, LimitVariable.maxSteps.name].mapM fun name =>
    return (name, ← IO.getEnv name)
  let file (name : String) : Option String := (Entries.find? name files).bind id
  let environment (name : String) : Option String := (Entries.find? name settings).bind id
  let wantsStdin : Bool := match Arguments.ofStrings (fun name => (file name).isSome) texts with
    | .ok a => a.input.isNone && (a.stdin || a.inputFile == some (.value "-"))
    | .error _ => false
  let stdin ← if wantsStdin then (← IO.getStdin).readToEnd else pure ""
  return ⟨stdin, file, environment⟩

end Motif.CommandLine

open Motif.CommandLine

def main (texts : List String) : IO UInt32 := do
  match run (← lookAround texts) texts with
  | .ok (.finished exit stdout stderr) =>
    IO.print stdout
    IO.eprint stderr
    return exit.toUInt32
  | .ok (.stopped stop) =>
    if stop = .help then IO.print usage else IO.eprint usage
    return stop.exit.toUInt32
  | .error failure =>
    IO.eprintln failure.message
    return 1
