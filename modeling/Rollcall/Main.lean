import Rollcall.CommandLine.Report

/-!
# The program

Reads the arguments and the configuration file, and prints what comes of them. A connection to a
store over the network is not part of this program, so joining a cluster ends with an error.
-/

namespace Rollcall

/-- The text of a file, if it can be read. -/
def readText (file : String) : IO (Option String) := do
  try
    return some (← IO.FS.readFile file)
  catch _ =>
    return none

/-- The outcome of arguments. -/
def CommandLine.outcomeOf (args : List String) : IO CommandLine.Outcome := do
  match CommandLine.read args with
  | none => return .misused
  | some c =>
    let text ← match c.file? with
      | some file => readText file
      | none => pure none
    return c.outcome fun _ => text

end Rollcall

open Rollcall in
/-- Run the program. -/
def main (args : List String) : IO UInt32 := do
  let o ← CommandLine.outcomeOf args
  IO.print o.stdout
  IO.eprint o.stderr
  match o with
  | .joins .. =>
    IO.eprintln "Error: no connection to the store"
    return 1
  | o => return UInt32.ofNat o.exitCode
