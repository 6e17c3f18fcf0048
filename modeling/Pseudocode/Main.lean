import Pseudocode.CommandLine

/-!
# The program

Hands the arguments, the program file and the standard input to the command line
and carries its report out.
-/

namespace Pseudocode.CommandLine

/-- The text of the file that the arguments name, if it can be read. -/
def namedFile (arguments : List String) : IO (Option (String × String)) := do
  match (Options.ofArguments arguments).bind Options.program with
  | none => return none
  | some program =>
    let path := normalisePath program
    try
      return some (path, ← IO.FS.readFile path)
    catch _ => return none

end Pseudocode.CommandLine

open Pseudocode.CommandLine in
/-- Runs the command line. -/
def main (arguments : List String) : IO UInt32 := do
  let file ← namedFile arguments
  let input ← (← IO.getStdin).readToEnd
  let report := respond arguments (fun path => file.toList.lookup path) input
  IO.print report.output
  IO.eprint report.errors
  if let some lines := report.trace then
    IO.FS.writeFile "debug.txt" (unlines lines)
  match report.ending with
  | .exit status => return status.toUInt32
  | .noFile => return 1
  | .halted (.fault fault) =>
    IO.eprintln fault.message
    return 1
  | .halted _ => return 1
