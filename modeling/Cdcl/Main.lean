import Cdcl.CommandLine

/-!
# The program

Reads the formula that the command line names, answers, and exits.
-/

namespace Cdcl.CommandLine
set_option autoImplicit false

def load (path : String) : IO Source := do
  try
    let bytes ← IO.FS.readBinFile path
    pure (.ofBytes bytes)
  catch _ => pure .missing

/-- Prints a report and gives its exit code. -/
def printReport (r : Report) : IO UInt32 := do
  (← IO.getStdout).putStr r.output
  (← IO.getStderr).putStr r.errors
  pure r.code.toUInt32

end Cdcl.CommandLine

open Cdcl.CommandLine in
/-- Runs the program on the arguments of the command line. -/
def main (args : List String) : IO UInt32 := do
  match Options.ofArguments args with
  | none => printReport usageReport
  | some o => do
    let source ← load o.path
    printReport (respond o source)
