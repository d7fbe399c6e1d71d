import StackLift.Command.Run

/-!
# The program

Runs the command line on the disk. Reports go to standard output and failures to
standard error.
-/

namespace StackLift

def readText (path : String) : IO (Option String) := do
  try
    return some (← IO.FS.readFile path)
  catch _ =>
    return none

def printFailure (failure : Command.Failure) : IO Unit := do
  IO.eprintln ("Error: " ++ failure.message)
  match failure.cause? with
  | some cause =>
    IO.eprintln ""
    IO.eprintln "Caused by:"
    IO.eprintln ("    " ++ cause)
  | none => pure ()

end StackLift

/-- Runs the command that the arguments ask for in the current directory. -/
def main (args : List String) : IO UInt32 := do
  let directory ← IO.currentDir
  let outcome ← StackLift.Command.run StackLift.readText directory.toString args
  IO.print outcome.output
  match outcome.failure with
  | some failure => StackLift.printFailure failure
  | none => pure ()
  return outcome.exitCode
