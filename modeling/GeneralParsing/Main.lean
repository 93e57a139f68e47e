import GeneralParsing.CommandLine.Run

/-!
# The command

Reads the arguments, the grammar file and, if there are no inputs among the arguments, the
standard input, and prints what `Command.run` makes of them.
-/

open GeneralParsing

/-- The text of a file, if it can be read. -/
def readFile? (path : String) : IO (Option String) := do
  try return some (← IO.FS.readFile path)
  catch _ => return none

/-- The **command**. -/
def main (arguments : List String) : IO UInt32 := do
  match Arguments.read arguments with
  | .error e =>
    (← IO.getStderr).putStr ("error: " ++ e.message ++ "\n")
    return 2
  | .ok a =>
    let file ← readFile? a.grammar
    let input ← if a.inputs.isEmpty then (← IO.getStdin).readToEnd else pure ""
    let outcome := Command.run a file input
    (← IO.getStdout).putStr outcome.output
    (← IO.getStderr).putStr outcome.errors
    return outcome.code.toUInt32
