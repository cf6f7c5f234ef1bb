import StateSpace.CommandLine

/-!
# Program

Reads the file that the command line names, prints the answer, and tells by the exit code how it went: 0 for an answer,
1 for a failure, 2 for a command line that cannot be understood.
-/

open StateSpace.CommandLine

/-- The text of a file, if it can be read. -/
def readFile? (path : String) : IO (Option String) := do
  try
    return some (← IO.FS.readFile path)
  catch _ => return none

def main (args : List String) : IO UInt32 := do
  match parse args with
  | .error e =>
    IO.eprintln s!"error: {e.message}"
    return 2
  | .ok invocation =>
    let content ← match invocation.file? with
      | some path => readFile? path
      | none => pure none
    match invocation.run content with
    | .ok text =>
      IO.print text
      return 0
    | .error chain =>
      IO.eprintln ("Error: " ++ ": ".intercalate chain)
      return 1
