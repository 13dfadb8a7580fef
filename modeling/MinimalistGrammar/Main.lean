import MinimalistGrammar.CommandLine.Run

/-!
The program: it parses the conditions of a corpus and prints a report on each.
-/

namespace MinimalistGrammar.CommandLine

/-- Reads a file, with the reason of the system if that fails. -/
def readFile : Reader IO := fun path => do
  try
    return .ok (← IO.FS.readFile path)
  catch
    | .noFileOrDirectory _ code details => return .error s!"{details} (os error {code})"
    | e => return .error (toString e)

def runMain (args : List String) : IO UInt32 := do
  match Arguments.ofList args with
  | .error .helpRequested =>
    IO.println UsageError.helpRequested.message
    return 0
  | .error e =>
    IO.eprintln s!"error: {e.message}"
    return 2
  | .ok arguments =>
    match ← Task.ofArguments readFile arguments with
    | .error e =>
      IO.eprintln s!"Error: {e.message}"
      e.cause.forM fun cause => IO.eprintln s!"\nCaused by:\n    {cause}"
      return 1
    | .ok task =>
      task.conditions.forM fun (index, condition) => IO.print (task.report index condition)
      return 0

end MinimalistGrammar.CommandLine

def main (args : List String) : IO UInt32 := MinimalistGrammar.CommandLine.runMain args
