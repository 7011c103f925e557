import TreeCompiler.CommandLine

/-!
The command itself: the arguments come from the process, and the output goes to the standard
output or to a file.
-/

namespace TreeCompiler.CommandLine

/-- Why a file could not be opened, with the number that the system gives. -/
def cause : IO.Error → String
  | .noFileOrDirectory _ code details => details ++ " (os error " ++ toString code ++ ")"
  | .permissionDenied _ code details => details ++ " (os error " ++ toString code ++ ")"
  | .inappropriateType _ code details => details ++ " (os error " ++ toString code ++ ")"
  | e => toString e

/-- Creates the file, so that the run knows whether it can be written. -/
def create (path : String) : IO (Except String (Option String)) := do
  try
    IO.FS.writeBinFile path ByteArray.empty
    return .ok (some path)
  catch e => return .error (cause e)

/-- Whether the arguments ask for a file, and which. -/
def outputFile? (args : List String) : Option String :=
  match parse args with
  | .ok (.build b) => if b.output == "-" then none else some b.output
  | _ => none

end TreeCompiler.CommandLine

open TreeCompiler.CommandLine in
def main (args : List String) : IO UInt32 := do
  let created ← match outputFile? args with
    | some path => create path
    | none => pure (.ok none)
  let report := run (fun _ => created) args
  (← IO.getStdout).write report.stdout
  IO.eprint report.stderr
  for (path, content) in report.files do
    IO.FS.writeBinFile path content
  return report.status
