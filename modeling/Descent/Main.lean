import Descent.Listing

/-!
# The command line

Lists the tokens of the file named by the only argument. A file that cannot be read, and a misuse,
are reported on the error output and by the exit status.
-/

namespace Descent.Listing

/-- Reads the file that a path leads to. -/
def readFile (path : Path) : IO (Except FileError ByteArray) := do
  try
    return .ok (← IO.FS.readBinFile (toString path))
  catch e =>
    match e with
    | .noFileOrDirectory .. => return .error (.notFound path)
    | .inappropriateType _ code _ =>
      return .error (if code = 21 then .isADirectory path else .notADirectory path)
    | _ => throw e

/-- Says how the program ended, and gives its exit status. -/
def report (program : String) : Ending → IO UInt32
  | .listed output => do
    IO.print output
    return 0
  | .misused => do
    IO.eprint (usage program)
    return 2
  | .unreadable e => do
    IO.eprintln e.message
    return 1
  | .untyped e => do
    IO.eprintln e.message
    return 1

/-- Lists the tokens of the file that the arguments name. -/
def commandLine (args : List String) : IO UInt32 := do
  let program := (← IO.appPath).fileName.getD "descent"
  match request args with
  | none => report program .misused
  | some path => do
    let path := path.expandHome ((← IO.getEnv "HOME").map Path.parse)
    match ← readFile path with
    | .error e => report program (.unreadable e)
    | .ok bytes => report program (list path bytes)

end Descent.Listing

/-- The program's entry: its arguments, and its exit status. -/
def main (args : List String) : IO UInt32 := Descent.Listing.commandLine args
