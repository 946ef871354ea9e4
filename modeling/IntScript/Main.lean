import IntScript.Cli.Session

/-!
# The command

The outermost layer: it lends the files and streams of the machine to a session and passes on what
the session leaves behind.
-/

namespace IntScript

/-- The file fault of a failed operation of the machine. -/
def fileFault : IO.Error → Cli.FileFault
  | .noFileOrDirectory .. => .notFound
  | .inappropriateType _ 21 _ => .isDirectory
  | .inappropriateType _ 20 _ => .notADirectory
  | e => .other (toString e)

/-- The files and the input of the machine. -/
def machineSurroundings : Cli.Surroundings IO where
  readFile path := do
    match ← (IO.FS.readBinFile path).toBaseIO with
    | .ok bytes => return .ok bytes.data.toList
    | .error e => return .error (fileFault e)
  writeFile path bytes := do
    match ← (IO.FS.writeBinFile path ⟨bytes.toArray⟩).toBaseIO with
    | .ok _ => return .ok ()
    | .error e => return .error (fileFault e)
  input := do
    let stdin ← IO.getStdin
    let bytes ← stdin.readBinToEnd
    return .ofBytes bytes.data.toList false

end IntScript

/-- Runs the command. -/
def main (args : List String) : IO UInt32 := do
  let result ← IntScript.Cli.session IntScript.machineSurroundings
    IntScript.Program.amplePatience args
  let stdout ← IO.getStdout
  let stderr ← IO.getStderr
  stdout.putStr result.stdout
  stdout.flush
  stderr.putStr result.stderr
  return result.exit.toUInt32
