import IntScript.Cli.Arguments
import IntScript.Program
import IntScript.Report

/-!
# Sessions

A session is one use of the command: it reads a program, compiles it, and dumps or runs it as the
command line asks. The surroundings of a session are its files and its standard input. They can be
those of the machine, or a folder that is kept in memory.
-/

namespace IntScript.Cli

/-- Why a file cannot be read or written. -/
inductive FileFault where
  | notFound
  | isDirectory
  | notADirectory
  | notUtf8
  /-- Any other reason, in words. -/
  | other (reason : String)
deriving DecidableEq

/-- The wording of a file fault. -/
def FileFault.message : FileFault → String
  | .notFound => "No such file or directory (os error 2)"
  | .isDirectory => "Is a directory (os error 21)"
  | .notADirectory => "Not a directory (os error 20)"
  | .notUtf8 => "stream did not contain valid UTF-8"
  | .other reason => reason

/-- The files and the input that a session works with. -/
structure Surroundings (m : Type → Type) where
  /-- The bytes of a file. -/
  readFile : String → m (Except FileFault (List UInt8))
  /-- Writes the bytes of a file. -/
  writeFile : String → List UInt8 → m (Except FileFault Unit)
  /-- The standard input. -/
  input : m Input

/-- What a session leaves behind. -/
structure Result where
  /-- The exit code. -/
  exit : Nat
  /-- What was written to standard output. -/
  stdout : String
  /-- What was written to standard error. -/
  stderr : String
deriving DecidableEq

/-- The version of the command. -/
def versionText : String := "paracl 0.1.0\n"

/-- The explanation of the command. -/
def helpText : String :=
  "ParaCL interpreter\n\n" ++
  "Usage: paracl [OPTIONS] <INPUT_FILE>\n\n" ++
  "Arguments:\n" ++
  "  <INPUT_FILE>  Program to run. Its input is read from stdin\n\n" ++
  "Options:\n" ++
  "  -b, --build               Parse and resolve the program without running it\n" ++
  "  -d, --dump-tree           Write the syntax tree as a Graphviz digraph\n" ++
  "      --dump-out <FILE>     Where to write the tree dump [default: out.dot]\n" ++
  "      --max-iterations <N>  Stop with an error after this many loop iterations\n" ++
  "  -h, --help                Print help\n" ++
  "  -V, --version             Print version\n"

/-- A line without the spaces at its end. -/
def trimSpaces (line : String) : String :=
  String.ofList (line.toList.reverse.dropWhile (· == ' ')).reverse

/-- A problem as it stands in a file error. A cross marks its first line and a bar all others. -/
def problemText (problem : String) : String :=
  "  × " ++ "\n  │ ".intercalate ((problem.splitOn "\n").map trimSpaces)

/-- The end of a session that could not use a file. -/
def fileError (code problem : String) (fault : FileFault) : Result :=
  ⟨1, "", "Error: paracl::" ++ code ++ "\n\n" ++ problemText problem ++ "\n  ╰─▶ " ++
    fault.message ++ "\n\n"⟩

/-- The text of a file. -/
def sourceText (bytes : Except FileFault (List UInt8)) : Except FileFault String :=
  match bytes with
  | .error fault => .error fault
  | .ok bytes =>
    match Text.decode? bytes with
    | some cs => .ok (String.ofList cs)
    | none => .error .notUtf8

/-- The end of a session that runs a program. -/
def runProgram (options : Options) (patience : Nat) (program : Program) (input : Input) :
    Result :=
  match program.run { maxIterations := options.maxIterations } patience input {} with
  | (.done _, m) => ⟨0, m.output.text, ""⟩
  | (.failed e, m) => ⟨1, m.output.text, Report.render true options.path e⟩
  | (.unfinished, m) => ⟨1, m.output.text, ""⟩

/-- The end of a session behind the dump. -/
def finishProgram {m : Type → Type} [Monad m] (around : Surroundings m) (options : Options)
    (patience : Nat) (program : Program) : m Result := do
  if options.build then
    return ⟨0, "Build finished, no errors\n", ""⟩
  else
    let input ← around.input
    return runProgram options patience program input

/-- A session that processes a program. -/
def process {m : Type → Type} [Monad m] (around : Surroundings m) (options : Options)
    (patience : Nat) : m Result := do
  match sourceText (← around.readFile options.path) with
  | .error fault => return fileError "read_source" ("cannot read " ++ options.path) fault
  | .ok source =>
    match Program.compile source with
    | .error e => return ⟨1, "", Report.render true options.path e⟩
    | .ok program =>
      if options.dumpTree then
        match ← around.writeFile options.dumpOut (Text.encode program.dump.toList) with
        | .error fault =>
          return fileError "write_dump" ("cannot write tree dump to " ++ options.dumpOut) fault
        | .ok _ => finishProgram around options patience program
      else finishProgram around options patience program

/-- A session. A misused command line ends it with exit code 2; how the command is used is not
repeated then. -/
def session {m : Type → Type} [Monad m] (around : Surroundings m) (patience : Nat)
    (args : List String) : m Result :=
  match Command.ofArguments args with
  | .help => return ⟨0, helpText, ""⟩
  | .version => return ⟨0, versionText, ""⟩
  | .misuse => return ⟨2, "", ""⟩
  | .process options => process around options patience

end IntScript.Cli
