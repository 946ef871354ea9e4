import IntScript.Text.Decimal

/-!
# Command line arguments

The arguments are read from left to right, and the first mistake or request for information ends
the reading. A flag of one letter may be bundled with others behind one hyphen; the value of an
option follows it as the next argument or behind an equals sign. No flag, option or file may be
given twice.
-/

namespace IntScript.Cli

/-- What the command line asks for when a program is to be processed. -/
structure Options where
  /-- Stop after compiling. -/
  build : Bool
  /-- Write a dump of the tree. -/
  dumpTree : Bool
  /-- The file that the dump is written to. -/
  dumpOut : String
  /-- The number of loop iterations after which a run is stopped. -/
  maxIterations : Option Nat
  /-- The file that holds the program. -/
  path : String
deriving DecidableEq

/-- What the command line asks for. -/
inductive Command where
  /-- To process a program. -/
  | process (options : Options)
  /-- To explain how the command is used. -/
  | help
  /-- To tell the version. -/
  | version
  /-- Nothing that makes sense. -/
  | misuse
deriving DecidableEq

/-- What has been read of a command line. -/
structure Draft where
  /-- Whether to stop after compiling. -/
  build : Bool := false
  /-- Whether to write a dump. -/
  dumpTree : Bool := false
  /-- The file for the dump. -/
  dumpOut : Option String := none
  /-- The limit of loop iterations. -/
  maxIterations : Option Nat := none
  /-- The file that holds the program. -/
  path : Option String := none

namespace Draft

/-- The result of reading an argument: more is to be read, or the command is known. -/
abbrev Read := Except Command Draft

/-- The command when all arguments have been read. -/
def finish (p : Draft) : Command :=
  match p.path with
  | some path =>
    .process ⟨p.build, p.dumpTree, p.dumpOut.getD "out.dot", p.maxIterations, path⟩
  | none => .misuse

/-- Notes that compiling is enough. -/
def setBuild (p : Draft) : Read :=
  if p.build then .error .misuse else .ok { p with build := true }

/-- Notes that a dump is wanted. -/
def setDumpTree (p : Draft) : Read :=
  if p.dumpTree then .error .misuse else .ok { p with dumpTree := true }

/-- Notes the file for the dump. -/
def setDumpOut (p : Draft) (value : String) : Read :=
  if p.dumpOut.isSome || value.isEmpty then .error .misuse
  else .ok { p with dumpOut := some value }

/-- Notes the limit of loop iterations. -/
def setMaxIterations (p : Draft) (value : String) : Read :=
  match p.maxIterations, Decimal.unsigned64? value.toList with
  | none, some n => .ok { p with maxIterations := some n }
  | _, _ => .error .misuse

/-- Notes the file that holds the program. -/
def setPath (p : Draft) (value : String) : Read :=
  if p.path.isSome || value.isEmpty then .error .misuse else .ok { p with path := some value }

/-- Reads flags of one letter. -/
def letters (p : Draft) : List Char → Read
  | [] => .ok p
  | 'b' :: cs => do letters (← p.setBuild) cs
  | 'd' :: cs => do letters (← p.setDumpTree) cs
  | 'h' :: _ => .error .help
  | 'V' :: _ => .error .version
  | _ => .error .misuse

/-- Reads a flag by its full name. -/
def flag (p : Draft) (name : String) : Read :=
  match name with
  | "build" => p.setBuild
  | "dump-tree" => p.setDumpTree
  | "help" => .error .help
  | "version" => .error .version
  | _ => .error .misuse

/-- Reads an option with its value. -/
def option (p : Draft) (name value : String) : Read :=
  match name with
  | "dump-out" => p.setDumpOut value
  | "max-iterations" => p.setMaxIterations value
  | _ => .error .misuse

/-- Reads arguments that are file names only. -/
def paths (p : Draft) : List String → Read
  | [] => .ok p
  | a :: as => do paths (← p.setPath a) as

end Draft

/-- The parts of which a command line is made up. -/
inductive Argument where
  /-- A full name, with a value behind an equals sign if there is one. -/
  | long (name : String) (value : Option String)
  /-- Letters behind one hyphen. -/
  | short (letters : List Char)
  /-- Anything else. -/
  | plain (text : String)

/-- Tells what an argument is by its first characters. A lone hyphen is plain. -/
def Argument.ofString (a : String) : Argument :=
  match a.toList with
  | '-' :: '-' :: cs =>
    let name := String.ofList (cs.takeWhile (· != '='))
    match cs.dropWhile (· != '=') with
    | _ :: value => .long name (some (String.ofList value))
    | [] => .long name none
  | '-' :: c :: cs => .short (c :: cs)
  | _ => .plain a

/-- Whether an option of the given name takes a value. -/
def takesValue (name : String) : Bool := name == "dump-out" || name == "max-iterations"

/-- Reads arguments into what has been read before. An option whose value is missing may stand
last, or before another flag. -/
def readArguments (p : Draft) (pending : Option String) :
    List Argument → Except Command Draft
  | [] => if pending.isSome then .error .misuse else .ok p
  | a :: as =>
    match pending with
    | some name =>
      match a with
      | .plain value => do readArguments (← p.option name value) none as
      | _ => .error .misuse
    | none =>
      match a with
      | .long name none =>
        if takesValue name then readArguments p (some name) as
        else do readArguments (← p.flag name) none as
      | .long name (some value) => do readArguments (← p.option name value) none as
      | .short cs => do readArguments (← p.letters cs) none as
      | .plain text => do readArguments (← p.setPath text) none as

/-- The command that a command line stands for. Two hyphens alone divide flags from file names. -/
def Command.ofArguments (args : List String) : Command :=
  let before := args.takeWhile (· != "--")
  let behind := (args.dropWhile (· != "--")).drop 1
  let result := do
    let p ← readArguments {} none (before.map Argument.ofString)
    p.paths behind
  match result with
  | .ok p => p.finish
  | .error command => command

end IntScript.Cli
