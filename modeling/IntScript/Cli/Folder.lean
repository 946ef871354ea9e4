import IntScript.Cli.Session

/-!
# Folders in memory

A folder holds files and no other folders. It lies within further folders, of which nothing is known
but that they are there: no file is found in them, and a file that is written to one of them is out
of sight.

A path is followed step by step. An empty step and a single dot stay where they are, two dots lead
to the folder around, and any other step would have to lead into a folder of that name. A path that
starts with a slash starts outside.
-/

namespace IntScript.Cli

/-- The files of a folder with their bytes. -/
abbrev Folder := List (String × List UInt8)

namespace Folder

/-- Where one can stand. -/
inductive Place where
  /-- In the folder. -/
  | inside
  /-- In one of the folders around it. -/
  | outside
deriving DecidableEq

/-- What a path leads to. -/
inductive Target where
  /-- A folder. -/
  | folder
  /-- A place for a file of the given name. -/
  | file (place : Place) (name : String)
deriving DecidableEq

/-- Whether a step leads to a folder by itself, without a name. -/
def isUnnamed (step : String) : Bool := step == "" || step == "." || step == ".."

/-- The place behind a step that has to lead into a folder. -/
def enter (folder : Folder) (place : Place) (step : String) : Except FileFault Place :=
  if step == ".." then .ok .outside
  else if isUnnamed step then .ok place
  else if place = .inside ∧ folder.any (·.1 == step) then .error .notADirectory
  else .error .notFound

/-- Follows a path. All steps but the last have to lead into folders. -/
def follow (folder : Folder) (path : String) : Except FileFault Target := do
  let steps := path.splitOn "/"
  let start := if 1 < steps.length ∧ steps.head? = some "" then Place.outside else Place.inside
  let place ← steps.dropLast.foldlM folder.enter start
  let last := steps.getLast?.getD ""
  return if isUnnamed last then .folder else .file place last

/-- The bytes of a file. -/
def read (folder : Folder) (path : String) : Except FileFault (List UInt8) := do
  if path.isEmpty then .error .notFound
  else match ← folder.follow path with
    | .folder => .error .isDirectory
    | .file .outside _ => .error .notFound
    | .file .inside name =>
      match folder.lookup name with
      | some bytes => .ok bytes
      | none => .error .notFound

/-- A path without the slashes at its end. -/
def trimSlashes (path : String) : String :=
  String.ofList (path.toList.reverse.dropWhile (· == '/')).reverse

/-- The folder with the bytes of a file. A path that ends with a slash names a folder, whether or
not there is one. -/
def write (folder : Folder) (path : String) (bytes : List UInt8) : Except FileFault Folder := do
  if path.isEmpty then .error .notFound
  else
    let trimmed := trimSlashes path
    match ← folder.follow trimmed with
    | .folder => .error .isDirectory
    | .file place name =>
      if trimmed != path then .error .isDirectory
      else match place with
        | .outside => .ok folder
        | .inside => .ok ((name, bytes) :: folder.filter (·.1 != name))

end Folder

/-- The surroundings of a session in a folder, with the given input. -/
def Surroundings.ofFolder (input : Input) : Surroundings (StateM Folder) where
  readFile path := return (← get).read path
  writeFile path bytes := do
    match (← get).write path bytes with
    | .ok folder =>
      set folder
      return .ok ()
    | .error fault => return .error fault
  input := return input

end IntScript.Cli
