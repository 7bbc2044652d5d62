import LambdaLayout.Text.Utf8

/-!
Files in directories. A path is followed name by name from the top directory down, and each name but
the last must be that of a directory. Writing changes one file, or makes one in a directory that is
there.
-/

namespace LambdaLayout

/-- Why a path could not be used. -/
inductive PathFault where
  /-- There is nothing of that name. -/
  | notFound
  /-- The path goes on below a file. -/
  | notDirectory
  /-- The path leads to a directory. -/
  | isDirectory
  /-- The file may not be written. -/
  | readOnly
  deriving DecidableEq

/-- The words of the fault. -/
def PathFault.message : PathFault → Text
  | .notFound => "No such file or directory (os error 2)".toList
  | .notDirectory => "Not a directory (os error 20)".toList
  | .isDirectory => "Is a directory (os error 21)".toList
  | .readOnly => "Permission denied (os error 13)".toList

/-- A place: the names from the top directory down to it. -/
abbrev Place := List Text

/-- What can be at a place. -/
inductive Entry where
  /-- A file with its content, which possibly may not be changed. -/
  | file (content : Bytes) (readOnly : Bool)
  /-- A directory. -/
  | directory
  deriving DecidableEq, Inhabited

/-- The files and directories below the top directory. -/
structure FileSystem where
  /-- What is at which place. -/
  entries : List (Place × Entry) := []
  deriving DecidableEq, Inhabited

namespace FileSystem

/-- What is at a place. The top directory is always there. -/
def entry? (files : FileSystem) (place : Place) : Option Entry :=
  if place.isEmpty then some .directory
  else (files.entries.find? fun pair => pair.1 == place).map fun pair => pair.2

/-- The place of a name in a directory. Nothing and a dot name the directory itself, and two dots
the one above it. -/
def below (directory : Place) (name : Text) : Place :=
  if name = [] ∨ name = ['.'] then directory
  else if name = ['.', '.'] then directory.dropLast
  else directory ++ [name]

/-- Follows names from a place on. -/
def follow (files : FileSystem) (here : Place) : List Text → Except PathFault Place
  | [] => .ok here
  | name :: rest =>
    match files.entry? here with
    | none => .error .notFound
    | some (.file _ _) => .error .notDirectory
    | some .directory => follow files (below here name) rest

/-- The place that a path leads to. The last name need not be there. -/
def locate (files : FileSystem) (path : Text) : Except PathFault Place :=
  if path.isEmpty then .error .notFound else follow files [] (List.splitOn '/' path)

/-- The content of the file at a path. -/
def read (files : FileSystem) (path : Text) : Except PathFault Bytes := do
  let place ← files.locate path
  match files.entry? place with
  | none => throw .notFound
  | some .directory => throw .isDirectory
  | some (.file content _) => return content

/-- Changes what is at a place, or adds it when there is nothing. -/
def put (files : FileSystem) (place : Place) (entry : Entry) : FileSystem :=
  if (files.entry? place).isSome then
    ⟨files.entries.map fun pair => if pair.1 == place then (place, entry) else pair⟩
  else ⟨files.entries ++ [(place, entry)]⟩

/-- Writes a file. -/
def write (files : FileSystem) (path : Text) (content : Bytes) : Except PathFault FileSystem := do
  let place ← files.locate path
  match files.entry? place with
  | some .directory => throw .isDirectory
  | some (.file _ true) => throw .readOnly
  | some (.file _ false) => return files.put place (.file content false)
  | none => return files.put place (.file content false)

end FileSystem

end LambdaLayout
