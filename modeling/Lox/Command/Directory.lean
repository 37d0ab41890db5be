import Lox.Command.Report

/-! # The working directory

  A directory of files without subdirectories, in which paths are looked up. A path may name
  the directory itself, and may start with `./` any number of times.
-/

namespace Lox.Command

/-- What is found at a path. -/
inductive Entry where
  /-- A file with its bytes. -/
  | file (bytes : List UInt8)
  /-- Something that opens but cannot be read. -/
  | unreadable (refusal : Refusal)
  /-- Something that does not open. -/
  | unopened (refusal : Refusal)
  deriving DecidableEq, Repr

/-- A directory of files. -/
structure Directory where
  /-- The files by name, each name once. -/
  files : List (String × List UInt8)
  deriving DecidableEq, Repr

namespace Directory

/-- Splits a path at its slashes. -/
def components (path : String) : List String :=
  (path.toList.splitOn '/').map String.ofList

/-- The components of a path that lead somewhere. -/
def steps (path : String) : List String :=
  (components path).filter fun step => step != "" && step != "."

/-- Whether a path starts at the root of the file system. -/
def isAbsolute (path : String) : Bool :=
  path.toList.head? == some '/'

/-- Whether a path ends as only that of a directory may. -/
def endsAsDirectory (path : String) : Bool :=
  match (components path).getLast? with
  | some last => last == "" || last == "."
  | none => false

/-- Where a path leads. -/
inductive Target where
  /-- To a directory. -/
  | directory
  /-- To a file of this directory, or to where one could be. -/
  | name (file : String)
  /-- Nowhere. -/
  | nowhere (refusal : Refusal)

/-- Where a path leads. There is nothing beyond a file, and no other directory within reach
    than the ones around this one. -/
def target (d : Directory) (path : String) : Target :=
  match steps path with
  | [] => .directory
  | [".."] => .directory
  | [name] =>
    if isAbsolute path then .nowhere .absent
    else if endsAsDirectory path then
      .nowhere (if (d.files.lookup name).isSome then .notDirectory else .absent)
    else .name name
  | name :: _ =>
    .nowhere (if !isAbsolute path && (d.files.lookup name).isSome then .notDirectory
      else .absent)

/-- What is found at a path. -/
def entry (d : Directory) (path : String) : Entry :=
  match d.target path with
  | .directory => .unreadable .directory
  | .nowhere refusal => .unopened refusal
  | .name name =>
    match d.files.lookup name with
    | some bytes => .file bytes
    | none => .unopened .absent

/-- Makes an empty file at a path, in place of the one that was there. -/
def create (d : Directory) (path : String) : Except Refusal Directory :=
  match d.target path with
  | .directory => .error .directory
  | .nowhere refusal => .error refusal
  | .name name => .ok ⟨d.files.filter (·.1 != name) ++ [(name, [])]⟩

/-- The names of the files that another directory does not have. -/
def namesBeyond (d before : Directory) : List String :=
  (d.files.map (·.1)).filter fun name => (before.files.lookup name).isNone

end Directory

end Lox.Command
