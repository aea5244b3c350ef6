import Monkey.Files.Path

/-!
# Files

Reading a file yields its contents or the reason why it cannot be read. A tree of files held in
memory answers every path the way a disk does: a path is followed part by part, and every part but
the last has to name a directory.
-/

namespace Monkey

/-- Why a file cannot be read. -/
inductive FileProblem where
  | missing
  | directory
  | notDirectory
  deriving DecidableEq, Repr

/-- The wording of why a file cannot be read. -/
def FileProblem.message (path : Text) : FileProblem → Text
  | .missing => text "open " ++ path ++ text ": no such file or directory"
  | .directory => text "read " ++ path ++ text ": is a directory"
  | .notDirectory => text "open " ++ path ++ text ": not a directory"

/-- Files held in memory: the contents for each path from the working directory. -/
structure FileTree where
  files : List (List Text × Text) := []

namespace FileTree

/-- The tree of files with given paths. -/
def ofList (files : List (Text × Text)) : FileTree :=
  ⟨files.map fun f => (Path.split (Path.clean f.1), f.2)⟩

/-- The contents of the file at a place. -/
def contents? (t : FileTree) (place : List Text) : Option Text :=
  t.files.lookup place

/-- Whether a place is a directory: the working directory is one, and so is all that has a file
inside. -/
def isDirectory (t : FileTree) (place : List Text) : Bool :=
  place.isEmpty || t.files.any fun f => place.isPrefixOf f.1 && place.length < f.1.length

/-- Follow the parts of a path from a place that exists. What is above the working directory is
unknown, and counts as missing. -/
def follow (t : FileTree) (place : List Text) : List Text → Except FileProblem (List Text)
  | [] => .ok place
  | part :: rest =>
    if !t.isDirectory place then .error .notDirectory
    else if part = [] ∨ part = text "." then t.follow place rest
    else if part = text ".." then
      if place.isEmpty then .error .missing else t.follow place.dropLast rest
    else
      let next := place ++ [part]
      if t.isDirectory next || (t.contents? next).isSome then t.follow next rest
      else .error .missing

/-- Read a file. -/
def read (t : FileTree) (path : Text) : Except FileProblem Text :=
  if path.isEmpty ∨ path.head? = some 0x2f then .error .missing
  else do
    let place ← t.follow [] (Path.split path)
    match t.contents? place with
    | some contents => return contents
    | none => throw .directory

end FileTree

end Monkey
