import Monkey.Text.Basic

/-!
# File paths

A path is a text with slashes. Its clean form has no empty part, no part `.`, and a part `..` only
at its start.
-/

namespace Monkey.Path

/-- The parts of a text between slashes. -/
def split : Text → List Text
  | [] => [[]]
  | b :: rest =>
    if b = 0x2f then [] :: split rest
    else match split rest with
      | [] => [[b]]
      | part :: parts => (b :: part) :: parts

/-- Put one more part on the parts so far, the last of which comes first. A part `..` takes the last
one away; above the root it has no effect. -/
def push (rooted : Bool) (parts : List Text) (part : Text) : List Text :=
  if part = [] ∨ part = text "." then parts
  else if part = text ".." then
    match parts with
    | [] => if rooted then [] else [part]
    | last :: before => if last = text ".." then part :: parts else before
  else part :: parts

/-- The shortest form of a path that means the same. -/
def clean (path : Text) : Text :=
  let rooted := path.head? = some 0x2f
  let parts := ((split path).foldl (push rooted) []).reverse
  let joined := Text.join (text "/") parts
  if rooted then text "/" ++ joined else if parts.isEmpty then text "." else joined

/-- A path inside a directory. -/
def join (directory path : Text) : Text :=
  if directory.isEmpty then (if path.isEmpty then [] else clean path)
  else if path.isEmpty then clean directory
  else clean (directory ++ text "/" ++ path)

/-- A path with the home directory in the place of a leading `~`. An empty home is unknown, and then
the path stays as it is. -/
def expandHome (home path : Text) : Text :=
  match Text.afterStart? (text "~/") path with
  | some rest => if home.isEmpty then path else join home rest
  | none => path

end Monkey.Path
