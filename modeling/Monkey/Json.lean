import Monkey.Text.Utf8

/-!
# JSON documents

A document and its printed form: two blanks for each level, one field or element on each line. Field
order is the order in which the fields are given. Strings are safe to embed in markup, so the signs
that it uses are escaped too, and a stray byte is printed as U+FFFD.
-/

namespace Monkey

/-- A JSON document. -/
inductive Json where
  | null
  | bool (b : Bool)
  | int (n : Int)
  | str (t : Text)
  | list (elements : List Json)
  | object (fields : List (String × Json))
  deriving Inhabited

namespace Json

/-- A rune inside a JSON string. -/
def escaped (r : Text.Rune) : Text :=
  let c := r.shown
  match c.toNat with
  | 0x22 => text "\\\""
  | 0x5c => text "\\\\"
  | 0x08 => text "\\b"
  | 0x0c => text "\\f"
  | 0x0a => text "\\n"
  | 0x0d => text "\\r"
  | 0x09 => text "\\t"
  | n =>
    if n < 0x20 ∨ n = 0x3c ∨ n = 0x3e ∨ n = 0x26 ∨ n = 0x2028 ∨ n = 0x2029 then
      text "\\u" ++ Text.hex 4 n
    else String.utf8EncodeChar c

/-- A JSON string. -/
def quoted (t : Text) : Text :=
  text "\"" ++ t.runes.flatMap escaped ++ text "\""

/-- A new line at a level of nesting. -/
def newline (level : Nat) : Text :=
  0x0a :: List.replicate (2 * level) 0x20

/-- Printed parts between brackets: each on a line of its own, one level in. -/
def bracketed (level : Nat) (opening closing : Text) (parts : List Text) : Text :=
  if parts.isEmpty then opening ++ closing
  else
    opening ++ newline (level + 1) ++ Text.join (text "," ++ newline (level + 1)) parts
      ++ newline level ++ closing

mutual

/-- A document printed at a level of nesting. -/
def layout (level : Nat) : Json → Text
  | .null => text "null"
  | .bool true => text "true"
  | .bool false => text "false"
  | .int n => Text.ofInt n
  | .str t => quoted t
  | .list elements => bracketed level (text "[") (text "]") (layoutElements (level + 1) elements)
  | .object fields =>
    bracketed level (text "\x7b") (text "\x7d") (layoutFields (level + 1) fields)

/-- Printed elements. -/
def layoutElements (level : Nat) : List Json → List Text
  | [] => []
  | e :: rest => layout level e :: layoutElements level rest

/-- Printed fields. -/
def layoutFields (level : Nat) : List (String × Json) → List Text
  | [] => []
  | (key, value) :: rest =>
    (quoted (text key) ++ text ": " ++ layout level value) :: layoutFields level rest

end

/-- A printed document, ended by a newline. -/
def print (j : Json) : Text :=
  layout 0 j ++ text "\n"

end Json

end Monkey
