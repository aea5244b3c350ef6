import Monkey.Text.Basic

/-!
# Keys and tables

A hash is keyed by integers, booleans and strings. Two keys are the same if they have the same type
and the same 64-bit code. The code of an integer is its two's complement and that of a boolean is a
bit, so these differ for different keys; the code of a string is a fold over its bytes, which two
strings may share.

A table holds its entries in the order in which their keys were first inserted.
-/

namespace Monkey

/-- The types of value, with the names that messages use. -/
inductive Tag where
  | integer
  | boolean
  | null
  | string
  | array
  | hash
  | function
  | builtin
  | returnValue
  | error
  deriving DecidableEq, Repr, Inhabited

/-- The name of a type. -/
def Tag.name : Tag → Text
  | .integer => text "INTEGER"
  | .boolean => text "BOOLEAN"
  | .null => text "NULL"
  | .string => text "STRING"
  | .array => text "ARRAY"
  | .hash => text "HASH"
  | .function => text "FUNCTION"
  | .builtin => text "BUILTIN"
  | .returnValue => text "RETURN_VALUE"
  | .error => text "ERROR"

/-- A value that can be a key. -/
inductive Key where
  | int (n : Int64)
  | bool (b : Bool)
  | str (t : Text)
  deriving DecidableEq, Repr, Inhabited

/-- The 64-bit code of a text: starting from an offset, each byte is mixed in by exclusive or, and
the result is multiplied by a prime (FNV-1a). -/
def Text.code (t : Text) : UInt64 :=
  t.foldl (fun h b => (h ^^^ b.toUInt64) * 1099511628211) 14695981039346656037

/-- What identifies a key in a table: its type and its code. -/
structure HashKey where
  tag : Tag
  code : UInt64
  deriving DecidableEq, Repr, Inhabited

namespace Key

/-- The type of a key. -/
def tag : Key → Tag
  | .int _ => .integer
  | .bool _ => .boolean
  | .str _ => .string

/-- The code of a key. -/
def code : Key → UInt64
  | .int n => n.toUInt64
  | .bool b => if b then 1 else 0
  | .str t => t.code

/-- A key as people see it. -/
def inspect : Key → Text
  | .int n => Text.ofInt n.toInt
  | .bool b => Text.ofBool b
  | .str t => t

/-- What identifies a key in a table. -/
def hashKey (k : Key) : HashKey :=
  ⟨k.tag, k.code⟩

end Key

/-- A table: keys with what is stored under them, in the order of first insertion. -/
abbrev Table (α : Type) := List (Key × α)

namespace Table

variable {α : Type}

/-- Store a value. An entry with the same hash key keeps its place, but gets the new key and the new
value. -/
def insert (k : Key) (v : α) : Table α → Table α
  | [] => [(k, v)]
  | (k', v') :: rest =>
    if k'.hashKey = k.hashKey then (k, v) :: rest else (k', v') :: insert k v rest

/-- The value that is stored under a key. -/
def find? (k : Key) : Table α → Option α
  | [] => none
  | (k', v) :: rest => if k'.hashKey = k.hashKey then some v else find? k rest

/-- The hash keys of a table in order. -/
def order (t : Table α) : List HashKey :=
  t.map fun entry => entry.1.hashKey

end Table

end Monkey
