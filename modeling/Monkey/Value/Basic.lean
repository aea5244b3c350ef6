import Monkey.Syntax.Render
import Monkey.Value.Fault

/-!
# Values

What an evaluation yields and what names are bound to. Integers have 64 bits and wrap around.
Arrays, hashes, functions and return wrappers have an identity, a number given to each when it is
made, and are equal only to themselves. A fault can be stored like any other value; it takes effect
when it is read.
-/

namespace Monkey

/-- The identity of a value that was made during an evaluation. -/
abbrev Ref := Nat

/-- The number of a scope. -/
abbrev ScopeId := Nat

/-- A value. A function keeps the scope that it was made in, and parameters that it does not have
are missing from it too. A return wrapper is what a return statement yields until a call or the
program unwraps it. -/
inductive Value where
  | int (n : Int64)
  | str (t : Text)
  | bool (b : Bool)
  | null
  | array (ref : Ref) (items : List Value)
  | hash (ref : Ref) (entries : List (Key × Value))
  | fn (ref : Ref) (params : List (Option Text)) (body : Block) (scope : ScopeId)
  | builtin (function : Builtin)
  | returned (ref : Ref) (value : Value)
  | error (fault : Fault)
  deriving Inhabited

namespace Value

/-- The type of a value. -/
def tag : Value → Tag
  | .int _ => .integer
  | .str _ => .string
  | .bool _ => .boolean
  | .null => .null
  | .array _ _ => .array
  | .hash _ _ => .hash
  | .fn _ _ _ _ => .function
  | .builtin _ => .builtin
  | .returned _ _ => .returnValue
  | .error _ => .error

/-- Whether a value counts as true: all but null and false do. -/
def isTruthy : Value → Bool
  | .null => false
  | .bool b => b
  | _ => true

/-- Whether a value is a fault. -/
def isError : Value → Bool
  | .error _ => true
  | _ => false

/-- Whether a value is a return wrapper. -/
def isReturned : Value → Bool
  | .returned _ _ => true
  | _ => false

/-- What a return wrapper holds. Any other value is as it is. -/
def unwrapped : Value → Value
  | .returned _ v => v
  | v => v

/-- Whether two values are the same: booleans and null by what they are, built-in functions by name,
and what has an identity by that. -/
def same : Value → Value → Bool
  | .bool a, .bool b => a = b
  | .null, .null => true
  | .array r _, .array s _ => r = s
  | .hash r _, .hash s _ => r = s
  | .fn r _ _ _, .fn s _ _ _ => r = s
  | .builtin f, .builtin g => f = g
  | .returned r _, .returned s _ => r = s
  | _, _ => false

/-- The key that a value is, if it can be one. -/
def key? : Value → Option Key
  | .int n => some (.int n)
  | .bool b => some (.bool b)
  | .str t => some (.str t)
  | _ => none

/-- A key as a value. -/
def ofKey : Key → Value
  | .int n => .int n
  | .bool b => .bool b
  | .str t => .str t

mutual

/-- A value as people see it. -/
def inspect : Value → Text
  | .int n => Text.ofInt n.toInt
  | .str t => t
  | .bool b => Text.ofBool b
  | .null => text "null"
  | .array _ items => listed (text "[") (inspectItems items) (text "]")
  | .hash _ entries => listed (text "\x7b") (inspectEntries entries) (text "\x7d")
  | .fn _ params body _ =>
    listed (text "fn(") (params.map fun p => p.getD []) (text ") ") ++ body.render
  | .builtin _ => text "builtin function"
  | .returned _ value => value.inspect
  | .error fault => text "ERROR: " ++ fault.message

/-- Values as people see them. -/
def inspectItems : List Value → List Text
  | [] => []
  | v :: rest => v.inspect :: inspectItems rest

/-- Entries as people see them. -/
def inspectEntries : List (Key × Value) → List Text
  | [] => []
  | (key, value) :: rest =>
    (key.inspect ++ text ": " ++ value.inspect) :: inspectEntries rest

end

end Value

end Monkey
