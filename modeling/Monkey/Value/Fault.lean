import Monkey.Value.Key

/-!
# Faults

What can go wrong when a program is evaluated, and the one wording of each.
-/

namespace Monkey

/-- The functions that every program can use. -/
inductive Builtin where
  | first
  | last
  | len
  | push
  | puts
  | rest
  deriving DecidableEq, Repr, Inhabited

namespace Builtin

/-- Every built-in function, in the order of their names. -/
def all : List Builtin :=
  [.first, .last, .len, .push, .puts, .rest]

/-- The name of a built-in function. -/
def name : Builtin → Text
  | .first => text "first"
  | .last => text "last"
  | .len => text "len"
  | .push => text "push"
  | .puts => text "puts"
  | .rest => text "rest"

/-- The built-in function with a name. -/
def ofName? (n : Text) : Option Builtin :=
  all.find? fun b => b.name = n

end Builtin

/-- A reason why an evaluation cannot go on. -/
inductive Fault where
  | unbound (name : Text)
  | unknownUnary (symbol : Text) (operand : Tag)
  | unknownBinary (left : Tag) (symbol : Text) (right : Tag)
  | typeMismatch (left : Tag) (symbol : Text) (right : Tag)
  | divisionByZero
  | unusableKey (tag : Tag)
  | notIndexable (tag : Tag)
  | notFunction (tag : Tag)
  | wrongArity (given wanted : Nat)
  | noLength (tag : Tag)
  | notArray (function : Builtin) (tag : Tag)
  | stepLimit (limit : Int)
  | depthLimit (limit : Int)
  | custom (message : Text)
  deriving DecidableEq, Repr, Inhabited

namespace Fault

/-- The wording of a fault. -/
def message : Fault → Text
  | .unbound name => text "identifier not found: " ++ name
  | .unknownUnary symbol operand => text "unknown operator: " ++ symbol ++ operand.name
  | .unknownBinary left symbol right =>
    text "unknown operator: " ++ left.name ++ text " " ++ symbol ++ text " " ++ right.name
  | .typeMismatch left symbol right =>
    text "type mismatch: " ++ left.name ++ text " " ++ symbol ++ text " " ++ right.name
  | .divisionByZero => text "division by zero"
  | .unusableKey tag => text "unusable as hash key: " ++ tag.name
  | .notIndexable tag => text "index operator not supported: " ++ tag.name
  | .notFunction tag => text "not a function: " ++ tag.name
  | .wrongArity given wanted =>
    text "wrong number of arguments. got=" ++ Text.ofNat given ++ text ", want="
      ++ Text.ofNat wanted
  | .noLength tag => text "argument to `len` not supported, got " ++ tag.name
  | .notArray function tag =>
    text "argument to `" ++ function.name ++ text "` must be ARRAY, got " ++ tag.name
  | .stepLimit limit => text "step limit exceeded: " ++ Text.ofInt limit
  | .depthLimit limit => text "maximum call depth exceeded: " ++ Text.ofInt limit
  | .custom message => message

end Fault

end Monkey
