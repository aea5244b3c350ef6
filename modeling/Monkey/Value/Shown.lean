import Monkey.Crash
import Monkey.Value.Basic

/-!
# Texts that a program shows

What a program prints of a value is its text as people see it, and that of a function has the text
of its body. The text of what is missing cannot be asked for. Where something may be missing, a
check stands before the question, except for the parameters of a function and for what is returned
by a return statement that has something to return.
-/

namespace Monkey

/-- Whether an expression is missing, as a node or as a name. -/
def Expr.isMissing : Expr → Bool
  | .absent | .nameless => true
  | _ => false

/-- The text of what may be missing: none if it is. -/
def orNothing (missing : Bool) (shown : Except Crash Text) : Except Crash Text :=
  if missing then .ok [] else shown

/-- The text of a block that may be missing: that of an empty one if it is. -/
def orBraces (missing : Bool) (shown : Except Crash Text) : Except Crash Text :=
  if missing then .ok (text "\x7b \x7d") else shown

/-- The names of parameters. -/
def shownNames : List (Option Text) → Except Crash (List Text)
  | [] => return []
  | name :: rest => return (← present name) :: (← shownNames rest)

mutual

/-- The canonical text of an expression that is there. -/
def Expr.shown : Expr → Except Crash Text
  | .absent | .nameless => .error .absent
  | .foreign _ => return text "alien"
  | .ident _ name => return name
  | .int o _ => return o.literal
  | .bool o _ => return o.literal
  | .str _ value => return text "\"" ++ value ++ text "\""
  | .unary _ op operand => do
    let right ← orNothing operand.isMissing operand.shown
    return text "(" ++ op.symbol ++ right ++ text ")"
  | .binary _ op left right => do
    let l ← orNothing left.isMissing left.shown
    let r ← orNothing right.isMissing right.shown
    return text "(" ++ l ++ text " " ++ op.symbol ++ text " " ++ r ++ text ")"
  | .cond _ test consequence alternative => do
    let condition ← orNothing test.isMissing test.shown
    let first ← orBraces consequence.isAbsent consequence.shown
    let start := text "if (" ++ condition ++ text ") " ++ first
    if alternative.isAbsent then return start
    else
      let second ← alternative.shown
      return start ++ (text " else " ++ second)
  | .fn o params body => do
    let names ← shownNames (params.map (Option.map Binder.name))
    let shown ← orBraces body.isAbsent body.shown
    return o.literal ++ listed (text "(") names (text ") ") ++ shown
  | .call _ callee args => do
    let function ← orNothing callee.isMissing callee.shown
    return function ++ listed (text "(") (← shownExprs args) (text ")")
  | .array _ elements => do
    return listed (text "[") (← shownExprs elements) (text "]")
  | .index _ left index => do
    let l ← orNothing left.isMissing left.shown
    let i ← orNothing index.isMissing index.shown
    return text "(" ++ l ++ text "[" ++ i ++ text "])"
  | .hash _ pairs => do
    return listed (text "\x7b") (← shownPairs pairs) (text "\x7d")

/-- The canonical texts of expressions. -/
def shownExprs : List Expr → Except Crash (List Text)
  | [] => return []
  | e :: rest => do
    let shown ← orNothing e.isMissing e.shown
    return shown :: (← shownExprs rest)

/-- The canonical texts of keys with their values. -/
def shownPairs : List (Expr × Expr) → Except Crash (List Text)
  | [] => return []
  | (key, value) :: rest => do
    let k ← orNothing key.isMissing key.shown
    let v ← orNothing value.isMissing value.shown
    return (k ++ text ": " ++ v) :: (← shownPairs rest)

/-- The canonical text of a statement that is there. -/
def Stmt.shown : Stmt → Except Crash Text
  | .absent => .error .absent
  | .bind o name value => do
    let bound ← orNothing name.isNone ((present name).map Binder.name)
    let shown ← orNothing value.isMissing value.shown
    return o.literal ++ text " " ++ bound ++ text " = " ++ shown ++ text ";"
  | .ret o value =>
    if value.isAbsent then return o.literal ++ text ";"
    else do
      let shown ← value.shown
      return o.literal ++ text " " ++ shown ++ text ";"
  | .expr _ expr => orNothing expr.isMissing expr.shown
  | .block block => orNothing block.isAbsent block.shown

/-- The canonical texts of statements. -/
def shownStatements : List Stmt → Except Crash (List Text)
  | [] => return []
  | s :: rest => do
    let shown ← orNothing (Node.stmt s).isAbsent s.shown
    return shown :: (← shownStatements rest)

/-- The canonical text of a block that is there. -/
def Block.shown : Block → Except Crash Text
  | .absent => .error .absent
  | .of _ statements => do
    return braced (← shownStatements statements)

end

mutual

/-- A value as people see it. -/
def Value.shown : Value → Except Crash Text
  | .int n => return Text.ofInt n.toInt
  | .str t => return t
  | .bool b => return Text.ofBool b
  | .null => return text "null"
  | .array _ items => return listed (text "[") (← shownItems items) (text "]")
  | .hash _ entries => return listed (text "\x7b") (← shownEntries entries) (text "\x7d")
  | .fn _ params body _ => do
    let names ← shownNames params
    let shown ← orBraces body.isAbsent body.shown
    return listed (text "fn(") names (text ") ") ++ shown
  | .builtin _ => return text "builtin function"
  | .returned _ value => value.shown
  | .error fault => return text "ERROR: " ++ fault.message

/-- Values as people see them. -/
def shownItems : List Value → Except Crash (List Text)
  | [] => return []
  | v :: rest => return (← v.shown) :: (← shownItems rest)

/-- Entries as people see them. -/
def shownEntries : List (Key × Value) → Except Crash (List Text)
  | [] => return []
  | (key, value) :: rest =>
    return (key.inspect ++ text ": " ++ (← value.shown)) :: (← shownEntries rest)

end

end Monkey
