import Monkey.Syntax.Basic

/-!
# Canonical text of a tree

Unary, binary and index expressions are always in parentheses, so the text shows the nesting and
reads back as the same tree. What is missing leaves nothing, except that an absent block is written
as an empty one where it belongs to an expression.
-/

namespace Monkey

/-- Statements one after another, with a semicolon after each but the last, unless its text already
ends in one. -/
def joinStatements : List Text → Text
  | [] => []
  | [last] => last
  | t :: rest =>
    t ++ (if t.getLast? = some 0x3b then [] else text ";") ++ text " " ++ joinStatements rest

/-- Statements between braces. -/
def braced (statements : List Text) : Text :=
  if statements.isEmpty then text "\x7b \x7d"
  else text "\x7b " ++ joinStatements statements ++ text " \x7d"

/-- Parts between an opening and a closing text, with commas between them. -/
def listed (opening : Text) (parts : List Text) (closing : Text) : Text :=
  opening ++ Text.join (text ", ") parts ++ closing

/-- The name of a parameter, or nothing if there is none. -/
def parameterName (param : Option Binder) : Text :=
  (param.map Binder.name).getD []

mutual

/-- The canonical text of an expression. -/
def Expr.render : Expr → Text
  | .absent | .nameless => []
  | .foreign _ => text "alien"
  | .ident _ name => name
  | .int o _ => o.literal
  | .bool o _ => o.literal
  | .str _ value => text "\"" ++ value ++ text "\""
  | .unary _ op operand => text "(" ++ op.symbol ++ operand.render ++ text ")"
  | .binary _ op left right =>
    text "(" ++ left.render ++ text " " ++ op.symbol ++ text " " ++ right.render ++ text ")"
  | .cond _ test consequence alternative =>
    text "if (" ++ test.render ++ text ") " ++ consequence.render
      ++ (if alternative.isAbsent then [] else text " else " ++ alternative.render)
  | .fn o params body =>
    o.literal ++ listed (text "(") (params.map parameterName) (text ") ") ++ body.render
  | .call _ callee args => callee.render ++ listed (text "(") (renderExprs args) (text ")")
  | .array _ elements => listed (text "[") (renderExprs elements) (text "]")
  | .index _ left index => text "(" ++ left.render ++ text "[" ++ index.render ++ text "])"
  | .hash _ pairs => listed (text "\x7b") (renderPairs pairs) (text "\x7d")

/-- The canonical texts of expressions. -/
def renderExprs : List Expr → List Text
  | [] => []
  | e :: rest => e.render :: renderExprs rest

/-- The canonical texts of keys with their values. -/
def renderPairs : List (Expr × Expr) → List Text
  | [] => []
  | (key, value) :: rest => (key.render ++ text ": " ++ value.render) :: renderPairs rest

/-- The canonical text of a statement. -/
def Stmt.render : Stmt → Text
  | .absent => []
  | .bind o name value =>
    o.literal ++ text " " ++ (match name with | some n => n.name | none => []) ++ text " = "
      ++ value.render ++ text ";"
  | .ret o value =>
    if value.isAbsent then o.literal ++ text ";"
    else o.literal ++ text " " ++ value.render ++ text ";"
  | .expr _ expr => expr.render
  | .block block => if block.isAbsent then [] else block.render

/-- The canonical texts of statements. -/
def renderStatements : List Stmt → List Text
  | [] => []
  | s :: rest => s.render :: renderStatements rest

/-- The canonical text of a block. -/
def Block.render : Block → Text
  | .absent => text "\x7b \x7d"
  | .of _ statements => braced (renderStatements statements)

end

/-- The canonical text of a program. -/
def Program.render (p : Program) : Text :=
  joinStatements (renderStatements p.statements)

/-- The canonical text of any node. -/
def Node.render : Node → Text
  | .program p => p.render
  | .stmt s => s.render
  | .expr e => e.render

end Monkey
