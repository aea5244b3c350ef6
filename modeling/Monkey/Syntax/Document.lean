import Monkey.Json
import Monkey.Syntax.Basic

/-!
# Trees as JSON documents

Every node is an object that names its kind and its span. Fields stand in the order of their names.
What is missing is null, but the value of a bare return and a missing alternative are left out. The
spans of parameters and the literals that nodes were built from are not part of the document.
-/

namespace Monkey

/-- A position as a document. -/
def Position.document (p : Position) : Json :=
  .object [("column", .int p.column), ("line", .int p.line), ("offset", .int p.offset)]

/-- A span as a document. -/
def Span.document (s : Span) : Json :=
  .object [("end", s.stop.document), ("start", s.start.document)]

/-- A name where it is bound, as a document. -/
def Binder.document (b : Binder) : Json :=
  .object [("kind", .str (text "Identifier")), ("span", b.origin.span.document),
    ("value", .str b.name)]

/-- A parameter as a document: only its name. -/
def parameterDocument : Option Binder → Json
  | some b => .str b.name
  | none => .null

mutual

/-- An expression as a document. -/
def Expr.document : Expr → Json
  | .absent | .nameless => .null
  | .foreign _ => .object [("kind", .str (text "Unknown"))]
  | .ident o name =>
    .object [("kind", .str (text "Identifier")), ("span", o.span.document), ("value", .str name)]
  | .int o value =>
    .object [("kind", .str (text "IntegerLiteral")), ("span", o.span.document),
      ("value", .int value.toInt)]
  | .bool o value =>
    .object [("kind", .str (text "Bool")), ("span", o.span.document), ("value", .bool value)]
  | .str o value =>
    .object [("kind", .str (text "StringLiteral")), ("span", o.span.document),
      ("value", .str value)]
  | .unary o op operand =>
    .object [("kind", .str (text "PrefixExpression")), ("operator", .str op.symbol),
      ("right", operand.document), ("span", o.span.document)]
  | .binary o op left right =>
    .object [("kind", .str (text "InfixExpression")), ("left", left.document),
      ("operator", .str op.symbol), ("right", right.document), ("span", o.span.document)]
  | .cond o test consequence alternative =>
    .object ((if alternative.isAbsent then [] else [("alternative", alternative.document)])
      ++ [("condition", test.document), ("consequence", consequence.document),
        ("kind", .str (text "IfExpression")), ("span", o.span.document)])
  | .fn o params body =>
    .object [("body", body.document), ("kind", .str (text "FunctionLiteral")),
      ("parameters", .list (params.map parameterDocument)), ("span", o.span.document)]
  | .call o callee args =>
    .object [("arguments", .list (exprDocuments args)), ("function", callee.document),
      ("kind", .str (text "CallExpression")), ("span", o.span.document)]
  | .array o elements =>
    .object [("elements", .list (exprDocuments elements)), ("kind", .str (text "ArrayLiteral")),
      ("span", o.span.document)]
  | .index o left index =>
    .object [("index", index.document), ("kind", .str (text "IndexExpression")),
      ("left", left.document), ("span", o.span.document)]
  | .hash o pairs =>
    .object [("kind", .str (text "HashLiteral")), ("pairs", .list (pairDocuments pairs)),
      ("span", o.span.document)]

/-- Expressions as documents. -/
def exprDocuments : List Expr → List Json
  | [] => []
  | e :: rest => e.document :: exprDocuments rest

/-- Keys with their values as documents. -/
def pairDocuments : List (Expr × Expr) → List Json
  | [] => []
  | (key, value) :: rest =>
    .object [("key", key.document), ("value", value.document)] :: pairDocuments rest

/-- A statement as a document. -/
def Stmt.document : Stmt → Json
  | .absent => .null
  | .bind o name value =>
    .object [("kind", .str (text "LetStatement")),
      ("name", match name with | some n => n.document | none => .null),
      ("span", o.span.document), ("value", value.document)]
  | .ret o value =>
    .object ([("kind", .str (text "ReturnStatement")), ("span", o.span.document)]
      ++ (if value.isAbsent then [] else [("value", value.document)]))
  | .expr o expr =>
    .object [("expression", expr.document), ("kind", .str (text "ExpressionStatement")),
      ("span", o.span.document)]
  | .block block => block.document

/-- Statements as documents. -/
def stmtDocuments : List Stmt → List Json
  | [] => []
  | s :: rest => s.document :: stmtDocuments rest

/-- A block as a document. -/
def Block.document : Block → Json
  | .absent => .null
  | .of o statements =>
    .object [("kind", .str (text "BlockStatement")), ("span", o.span.document),
      ("statements", .list (stmtDocuments statements))]

end

/-- A program as a document. -/
def Program.document (p : Program) : Json :=
  .object [("kind", .str (text "Program")), ("span", p.origin.span.document),
    ("statements", .list (stmtDocuments p.statements))]

/-- Any node as a document. -/
def Node.document : Node → Json
  | .program p => p.document
  | .stmt s => s.document
  | .expr e => e.document

end Monkey
