import Monkey.Token.Basic

/-!
# Program trees

Expressions, statements, blocks and programs. Every node keeps where it came from: the literal of
the token it was built from and the span it covers. A tree may have gaps. An `absent` expression,
statement or block stands where a source has none, or none that could be read. The name of a let
statement and each parameter of a function may be missing too, and a `nameless` expression is a name
that is missing where an expression is wanted; it is a node all the same. A `foreign` expression is
of a kind that the language does not have.
-/

namespace Monkey

/-- Where a node came from. -/
structure Origin where
  literal : Text := []
  span : Span
  deriving DecidableEq, Repr, Inhabited

/-- The origin of a node that is a single token. -/
def Token.origin (t : Token) : Origin :=
  ⟨t.literal, t.span⟩

/-- An operator before its operand. -/
inductive UnaryOp where
  | not
  | neg
  | other (symbol : Text)
  deriving DecidableEq, Repr, Inhabited

/-- The sign of a unary operator. -/
def UnaryOp.symbol : UnaryOp → Text
  | .not => text "!"
  | .neg => text "-"
  | .other symbol => symbol

/-- The unary operator with a given sign. -/
def UnaryOp.ofSymbol (symbol : Text) : UnaryOp :=
  if symbol = text "!" then .not
  else if symbol = text "-" then .neg
  else .other symbol

/-- An operator between its operands. -/
inductive BinaryOp where
  | add
  | sub
  | mul
  | div
  | lt
  | gt
  | eq
  | ne
  | other (symbol : Text)
  deriving DecidableEq, Repr, Inhabited

namespace BinaryOp

/-- The sign of a binary operator. -/
def symbol : BinaryOp → Text
  | .add => text "+"
  | .sub => text "-"
  | .mul => text "*"
  | .div => text "/"
  | .lt => text "<"
  | .gt => text ">"
  | .eq => text "=="
  | .ne => text "!="
  | .other symbol => symbol

/-- The binary operators of the language. -/
def all : List BinaryOp :=
  [.add, .sub, .mul, .div, .lt, .gt, .eq, .ne]

/-- The binary operator with a given sign. -/
def ofSymbol (symbol : Text) : BinaryOp :=
  (all.find? fun op => op.symbol = symbol).getD (.other symbol)

end BinaryOp

/-- A name where it is bound: by a let statement or as a parameter. -/
structure Binder where
  origin : Origin
  name : Text
  deriving DecidableEq, Repr, Inhabited

mutual

/-- An expression. An integer and a boolean also keep their literal, which need not be the usual
numeral or word. -/
inductive Expr where
  | absent
  | nameless
  | foreign (origin : Origin)
  | ident (origin : Origin) (name : Text)
  | int (origin : Origin) (value : Int64)
  | bool (origin : Origin) (value : Bool)
  | str (origin : Origin) (value : Text)
  | unary (origin : Origin) (op : UnaryOp) (operand : Expr)
  | binary (origin : Origin) (op : BinaryOp) (left right : Expr)
  | cond (origin : Origin) (test : Expr) (consequence alternative : Block)
  | fn (origin : Origin) (params : List (Option Binder)) (body : Block)
  | call (origin : Origin) (callee : Expr) (args : List Expr)
  | array (origin : Origin) (elements : List Expr)
  | index (origin : Origin) (left index : Expr)
  | hash (origin : Origin) (pairs : List (Expr × Expr))

/-- A statement. The value of a bare return is absent. -/
inductive Stmt where
  | absent
  | bind (origin : Origin) (name : Option Binder) (value : Expr)
  | ret (origin : Origin) (value : Expr)
  | expr (origin : Origin) (expr : Expr)
  | block (block : Block)

/-- A block of statements. -/
inductive Block where
  | absent
  | of (origin : Origin) (statements : List Stmt)

end

instance : Inhabited Expr := ⟨.absent⟩
instance : Inhabited Stmt := ⟨.absent⟩
instance : Inhabited Block := ⟨.absent⟩

namespace Expr

/-- Where an expression came from, if there is one. -/
def origin? : Expr → Option Origin
  | .absent | .nameless => none
  | .foreign o | .ident o _ | .int o _ | .bool o _ | .str o _ | .unary o _ _ | .binary o _ _ _
  | .cond o _ _ _ | .fn o _ _ | .call o _ _ | .array o _ | .index o _ _ | .hash o _ => some o

/-- The span of an expression, if there is one. -/
def span? (e : Expr) : Option Span :=
  e.origin?.map Origin.span

/-- Whether there is no expression. -/
def isAbsent : Expr → Bool
  | .absent => true
  | _ => false

end Expr

/-- Where a block came from, if there is one. -/
def Block.origin? : Block → Option Origin
  | .absent => none
  | .of o _ => some o

/-- Whether there is no block. -/
def Block.isAbsent : Block → Bool
  | .absent => true
  | .of _ _ => false

/-- Where a statement came from, if there is one. -/
def Stmt.origin? : Stmt → Option Origin
  | .absent => none
  | .bind o _ _ | .ret o _ | .expr o _ => some o
  | .block b => b.origin?

/-- A whole program. -/
structure Program where
  origin : Origin
  statements : List Stmt
  deriving Inhabited

/-- The literal of a program is that of its first statement. -/
def Program.literal (p : Program) : Text :=
  match p.statements.head?.bind Stmt.origin? with
  | some o => o.literal
  | none => []

/-- Any part of a program, or none. -/
inductive Node where
  | program (p : Program)
  | stmt (s : Stmt)
  | expr (e : Expr)
  deriving Inhabited

namespace Node

/-- Whether there is no node. -/
def isAbsent : Node → Bool
  | .stmt .absent | .expr .absent => true
  | _ => false

/-- The literal that a node was built from. -/
def literal : Node → Text
  | .program p => p.literal
  | .stmt s => (s.origin?.map Origin.literal).getD []
  | .expr e => (e.origin?.map Origin.literal).getD []

end Node

end Monkey
