import Monkey.Syntax.Basic
import Monkey.Syntax.Problem
import Monkey.Token.Scan

/-!
# Reading a program

Statements are read by their first token, expressions by precedence climbing: an operand, then
operators that bind tighter than a given precedence. A problem never ends the reading. It is noted,
the construct that it was found in is left absent, and reading goes on at the current token.

Every rule of the grammar is a definition over `expr`, the rule for expressions inside it, and
`expression` ties the knot. Its number counts nested expressions. An expression inside another
starts at a later token, so one more than the number of tokens always suffices, and in the same way
each loop is given the number of tokens that are left.

The rules do not say themselves how many rounds a loop has, or what becomes of it when they are used
up. They are stated over any monad that can read and that settles both (`Bounded`).
-/

namespace Monkey

/-- The tokens from the current one on, the end token that follows them all, and the problems noted
so far. -/
structure Reader where
  tokens : List Token
  eof : Token
  problems : List Problem
  deriving DecidableEq, Repr

namespace Reader

/-- The token under consideration. -/
def current (r : Reader) : Token :=
  r.tokens.headD r.eof

/-- The token after the current one. -/
def upcoming (r : Reader) : Token :=
  r.tokens.tail.headD r.eof

/-- Move to the next token; there is none after the end token. -/
def advance (r : Reader) : Reader :=
  { r with tokens := r.tokens.tail }

/-- Note a problem. -/
def note (r : Reader) (p : Problem) : Reader :=
  { r with problems := r.problems ++ [p] }

/-- The first token of a list of tokens up to its end token. -/
def ofTokens : List Token → Reader
  | [] => ⟨[], default, []⟩
  | [eof] => ⟨[], eof, []⟩
  | t :: rest => let r := ofTokens rest; { r with tokens := t :: r.tokens }

end Reader

/-- A reading that yields a value and moves on. -/
abbrev Parse := StateM Reader

namespace Parse

/-- The token under consideration. -/
def current : Parse Token :=
  return (← get).current

/-- The token after the current one. -/
def upcoming : Parse Token :=
  return (← get).upcoming

/-- Move to the next token. -/
def advance : Parse Unit :=
  modify Reader.advance

/-- Note a problem. -/
def note (p : Problem) : Parse Unit :=
  modify fun r => r.note p

/-- The number of tokens from the current one on. -/
def remaining : Parse Nat :=
  return (← get).tokens.length

/-- Move to the next token if it is of the wanted kind, and note a problem if it is not. -/
def expect (kind : Kind) : Parse Bool := do
  let t ← upcoming
  if t.kind = kind then
    advance
    return true
  else
    note (.expected kind t)
    return false

/-- Move to the next token if it is of a kind that may be left out. -/
def skip (kind : Kind) : Parse Unit := do
  if (← upcoming).kind = kind then advance

/-- The span from the start of a token to the end of the current one. -/
def spanFrom (start : Token) : Parse Span :=
  return start.span.join (← current).span

/-- The origin of a node that starts with a token and ends with the current one. -/
def originFrom (start : Token) : Parse Origin :=
  return ⟨start.literal, ← spanFrom start⟩

/-- The origin of a node that is built from a token, starts with a left operand, if that is there,
and ends with the current token. -/
def originAfter (left : Expr) (built : Token) : Parse Origin := do
  match left.span? with
  | some span => return ⟨built.literal, span.join (← current).span⟩
  | none => originFrom built

end Parse

open Parse

/-- Readings that settle how often a loop goes round. -/
class Bounded (m : Type → Type) where
  /-- The rounds that a loop is given. -/
  rounds : m Nat
  /-- A loop with no round left, from what it yields where it may end. -/
  spent {α : Type} : m α → m α

open Bounded

/-- A loop is given as many rounds as there are tokens left, and after them it ends. -/
instance : Bounded Parse :=
  ⟨remaining, id⟩

/-! ## Precedence -/

/-- How tight an operator binds: a greater number binds tighter. -/
abbrev Precedence := Nat

namespace Precedence

/-- Below every operator. -/
def lowest : Precedence := 1

/-- Above every binary operator, below calls and indexing. -/
def unary : Precedence := 6

end Precedence

/-- The precedence of a token after an operand: lowest if it is no operator. -/
def Kind.precedence : Kind → Precedence
  | .eq | .notEq => 2
  | .lt | .gt => 3
  | .plus | .minus => 4
  | .slash | .asterisk => 5
  | .lparen => 7
  | .lbracket => 8
  | _ => Precedence.lowest

/-- The binary operator of a token. -/
def BinaryOp.ofToken (t : Token) : BinaryOp :=
  match t.kind with
  | .plus => .add
  | .minus => .sub
  | .asterisk => .mul
  | .slash => .div
  | .lt => .lt
  | .gt => .gt
  | .eq => .eq
  | .notEq => .ne
  | _ => .other t.literal

/-! ## Tokens that stand alone -/

/-- An integer literal. -/
def integer (t : Token) : Parse Expr := do
  let value := Text.decimal t.literal
  if value < 1 <<< 63 then return .int t.origin (Int64.ofNat value)
  else
    note (.badInteger t)
    return .absent

/-- Note that no expression starts at the current token. -/
def missingOperand : Parse Expr := do
  note (.noOperand (← current))
  return .absent

/-! ## Rules over the rule for expressions -/

section Rules

variable {m : Type → Type} [Monad m] [MonadLiftT Parse m] [Bounded m] (expr : Precedence → m Expr)

/-- A let statement: a name, an equals sign and a value. Without the first two there is no
statement. -/
def letStatement : m (Option Stmt) := do
  let start ← current
  unless ← expect .ident do return none
  let name ← current
  unless ← expect .assign do return none
  advance
  let value ← expr .lowest
  skip .semicolon
  return some (.bind (← originFrom start) (some ⟨name.origin, name.literal⟩) value)

/-- A return statement. Its value may be left out before a semicolon, a closing brace or the end. -/
def returnStatement : m Stmt := do
  let start ← current
  let kind := (← upcoming).kind
  let value ←
    if kind = .semicolon ∨ kind = .rbrace ∨ kind = .eof then pure .absent
    else do
      advance
      expr .lowest
  skip .semicolon
  return .ret (← originFrom start) value

/-- An expression as a statement. -/
def expressionStatement : m Stmt := do
  let start ← current
  let value ← expr .lowest
  skip .semicolon
  return .expr (← originFrom start) value

/-- A statement, by its first token. -/
def statement : m (Option Stmt) := do
  match (← current).kind with
  | .letWord => letStatement expr
  | .returnWord => return some (← returnStatement expr)
  | _ => return some (← expressionStatement expr)

/-- Up to `n` statements, until the current token is the end or of a closing kind. -/
def statementsUntil (closing : Option Kind) : Nat → m (List Stmt)
  | 0 => spent (return [])
  | n + 1 => do
    let kind := (← current).kind
    if kind = .eof ∨ some kind = closing then return []
    else
      let first ← statement expr
      advance
      let rest ← statementsUntil closing n
      return first.toList ++ rest

/-- A block, from its opening brace to its closing one. -/
def block : m Block := do
  let start ← current
  advance
  let statements ← statementsUntil expr (some .rbrace) (← rounds)
  let last ← current
  if last.kind = .eof then note (.expected .rbrace last)
  return .of (← originFrom start) statements

/-- More expressions after the first of a list, each after a comma; at most `n`. -/
def moreExpressions : Nat → m (List Expr)
  | 0 => spent (return [])
  | n + 1 => do
    if (← upcoming).kind = .comma then
      advance
      advance
      let first ← expr .lowest
      let rest ← moreExpressions n
      return first :: rest
    else return []

/-- Expressions with commas between them, from an opening token to a closing one. -/
def expressionList (closing : Kind) : m (Option (List Expr)) := do
  if (← upcoming).kind = closing then
    advance
    return some []
  else
    advance
    let first ← expr .lowest
    let rest ← moreExpressions expr (← rounds)
    if ← expect closing then return some (first :: rest) else return none

/-- More parameters after the first, each after a comma; at most `n`. -/
def moreParameters : Nat → m (Option (List Binder))
  | 0 => spent (return some [])
  | n + 1 => do
    if (← upcoming).kind = .comma then
      advance
      unless ← expect .ident do return none
      let name ← current
      match ← moreParameters n with
      | some rest => return some (⟨name.origin, name.literal⟩ :: rest)
      | none => return none
    else return some []

/-- The parameters of a function, from the opening parenthesis to the closing one. -/
def parameters : m (Option (List Binder)) := do
  if (← upcoming).kind = .rparen then
    advance
    return some []
  else
    unless ← expect .ident do return none
    let name ← current
    match ← moreParameters (← rounds) with
    | some rest =>
      if ← expect .rparen then return some (⟨name.origin, name.literal⟩ :: rest) else return none
    | none => return none

/-- Keys with their values up to the closing brace of a hash, at most `n`. A comma may also stand
after the last. -/
def hashPairs : Nat → m (Option (List (Expr × Expr)))
  | 0 => spent (return none)
  | n + 1 => do
    if (← upcoming).kind = .rbrace then return some []
    else
      advance
      let key ← expr .lowest
      unless ← expect .colon do return none
      advance
      let value ← expr .lowest
      if (← upcoming).kind ≠ .rbrace then
        unless ← expect .comma do return none
      match ← hashPairs n with
      | some rest => return some ((key, value) :: rest)
      | none => return none

/-- A unary operator and its operand. -/
def unaryExpression (op : UnaryOp) : m Expr := do
  let start ← current
  advance
  let operand ← expr .unary
  return .unary (← originFrom start) op operand

/-- An expression in parentheses. -/
def grouped : m Expr := do
  advance
  let inner ← expr .lowest
  if ← expect .rparen then return inner else return .absent

/-- A conditional: a test in parentheses, a block, and perhaps another after `else`. -/
def conditional : m Expr := do
  let start ← current
  unless ← expect .lparen do return .absent
  advance
  let test ← expr .lowest
  unless ← expect .rparen do return .absent
  unless ← expect .lbrace do return .absent
  let consequence ← block expr
  if (← upcoming).kind = .elseWord then
    advance
    unless ← expect .lbrace do return .absent
    let alternative ← block expr
    return .cond (← originFrom start) test consequence alternative
  else return .cond (← originFrom start) test consequence .absent

/-- A function: parameters and a body. -/
def functionLiteral : m Expr := do
  let start ← current
  unless ← expect .lparen do return .absent
  match ← parameters with
  | none => return .absent
  | some params =>
    unless ← expect .lbrace do return .absent
    let body ← block expr
    return .fn (← originFrom start) (params.map some) body

/-- An array literal. -/
def arrayLiteral : m Expr := do
  let start ← current
  match ← expressionList expr .rbracket with
  | none => return .absent
  | some elements => return .array (← originFrom start) elements

/-- A hash literal. -/
def hashLiteral : m Expr := do
  let start ← current
  match ← hashPairs expr ((← rounds) + 1) with
  | none => return .absent
  | some pairs =>
    if ← expect .rbrace then return .hash (← originFrom start) pairs else return .absent

/-- The operand that starts at the current token; nothing if no expression starts so. -/
def operand (t : Token) : Option (m Expr) :=
  match t.kind with
  | .ident => some (return .ident t.origin t.literal)
  | .int => some (monadLift (integer t))
  | .str => some (return .str t.origin t.literal)
  | .trueWord => some (return .bool t.origin true)
  | .falseWord => some (return .bool t.origin false)
  | .bang => some (unaryExpression expr .not)
  | .minus => some (unaryExpression expr .neg)
  | .lparen => some (grouped expr)
  | .ifWord => some (conditional expr)
  | .fnWord => some (functionLiteral expr)
  | .lbracket => some (arrayLiteral expr)
  | .lbrace => some (hashLiteral expr)
  | _ => none

/-- The operation that the current token performs on a left operand: a call, an indexing, or a
binary operator, whose right operand binds tighter than itself. -/
def operation (t : Token) (left : Expr) : m Expr := do
  match t.kind with
  | .lparen =>
    match ← expressionList expr .rparen with
    | none => return .absent
    | some args => return .call (← originAfter left t) left args
  | .lbracket =>
    advance
    let index ← expr .lowest
    if ← expect .rbracket then return .index (← originAfter left t) left index
    else return .absent
  | _ =>
    advance
    let right ← expr t.kind.precedence
    return .binary (← originAfter left t) (.ofToken t) left right

/-- Up to `n` operations on a left operand, as long as the next token binds tighter than the given
precedence. -/
def operations (above : Precedence) : Nat → Expr → m Expr
  | 0, left => spent (return left)
  | n + 1, left => do
    let t ← upcoming
    if above < t.kind.precedence then
      advance
      operations above n (← operation expr t left)
    else return left

/-- An operand and the operations on it that bind tighter than a precedence. -/
def climb (above : Precedence) : m Expr := do
  match operand expr (← current) with
  | none => missingOperand
  | some first => operations expr above (← rounds) (← first)

/-- Statements from the first token to the end token. -/
def programOver : m Program := do
  let start ← current
  let statements ← statementsUntil expr none (← rounds)
  let last ← current
  return ⟨⟨start.literal, ⟨start.span.start, last.span.stop⟩⟩, statements⟩

end Rules

/-! ## Tying the knot -/

/-- An expression whose operators bind tighter than a precedence, with at most `n` expressions
inside one another. -/
def expression : Nat → Precedence → Parse Expr
  | 0, _ => missingOperand
  | n + 1, above => climb (expression n) above

/-- A program, from the first token to the end token. -/
def program : Parse Program := do
  programOver (expression ((← rounds) + 1))

/-- A program as it was read, and what was wrong with its source. -/
structure Parsed where
  program : Program
  problems : List Problem
  deriving Inhabited

/-- The reports on what was wrong. -/
def Parsed.diagnostics (p : Parsed) : List Diagnostic :=
  p.problems.map Problem.diagnostic

/-- The wordings of what was wrong. -/
def Parsed.errors (p : Parsed) : List Text :=
  p.problems.map Problem.message

/-- Read a list of tokens that ends with an end token. -/
def parseTokens (tokens : List Token) : Parsed :=
  let (p, r) := program.run (.ofTokens tokens)
  ⟨p, r.problems⟩

/-- Read a source. -/
def parse (source : Text) : Parsed :=
  parseTokens (tokenize source)

end Monkey
