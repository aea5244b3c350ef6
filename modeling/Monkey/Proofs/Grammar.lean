import Monkey.Proofs.Shape
import Monkey.Token.Scan

/-!
# The grammar

The language as a grammar over terminals, without reference to how it is read.
Expressions come in strata, each binding tighter than the one before:

E1 = E1 (== | !=) E2 | E2          E5 = (! | -) E5 | E6
E2 = E2 (< | >) E3 | E3            E6 = E6 ( [E1 {, E1}] ) | E6 [ E1 ] | E7
E3 = E3 (+ | -) E4 | E4            E7 = name | integer | string | true | false | ( E1 )
E4 = E4 (* | /) E5 | E5               | if ( E1 ) Block [else Block]
                                      | fn ( [name {, name}] ) Block
Block = { Stmt* }                     | [ [E1 {, E1}] ]
Program = Stmt*                       | { [E1 : E1 {, E1 : E1} [,]] }

Stmt = let name = E1 [;] | return E1 [;] | return [;] | E1 [;]

A derivation is a tree with one constructor for each production. `yield` is the
terminals it derives, `tree` the program tree it stands for. What the productions
cannot say is `Proper`: an integer fits in 63 bits; a statement that ends without a
semicolon is not followed by one, nor by a token that would continue its expression;
and a bare return stands only before a semicolon, a closing brace or the end.
-/

namespace Monkey

/-- How a kind is written, for the kinds with only one literal. -/
def Kind.spelling : Kind → Text
  | .assign => [0x3d]
  | .plus => [0x2b]
  | .minus => [0x2d]
  | .bang => [0x21]
  | .asterisk => [0x2a]
  | .slash => [0x2f]
  | .lt => [0x3c]
  | .gt => [0x3e]
  | .eq => [0x3d, 0x3d]
  | .notEq => [0x21, 0x3d]
  | .comma => [0x2c]
  | .semicolon => [0x3b]
  | .colon => [0x3a]
  | .lparen => [0x28]
  | .rparen => [0x29]
  | .lbrace => [0x7b]
  | .rbrace => [0x7d]
  | .lbracket => [0x5b]
  | .rbracket => [0x5d]
  | .fnWord => [0x66, 0x6e]
  | .letWord => [0x6c, 0x65, 0x74]
  | .trueWord => [0x74, 0x72, 0x75, 0x65]
  | .falseWord => [0x66, 0x61, 0x6c, 0x73, 0x65]
  | .ifWord => [0x69, 0x66]
  | .elseWord => [0x65, 0x6c, 0x73, 0x65]
  | .returnWord => [0x72, 0x65, 0x74, 0x75, 0x72, 0x6e]
  | .illegal | .eof | .ident | .int | .str => []

/-- A token without its place. -/
structure Terminal where
  kind : Kind
  literal : Text
  deriving DecidableEq, Repr

/-- A token as a terminal of the grammar. -/
def Token.terminal (t : Token) : Terminal :=
  ⟨t.kind, t.literal⟩

/-- The terminal of a kind with only one literal. -/
def Kind.terminal (k : Kind) : Terminal :=
  ⟨k, k.spelling⟩

/-- The terminals of a source, without the end token. -/
def terminals (source : Text) : List Terminal :=
  (tokenize source).dropLast.map Token.terminal

/-- The kind of the first of some terminals; that of the end if there is none. -/
def firstKind : List Terminal → Kind
  | [] => .eof
  | t :: _ => t.kind

namespace Grammar

/-! ## Derivations -/

/-- A sign before an operand. -/
inductive Sign where
  | bang
  | minus
  deriving DecidableEq, Repr

/-- The kind of token that a sign is. -/
def Sign.kind : Sign → Kind
  | .bang => .bang
  | .minus => .minus

/-- The operator that a sign stands for. -/
def Sign.op : Sign → UnaryOp
  | .bang => .not
  | .minus => .neg

/-- An operator between operands. -/
inductive Operator where
  | eq
  | ne
  | lt
  | gt
  | add
  | sub
  | mul
  | div
  deriving DecidableEq, Repr

namespace Operator

/-- The stratum whose production an operator belongs to. -/
def stratum : Operator → Nat
  | .eq | .ne => 1
  | .lt | .gt => 2
  | .add | .sub => 3
  | .mul | .div => 4

/-- The kind of token that an operator is. -/
def kind : Operator → Kind
  | .eq => .eq
  | .ne => .notEq
  | .lt => .lt
  | .gt => .gt
  | .add => .plus
  | .sub => .minus
  | .mul => .asterisk
  | .div => .slash

/-- The operator that stands in the program tree. -/
def op : Operator → BinaryOp
  | .eq => .eq
  | .ne => .ne
  | .lt => .lt
  | .gt => .gt
  | .add => .add
  | .sub => .sub
  | .mul => .mul
  | .div => .div

end Operator

mutual

/-- A derivation of an expression from the stratum with the given number. -/
inductive Phrase : Nat → Type where
  | ident (name : Text) : Phrase 7
  | int (digits : Text) : Phrase 7
  | str (content : Text) : Phrase 7
  | bool (value : Bool) : Phrase 7
  | group (inner : Phrase 1) : Phrase 7
  | cond (test : Phrase 1) (consequence : List Sentence) : Phrase 7
  | condElse (test : Phrase 1) (consequence alternative : List Sentence) : Phrase 7
  | fn (params : List Text) (body : List Sentence) : Phrase 7
  | array (elements : List (Phrase 1)) : Phrase 7
  | emptyHash : Phrase 7
  | hash (key value : Phrase 1) (more : List (Phrase 1 × Phrase 1)) (trailing : Bool) : Phrase 7
  | call (callee : Phrase 6) (args : List (Phrase 1)) : Phrase 6
  | index (left : Phrase 6) (index : Phrase 1) : Phrase 6
  | unary (sign : Sign) (operand : Phrase 5) : Phrase 5
  | binary {k : Nat} (op : Operator) (stratum : op.stratum = k) (left : Phrase k)
      (right : Phrase (k + 1)) : Phrase k
  | lift {k : Nat} (inner : Phrase (k + 1)) : Phrase k

/-- A derivation of a statement. Each says whether it ends with a semicolon. -/
inductive Sentence where
  | bind (name : Text) (value : Phrase 1) (closed : Bool)
  | ret (value : Phrase 1) (closed : Bool)
  | bare (closed : Bool)
  | expr (value : Phrase 1) (closed : Bool)

end

/-! ## What a derivation derives -/

/-- A terminal that may be left out. -/
def optional (k : Kind) (present : Bool) : List Terminal :=
  if present then [k.terminal] else []

/-- Names after the first of a list, each after a comma. -/
def yieldMoreNames : List Text → List Terminal
  | [] => []
  | name :: rest => Kind.comma.terminal :: ⟨.ident, name⟩ :: yieldMoreNames rest

/-- Names with commas between them. -/
def yieldNames : List Text → List Terminal
  | [] => []
  | name :: rest => ⟨.ident, name⟩ :: yieldMoreNames rest

mutual

/-- The terminals that a phrase derives. -/
def Phrase.yield : {k : Nat} → Phrase k → List Terminal
  | _, .ident name => [⟨.ident, name⟩]
  | _, .int digits => [⟨.int, digits⟩]
  | _, .str content => [⟨.str, content⟩]
  | _, .bool value => [(if value then Kind.trueWord else Kind.falseWord).terminal]
  | _, .group inner => Kind.lparen.terminal :: (inner.yield ++ [Kind.rparen.terminal])
  | _, .cond test consequence =>
      Kind.ifWord.terminal :: Kind.lparen.terminal :: (test.yield
        ++ Kind.rparen.terminal :: Kind.lbrace.terminal :: (yieldStatements consequence
        ++ [Kind.rbrace.terminal]))
  | _, .condElse test consequence alternative =>
      Kind.ifWord.terminal :: Kind.lparen.terminal :: (test.yield
        ++ Kind.rparen.terminal :: Kind.lbrace.terminal :: (yieldStatements consequence
        ++ Kind.rbrace.terminal :: Kind.elseWord.terminal :: Kind.lbrace.terminal
          :: (yieldStatements alternative ++ [Kind.rbrace.terminal])))
  | _, .fn params body =>
      Kind.fnWord.terminal :: Kind.lparen.terminal :: (yieldNames params
        ++ Kind.rparen.terminal :: Kind.lbrace.terminal :: (yieldStatements body
        ++ [Kind.rbrace.terminal]))
  | _, .array elements =>
      Kind.lbracket.terminal :: (yieldList elements ++ [Kind.rbracket.terminal])
  | _, .emptyHash => [Kind.lbrace.terminal, Kind.rbrace.terminal]
  | _, .hash key value more trailing =>
      Kind.lbrace.terminal :: (key.yield ++ Kind.colon.terminal :: (value.yield
        ++ (yieldMorePairs more ++ (optional .comma trailing ++ [Kind.rbrace.terminal]))))
  | _, .call callee args =>
      callee.yield ++ Kind.lparen.terminal :: (yieldList args ++ [Kind.rparen.terminal])
  | _, .index left index =>
      left.yield ++ Kind.lbracket.terminal :: (index.yield ++ [Kind.rbracket.terminal])
  | _, .unary sign operand => sign.kind.terminal :: operand.yield
  | _, .binary op _ left right => left.yield ++ op.kind.terminal :: right.yield
  | _, .lift inner => inner.yield

/-- The terminals of expressions with commas between them. -/
def yieldList : List (Phrase 1) → List Terminal
  | [] => []
  | first :: rest => first.yield ++ yieldMore rest

/-- The terminals of expressions after the first of a list, each after a comma. -/
def yieldMore : List (Phrase 1) → List Terminal
  | [] => []
  | first :: rest => Kind.comma.terminal :: (first.yield ++ yieldMore rest)

/-- The terminals of keys with their values after the first, each after a comma. -/
def yieldMorePairs : List (Phrase 1 × Phrase 1) → List Terminal
  | [] => []
  | (key, value) :: rest =>
      Kind.comma.terminal :: (key.yield ++ Kind.colon.terminal :: (value.yield
        ++ yieldMorePairs rest))

/-- The terminals that a sentence derives. -/
def Sentence.yield : Sentence → List Terminal
  | .bind name value closed =>
      Kind.letWord.terminal :: ⟨.ident, name⟩ :: Kind.assign.terminal :: (value.yield
        ++ optional .semicolon closed)
  | .ret value closed => Kind.returnWord.terminal :: (value.yield ++ optional .semicolon closed)
  | .bare closed => Kind.returnWord.terminal :: optional .semicolon closed
  | .expr value closed => value.yield ++ optional .semicolon closed

/-- The terminals of sentences one after another. -/
def yieldStatements : List Sentence → List Terminal
  | [] => []
  | first :: rest => first.yield ++ yieldStatements rest

end

/-! ## What the productions cannot say -/

/-- Whether a token continues an expression before it: an operator, a call or an index. -/
def continues : Kind → Bool
  | .eq | .notEq | .lt | .gt | .plus | .minus | .asterisk | .slash | .lparen | .lbracket => true
  | _ => false

/-- Whether a statement that ends without a semicolon may stand before a token: not before
a semicolon, and not before a token that continues an expression. -/
def endsBefore (next : Kind) : Prop :=
  next ≠ .semicolon ∧ continues next = false

/-- Whether a sentence may stand before a token of the given kind. -/
def Sentence.MayPrecede (next : Kind) : Sentence → Prop
  | .bind _ _ closed | .ret _ closed | .expr _ closed => closed = false → endsBefore next
  | .bare closed => closed = false → next = .rbrace ∨ next = .eof

mutual

/-- The conditions on a phrase that its productions cannot say. -/
def Phrase.Proper : {k : Nat} → Phrase k → Prop
  | _, .ident _ | _, .str _ | _, .bool _ | _, .emptyHash => True
  | _, .int digits => Text.decimal digits ≤ 2 ^ 63 - 1
  | _, .group inner => inner.Proper
  | _, .cond test consequence =>
      test.Proper ∧ ProperStatements [Kind.rbrace.terminal] consequence
  | _, .condElse test consequence alternative =>
      test.Proper ∧ ProperStatements [Kind.rbrace.terminal] consequence
        ∧ ProperStatements [Kind.rbrace.terminal] alternative
  | _, .fn _ body => ProperStatements [Kind.rbrace.terminal] body
  | _, .array elements => ProperList elements
  | _, .hash key value more _ => key.Proper ∧ value.Proper ∧ ProperPairs more
  | _, .call callee args => callee.Proper ∧ ProperList args
  | _, .index left index => left.Proper ∧ index.Proper
  | _, .unary _ operand => operand.Proper
  | _, .binary _ _ left right => left.Proper ∧ right.Proper
  | _, .lift inner => inner.Proper

/-- The conditions on expressions. -/
def ProperList : List (Phrase 1) → Prop
  | [] => True
  | first :: rest => first.Proper ∧ ProperList rest

/-- The conditions on keys with their values. -/
def ProperPairs : List (Phrase 1 × Phrase 1) → Prop
  | [] => True
  | (key, value) :: rest => key.Proper ∧ value.Proper ∧ ProperPairs rest

/-- The conditions inside a sentence. -/
def Sentence.Proper : Sentence → Prop
  | .bind _ value _ | .ret value _ | .expr value _ => value.Proper
  | .bare _ => True

/-- The conditions on sentences before the given terminals: what is inside each, and that
each may stand before what follows it. -/
def ProperStatements (after : List Terminal) : List Sentence → Prop
  | [] => True
  | first :: rest =>
      first.Proper ∧ first.MayPrecede (firstKind (yieldStatements rest ++ after))
        ∧ ProperStatements after rest

end

/-! ## What a derivation stands for -/

/-- The block of some statements. -/
def blockTree (statements : List Stmt) : Block :=
  .of (.ofLiteral Kind.lbrace.spelling) statements

/-- A name where it is bound. -/
def binder (name : Text) : Binder :=
  ⟨.ofLiteral name, name⟩

mutual

/-- The program tree of a phrase. -/
def Phrase.tree : {k : Nat} → Phrase k → Expr
  | _, .ident name => .ident (.ofLiteral name) name
  | _, .int digits => .int (.ofLiteral digits) (Int64.ofNat (Text.decimal digits))
  | _, .str content => .str (.ofLiteral content) content
  | _, .bool value =>
      .bool (.ofLiteral (if value then Kind.trueWord else Kind.falseWord).spelling) value
  | _, .group inner => inner.tree
  | _, .cond test consequence =>
      .cond (.ofLiteral Kind.ifWord.spelling) test.tree (blockTree (statementsTree consequence))
        .absent
  | _, .condElse test consequence alternative =>
      .cond (.ofLiteral Kind.ifWord.spelling) test.tree (blockTree (statementsTree consequence))
        (blockTree (statementsTree alternative))
  | _, .fn params body =>
      .fn (.ofLiteral Kind.fnWord.spelling) (params.map fun name => some (binder name))
        (blockTree (statementsTree body))
  | _, .array elements => .array (.ofLiteral Kind.lbracket.spelling) (listTree elements)
  | _, .emptyHash => .hash (.ofLiteral Kind.lbrace.spelling) []
  | _, .hash key value more _ =>
      .hash (.ofLiteral Kind.lbrace.spelling) ((key.tree, value.tree) :: pairsTree more)
  | _, .call callee args => .call (.ofLiteral Kind.lparen.spelling) callee.tree (listTree args)
  | _, .index left index => .index (.ofLiteral Kind.lbracket.spelling) left.tree index.tree
  | _, .unary sign operand => .unary (.ofLiteral sign.kind.spelling) sign.op operand.tree
  | _, .binary op _ left right =>
      .binary (.ofLiteral op.kind.spelling) op.op left.tree right.tree
  | _, .lift inner => inner.tree

/-- The trees of expressions. -/
def listTree : List (Phrase 1) → List Expr
  | [] => []
  | first :: rest => first.tree :: listTree rest

/-- The trees of keys with their values. -/
def pairsTree : List (Phrase 1 × Phrase 1) → List (Expr × Expr)
  | [] => []
  | (key, value) :: rest => (key.tree, value.tree) :: pairsTree rest

/-- The tree of a statement. -/
def Sentence.tree : Sentence → Stmt
  | .bind name value _ => .bind (.ofLiteral Kind.letWord.spelling) (some (binder name)) value.tree
  | .ret value _ => .ret (.ofLiteral Kind.returnWord.spelling) value.tree
  | .bare _ => .ret (.ofLiteral Kind.returnWord.spelling) .absent
  | .expr value _ => .expr default value.tree

/-- The trees of statements. -/
def statementsTree : List Sentence → List Stmt
  | [] => []
  | first :: rest => first.tree :: statementsTree rest

end

/-- A derivation of a program from its terminals. -/
structure Derivation (ts : List Terminal) where
  statements : List Sentence
  proper : ProperStatements [] statements
  yields : yieldStatements statements = ts

/-- The program tree of a derivation. -/
def Derivation.tree {ts : List Terminal} (d : Derivation ts) : Program :=
  ⟨default, statementsTree d.statements⟩

end Grammar

end Monkey
