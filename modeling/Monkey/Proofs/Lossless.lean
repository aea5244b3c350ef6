import Mathlib.Data.List.Nodup
import Monkey.Proofs.Growth
import Monkey.Syntax.Document

/-!
# Documents are lossless

The document of a tree leaves out where the parameters of functions stand and which tokens the nodes
were built from. All else can be read back. `Json.decode` takes a document for whatever it may be
the document of: a text, a number, a span, an expression, a statement, and so on. It looks fields up
by their names and goes by the kind that an object names, so the order of the fields does not
matter.

What is left of a tree without what its document leaves out is its outline. A document is decoded as
the outline of its tree (`Expr.decode_document`), if that is of the kind that reading builds; and it
is a function of the outline (`Expr.document_outline`). So the trees of two sources have the same
document exactly if they have the same outline (`document_is_lossless`).
-/

namespace Monkey

/-! ## Outlines -/

/-- An origin without the literal of a token. -/
@[simp] def Origin.outline (o : Origin) : Origin :=
  ⟨[], o.span⟩

/-- The name of a let statement without the literal of a token. -/
def Binder.outline (b : Binder) : Binder :=
  ⟨b.origin.outline, b.name⟩

/-- A parameter without its origin. -/
def Binder.unplaced (b : Binder) : Binder :=
  ⟨default, b.name⟩

mutual

/-- An expression without the literals of tokens and without the origins of parameters. -/
@[simp] def Expr.outline : Expr → Expr
  | .absent => .absent
  | .nameless => .nameless
  | .foreign o => .foreign o.outline
  | .ident o name => .ident o.outline name
  | .int o value => .int o.outline value
  | .bool o value => .bool o.outline value
  | .str o value => .str o.outline value
  | .unary o op operand => .unary o.outline op operand.outline
  | .binary o op left right => .binary o.outline op left.outline right.outline
  | .cond o test consequence alternative =>
    .cond o.outline test.outline consequence.outline alternative.outline
  | .fn o params body => .fn o.outline (params.map (Option.map Binder.unplaced)) body.outline
  | .call o callee args => .call o.outline callee.outline (outlineExprs args)
  | .array o elements => .array o.outline (outlineExprs elements)
  | .index o left index => .index o.outline left.outline index.outline
  | .hash o pairs => .hash o.outline (outlinePairs pairs)

/-- The outlines of expressions. -/
@[simp] def outlineExprs : List Expr → List Expr
  | [] => []
  | e :: rest => e.outline :: outlineExprs rest

/-- The outlines of keys with their values. -/
@[simp] def outlinePairs : List (Expr × Expr) → List (Expr × Expr)
  | [] => []
  | (key, value) :: rest => (key.outline, value.outline) :: outlinePairs rest

/-- A statement without the literals of tokens and without the origins of parameters. -/
@[simp] def Stmt.outline : Stmt → Stmt
  | .absent => .absent
  | .bind o name value => .bind o.outline (name.map Binder.outline) value.outline
  | .ret o value => .ret o.outline value.outline
  | .expr o expr => .expr o.outline expr.outline
  | .block block => .block block.outline

/-- The outlines of statements. -/
@[simp] def outlineStatements : List Stmt → List Stmt
  | [] => []
  | s :: rest => s.outline :: outlineStatements rest

/-- A block without the literals of tokens and without the origins of parameters. -/
@[simp] def Block.outline : Block → Block
  | .absent => .absent
  | .of o statements => .of o.outline (outlineStatements statements)

end

/-- A program without the literals of tokens and without the origins of parameters. -/
def Program.outline (p : Program) : Program :=
  ⟨p.origin.outline, outlineStatements p.statements⟩

/-! ## Decoding -/

/-- The kinds of node that a document may name. -/
inductive NodeKind where
  | program
  | letStatement
  | returnStatement
  | expressionStatement
  | blockStatement
  | identifier
  | integerLiteral
  | bool
  | stringLiteral
  | prefixExpression
  | infixExpression
  | ifExpression
  | functionLiteral
  | callExpression
  | arrayLiteral
  | indexExpression
  | hashLiteral
  deriving DecidableEq

namespace NodeKind

/-- The name of a kind of node. -/
def name : NodeKind → Text
  | .program => text "Program"
  | .letStatement => text "LetStatement"
  | .returnStatement => text "ReturnStatement"
  | .expressionStatement => text "ExpressionStatement"
  | .blockStatement => text "BlockStatement"
  | .identifier => text "Identifier"
  | .integerLiteral => text "IntegerLiteral"
  | .bool => text "Bool"
  | .stringLiteral => text "StringLiteral"
  | .prefixExpression => text "PrefixExpression"
  | .infixExpression => text "InfixExpression"
  | .ifExpression => text "IfExpression"
  | .functionLiteral => text "FunctionLiteral"
  | .callExpression => text "CallExpression"
  | .arrayLiteral => text "ArrayLiteral"
  | .indexExpression => text "IndexExpression"
  | .hashLiteral => text "HashLiteral"

/-- All kinds of node. -/
def all : List NodeKind :=
  [.program, .letStatement, .returnStatement, .expressionStatement, .blockStatement, .identifier,
    .integerLiteral, .bool, .stringLiteral, .prefixExpression, .infixExpression, .ifExpression,
    .functionLiteral, .callExpression, .arrayLiteral, .indexExpression, .hashLiteral]

/-- The kind of node with a name. -/
def ofName? (n : Text) : Option NodeKind :=
  all.find? fun k => k.name = n

theorem mem_all (k : NodeKind) : k ∈ all := by
  cases k <;> decide

/-- No two kinds have the same name. -/
theorem name_inj {k k' : NodeKind} (h : k.name = k'.name) : k = k' := by
  have hnodup : (all.map name).Nodup := by decide +kernel
  exact List.inj_on_of_nodup_map hnodup (mem_all k) (mem_all k') h

/-- No two kinds of nodes have the same name in a document. -/
theorem ofName?_name (k : NodeKind) : ofName? k.name = some k := by
  rcases hfound : ofName? k.name with _ | k'
  · have hnone := List.find?_eq_none.mp hfound k (mem_all k)
    exact absurd (decide_eq_true rfl) hnone
  · have hname := List.find?_some (p := fun k' : NodeKind => decide (k'.name = k.name)) hfound
    rw [name_inj (of_decide_eq_true hname)]

end NodeKind

/-- What a document can be taken for. -/
structure Decoded where
  text : Option Text := none
  int : Option Int := none
  bool : Option Bool := none
  name : Option (Option Text) := none
  names : Option (List (Option Text)) := none
  position : Option Position := none
  span : Option Span := none
  binder : Option (Option Binder) := none
  expr : Option Expr := none
  exprs : Option (List Expr) := none
  pair : Option (Expr × Expr) := none
  pairs : Option (List (Expr × Expr)) := none
  stmt : Option Stmt := none
  statements : Option (List Stmt) := none
  block : Option Block := none
  program : Option Program := none

/-- The fields of an object, each as what it can be taken for. -/
abbrev DecodedFields := List (String × Decoded)

namespace DecodedFields

variable {α : Type} (fs : DecodedFields)

/-- A field that has to be there, as one of the things that it can be taken for. -/
def get (key : String) (part : Decoded → Option α) : Option α :=
  (fs.lookup key).bind part

/-- A field that may be left out for something that is absent. -/
def getOr (absent : α) (key : String) (part : Decoded → Option α) : Option α :=
  match fs.lookup key with
  | none => some absent
  | some d => part d

/-- The kind that an object names. -/
def kind : Option NodeKind :=
  (fs.get "kind" Decoded.text).bind NodeKind.ofName?

/-- The origin of a node, as far as it is told. -/
def origin : Option Origin :=
  (fs.get "span" Decoded.span).map (Origin.mk [])

/-- Fields as a position. -/
def position : Option Position := do
  return ⟨← fs.get "offset" Decoded.int, ← fs.get "line" Decoded.int, ← fs.get "column" Decoded.int⟩

/-- Fields as a span. -/
def span : Option Span := do
  return ⟨← fs.get "start" Decoded.position, ← fs.get "end" Decoded.position⟩

/-- Fields as a key with its value. -/
@[simp] def pair : Option (Expr × Expr) := do
  return (← fs.get "key" Decoded.expr, ← fs.get "value" Decoded.expr)

/-- Fields as a name that a let statement binds. -/
def binder : Option Binder := do
  match ← fs.kind with
  | .identifier => return ⟨← fs.origin, ← fs.get "value" Decoded.text⟩
  | _ => none

/-- Fields as an expression of a kind with an origin. -/
@[simp] def exprOf (origin : Origin) : NodeKind → Option Expr
  | .identifier => return .ident origin (← fs.get "value" Decoded.text)
  | .integerLiteral => return .int origin (Int64.ofInt (← fs.get "value" Decoded.int))
  | .bool => return .bool origin (← fs.get "value" Decoded.bool)
  | .stringLiteral => return .str origin (← fs.get "value" Decoded.text)
  | .prefixExpression =>
    return .unary origin (.ofSymbol (← fs.get "operator" Decoded.text))
      (← fs.get "right" Decoded.expr)
  | .infixExpression =>
    return .binary origin (.ofSymbol (← fs.get "operator" Decoded.text))
      (← fs.get "left" Decoded.expr) (← fs.get "right" Decoded.expr)
  | .ifExpression =>
    return .cond origin (← fs.get "condition" Decoded.expr) (← fs.get "consequence" Decoded.block)
      (← fs.getOr .absent "alternative" Decoded.block)
  | .functionLiteral =>
    return .fn origin ((← fs.get "parameters" Decoded.names).map (Option.map (Binder.mk default)))
      (← fs.get "body" Decoded.block)
  | .callExpression =>
    return .call origin (← fs.get "function" Decoded.expr) (← fs.get "arguments" Decoded.exprs)
  | .arrayLiteral => return .array origin (← fs.get "elements" Decoded.exprs)
  | .indexExpression =>
    return .index origin (← fs.get "left" Decoded.expr) (← fs.get "index" Decoded.expr)
  | .hashLiteral => return .hash origin (← fs.get "pairs" Decoded.pairs)
  | .program | .letStatement | .returnStatement | .expressionStatement | .blockStatement => none

/-- Fields as an expression. -/
def expr : Option Expr := do
  fs.exprOf (← fs.origin) (← fs.kind)

/-- Fields as a block. -/
def block : Option Block := do
  match ← fs.kind with
  | .blockStatement => return .of (← fs.origin) (← fs.get "statements" Decoded.statements)
  | _ => none

/-- Fields as a statement of a kind with an origin. -/
@[simp] def stmtOf (origin : Origin) : NodeKind → Option Stmt
  | .letStatement =>
    return .bind origin (← fs.get "name" Decoded.binder) (← fs.get "value" Decoded.expr)
  | .returnStatement => return .ret origin (← fs.getOr .absent "value" Decoded.expr)
  | .expressionStatement => return .expr origin (← fs.get "expression" Decoded.expr)
  | .blockStatement => return .block (← fs.block)
  | _ => none

/-- Fields as a statement. -/
def stmt : Option Stmt := do
  fs.stmtOf (← fs.origin) (← fs.kind)

/-- Fields as a program. -/
def program : Option Program := do
  match ← fs.kind with
  | .program => return ⟨← fs.origin, ← fs.get "statements" Decoded.statements⟩
  | _ => none

end DecodedFields

/-- What an object with these fields can be taken for. -/
@[simp] def Decoded.ofFields (fs : DecodedFields) : Decoded where
  position := fs.position
  span := fs.span
  binder := fs.binder.map some
  expr := fs.expr
  pair := fs.pair
  stmt := fs.stmt
  block := fs.block
  program := fs.program

/-- What a list with these elements can be taken for. -/
@[simp] def Decoded.ofElements (ds : List Decoded) : Decoded where
  names := ds.mapM Decoded.name
  exprs := ds.mapM Decoded.expr
  pairs := ds.mapM Decoded.pair
  statements := ds.mapM Decoded.stmt

mutual

/-- What a document can be taken for. What is missing is null. -/
@[simp] def Json.decode : Json → Decoded
  | .null =>
    { expr := some .absent, stmt := some .absent, block := some .absent, binder := some none,
      name := some none }
  | .bool b => { bool := some b }
  | .int n => { int := some n }
  | .str t => { text := some t, name := some (some t) }
  | .list elements => .ofElements (decodeElements elements)
  | .object fields => .ofFields (decodeFields fields)

/-- What documents can be taken for. -/
@[simp] def decodeElements : List Json → List Decoded
  | [] => []
  | j :: rest => j.decode :: decodeElements rest

/-- What fields can be taken for. -/
@[simp] def decodeFields : List (String × Json) → DecodedFields
  | [] => []
  | (key, j) :: rest => (key, j.decode) :: decodeFields rest

end

/-! ## Documents of trees -/

theorem Expr.isAbsent_iff {e : Expr} : e.isAbsent = true ↔ e = .absent := by
  cases e <;> simp [Expr.isAbsent]

/-- A span is decoded as it is. -/
theorem Span.decode_document (s : Span) : s.document.decode.span = some s :=
  rfl

/-- The symbol of an operator tells it from the other prefix operators. -/
theorem UnaryOp.ofSymbol_symbol {op : UnaryOp} (h : op.isNamed = true) :
    UnaryOp.ofSymbol op.symbol = op := by
  cases op with
  | other symbol => cases h
  | _ => decide +kernel

/-- The symbol of an operator tells it from the other operators between operands. -/
theorem BinaryOp.ofSymbol_symbol {op : BinaryOp} (h : op.isNamed = true) :
    BinaryOp.ofSymbol op.symbol = op := by
  cases op with
  | other symbol => cases h
  | _ => decide +kernel

namespace DecodedFields

variable {fs : DecodedFields} {k : NodeKind} {s : Span}

@[simp] theorem get_cons {α : Type} (key' : String) (d : Decoded) (key : String)
    (part : Decoded → Option α) :
    get ((key', d) :: fs) key part = if key = key' then part d else get fs key part := by
  by_cases h : key = key'
  · rw [if_pos h, get, List.lookup_cons, beq_iff_eq.mpr h]
    rfl
  · rw [if_neg h, get, List.lookup_cons, beq_false_of_ne h]
    rfl

@[simp] theorem getOr_nil {α : Type} (absent : α) (key : String) (part : Decoded → Option α) :
    getOr [] absent key part = some absent :=
  rfl

@[simp] theorem getOr_cons {α : Type} (absent : α) (key' : String) (d : Decoded) (key : String)
    (part : Decoded → Option α) :
    getOr ((key', d) :: fs) absent key part
      = if key = key' then part d else getOr fs absent key part := by
  by_cases h : key = key'
  · rw [if_pos h, getOr, List.lookup_cons, beq_iff_eq.mpr h]
  · rw [if_neg h, getOr, List.lookup_cons, beq_false_of_ne h]
    rfl

/-- The kind of a decoded node is the one that its document names. -/
theorem kind_eq (hkind : fs.lookup "kind" = some (Json.str k.name).decode) : fs.kind = some k := by
  rw [kind, get, hkind]
  exact NodeKind.ofName?_name k

/-- The origin of a decoded node has the span of its document, and no literal. -/
theorem origin_eq (hspan : fs.lookup "span" = some s.document.decode) :
    fs.origin = some ⟨[], s⟩ := by
  rw [origin, get, hspan, Option.bind_some, s.decode_document]
  rfl

/-- A decoded expression is decided by its kind and its span, and then by the members that its kind
asks for. -/
theorem expr_eq (hkind : fs.lookup "kind" = some (Json.str k.name).decode)
    (hspan : fs.lookup "span" = some s.document.decode) : fs.expr = fs.exprOf ⟨[], s⟩ k := by
  rw [expr, kind_eq hkind, origin_eq hspan]
  rfl

/-- A decoded statement is decided in the same way. -/
theorem stmt_eq (hkind : fs.lookup "kind" = some (Json.str k.name).decode)
    (hspan : fs.lookup "span" = some s.document.decode) : fs.stmt = fs.stmtOf ⟨[], s⟩ k := by
  rw [stmt, kind_eq hkind, origin_eq hspan]
  rfl

theorem block_eq (hkind : fs.lookup "kind" = some (Json.str NodeKind.blockStatement.name).decode)
    (hspan : fs.lookup "span" = some s.document.decode) :
    fs.block = do return Block.of ⟨[], s⟩ (← fs.get "statements" Decoded.statements) := by
  rw [block, kind_eq hkind, origin_eq hspan]
  rfl

theorem program_eq (hkind : fs.lookup "kind" = some (Json.str NodeKind.program.name).decode)
    (hspan : fs.lookup "span" = some s.document.decode) :
    fs.program = do return Program.mk ⟨[], s⟩ (← fs.get "statements" Decoded.statements) := by
  rw [program, kind_eq hkind, origin_eq hspan]
  rfl

theorem binder_eq (hkind : fs.lookup "kind" = some (Json.str NodeKind.identifier.name).decode)
    (hspan : fs.lookup "span" = some s.document.decode) :
    fs.binder = do return Binder.mk ⟨[], s⟩ (← fs.get "value" Decoded.text) := by
  rw [binder, kind_eq hkind, origin_eq hspan]
  rfl

end DecodedFields

open DecodedFields

/-- The document of a name is decoded as the name without its literal. -/
theorem Binder.decode_document (b : Binder) : b.document.decode.binder = some (some b.outline) := by
  rw [Binder.document, Json.decode, Decoded.ofFields, binder_eq (s := b.origin.span) rfl rfl]
  rfl

/-- A parameter without its origin is what its name tells. -/
theorem mk_comp_name : Binder.mk default ∘ Binder.name = Binder.unplaced :=
  rfl

/-- The names of parameters are decoded as such. -/
theorem decode_names (params : List (Option Binder)) :
    (decodeElements (params.map parameterDocument)).mapM Decoded.name
      = some (params.map (Option.map Binder.name)) := by
  induction params with
  | nil => rfl
  | cons p rest ih => cases p <;> simp [parameterDocument, ih]

mutual

/-- The document of an expression that reading may build is decoded as its outline. -/
theorem Expr.decode_document : (e : Expr) → e.Grown .any → e.document.decode.expr = some e.outline
  | .absent, _ => rfl
  | .nameless, h | .foreign _, h => h.elim
  | .ident o name, _ => expr_eq (k := .identifier) rfl rfl
  | .int o value, _ => by
      refine (expr_eq (k := .integerLiteral) rfl rfl).trans ?_
      show some (Expr.int ⟨[], o.span⟩ (Int64.ofInt value.toInt)) = _
      rw [Int64.ofInt_toInt]
      rfl
  | .bool o value, _ => expr_eq (k := .bool) rfl rfl
  | .str o value, _ => expr_eq (k := .stringLiteral) rfl rfl
  | .unary o op operand, ⟨_, hop, hoperand⟩ => by
      refine (expr_eq (k := .prefixExpression) rfl rfl).trans ?_
      simp [operand.decode_document hoperand, UnaryOp.ofSymbol_symbol hop]
  | .binary o op left right, ⟨_, hop, hleft, hright⟩ => by
      refine (expr_eq (k := .infixExpression) rfl rfl).trans ?_
      simp [left.decode_document hleft, right.decode_document hright, BinaryOp.ofSymbol_symbol hop]
  -- An alternative that is absent is left out, so it is not there to be looked up.
  | .cond o test consequence .absent, ⟨_, htest, hconsequence, _⟩ => by
      refine (expr_eq (k := .ifExpression) rfl rfl).trans ?_
      simp [Block.isAbsent, test.decode_document htest, consequence.decode_document hconsequence]
  | .cond o test consequence (.of o' statements), ⟨_, htest, hconsequence, halternative⟩ => by
      refine (expr_eq (k := .ifExpression) rfl rfl).trans ?_
      simp [Block.isAbsent, test.decode_document htest, consequence.decode_document hconsequence,
        (Block.of o' statements).decode_document halternative]
  | .fn o params body, ⟨_, _, hbody⟩ => by
      refine (expr_eq (k := .functionLiteral) rfl rfl).trans ?_
      simp [decode_names, mk_comp_name, body.decode_document hbody]
  | .call o callee args, ⟨_, hcallee, hargs⟩ => by
      refine (expr_eq (k := .callExpression) rfl rfl).trans ?_
      simp [callee.decode_document hcallee, decode_exprDocuments args hargs]
  | .array o elements, ⟨_, helements⟩ => by
      refine (expr_eq (k := .arrayLiteral) rfl rfl).trans ?_
      simp [decode_exprDocuments elements helements]
  | .index o left index, ⟨_, hleft, hindex⟩ => by
      refine (expr_eq (k := .indexExpression) rfl rfl).trans ?_
      simp [left.decode_document hleft, index.decode_document hindex]
  | .hash o pairs, ⟨_, hpairs⟩ => by
      refine (expr_eq (k := .hashLiteral) rfl rfl).trans ?_
      simp [decode_pairDocuments pairs hpairs]

/-- The documents of expressions are decoded as their outlines. -/
theorem decode_exprDocuments : (es : List Expr) → exprsGrown .any es →
    (decodeElements (exprDocuments es)).mapM Decoded.expr = some (outlineExprs es)
  | [], _ => rfl
  | e :: rest, ⟨he, hrest⟩ => by
      simp [exprDocuments, e.decode_document he, decode_exprDocuments rest hrest]

/-- The documents of keys with their values are decoded as their outlines. -/
theorem decode_pairDocuments : (ps : List (Expr × Expr)) → pairsGrown .any ps →
    (decodeElements (pairDocuments ps)).mapM Decoded.pair = some (outlinePairs ps)
  | [], _ => rfl
  | (key, value) :: rest, ⟨hkey, hvalue, hrest⟩ => by
      simp [pairDocuments, key.decode_document hkey, value.decode_document hvalue,
        decode_pairDocuments rest hrest]

/-- The document of a statement that reading may build is decoded as its outline. -/
theorem Stmt.decode_document : (s : Stmt) → s.Grown .any → s.document.decode.stmt = some s.outline
  | .absent, h => h.elim
  | .block _, h => h.elim
  | .bind _ none _, h => h.elim
  | .bind o (some name) value, ⟨_, _, hvalue⟩ => by
      refine (stmt_eq (k := .letStatement) rfl rfl).trans ?_
      simp [name.decode_document, value.decode_document hvalue]
  -- A value that is absent is left out, so it is not there to be looked up.
  | .ret o value, ⟨_, hvalue⟩ => by
      cases habsent : value.isAbsent with
      | true =>
        rw [Expr.isAbsent_iff.mp habsent]
        exact stmt_eq (k := .returnStatement) rfl rfl
      | false =>
        rw [Stmt.document, habsent]
        refine (stmt_eq (k := .returnStatement) rfl rfl).trans ?_
        simp [value.decode_document hvalue]
  | .expr o expr, ⟨_, hexpr⟩ => by
      refine (stmt_eq (k := .expressionStatement) rfl rfl).trans ?_
      simp [expr.decode_document hexpr]

/-- The documents of statements are decoded as their outlines. -/
theorem decode_stmtDocuments : (ss : List Stmt) → statementsGrown .any ss →
    (decodeElements (stmtDocuments ss)).mapM Decoded.stmt = some (outlineStatements ss)
  | [], _ => rfl
  | s :: rest, ⟨hs, hrest⟩ => by
      simp [stmtDocuments, s.decode_document hs, decode_stmtDocuments rest hrest]

/-- The document of a block that reading may build is decoded as its outline. -/
theorem Block.decode_document : (b : Block) → b.Grown .any →
    b.document.decode.block = some b.outline
  | .absent, _ => rfl
  | .of o statements, ⟨_, hstatements⟩ => by
      refine (block_eq rfl rfl).trans ?_
      simp [decode_stmtDocuments statements hstatements]

end

/-- The document of a program that reading may build is decoded as its outline. -/
theorem Program.decode_document (p : Program) (h : p.Grown .any) :
    p.document.decode.program = some p.outline := by
  obtain ⟨-, hstatements⟩ := h
  refine (program_eq rfl rfl).trans ?_
  simp [Program.outline, decode_stmtDocuments p.statements hstatements]

/-! ## Documents of outlines -/

@[simp] theorem Expr.isAbsent_outline (e : Expr) : e.outline.isAbsent = e.isAbsent := by
  cases e <;> rfl

@[simp] theorem Block.isAbsent_outline (b : Block) : b.outline.isAbsent = b.isAbsent := by
  cases b <;> rfl

theorem parameterDocument_unplaced (p : Option Binder) :
    parameterDocument (p.map Binder.unplaced) = parameterDocument p := by
  cases p <;> rfl

mutual

/-- What an outline leaves out does not show in the document. -/
theorem Expr.document_outline : (e : Expr) → e.outline.document = e.document
  | .absent | .nameless | .foreign _ | .ident _ _ | .int _ _ | .bool _ _ | .str _ _ => rfl
  | .unary _ _ operand => by
      simp [Expr.document, operand.document_outline]
  | .binary _ _ left right => by
      simp [Expr.document, left.document_outline, right.document_outline]
  | .cond _ test consequence alternative => by
      simp [Expr.document, test.document_outline, consequence.document_outline,
        alternative.document_outline]
  | .fn _ params body => by
      simp [Expr.document, parameterDocument_unplaced, body.document_outline]
  | .call _ callee args => by
      simp [Expr.document, callee.document_outline, exprDocuments_outline args]
  | .array _ elements => by
      simp [Expr.document, exprDocuments_outline elements]
  | .index _ left index => by
      simp [Expr.document, left.document_outline, index.document_outline]
  | .hash _ pairs => by
      simp [Expr.document, pairDocuments_outline pairs]

/-- What is left of expressions has the documents of the expressions. -/
theorem exprDocuments_outline : (es : List Expr) →
    exprDocuments (outlineExprs es) = exprDocuments es
  | [] => rfl
  | e :: rest => by
      simp [exprDocuments, e.document_outline, exprDocuments_outline rest]

theorem pairDocuments_outline : (ps : List (Expr × Expr)) →
    pairDocuments (outlinePairs ps) = pairDocuments ps
  | [] => rfl
  | (key, value) :: rest => by
      simp [pairDocuments, key.document_outline, value.document_outline, pairDocuments_outline rest]

/-- What is left of a statement has the document of the statement. -/
theorem Stmt.document_outline : (s : Stmt) → s.outline.document = s.document
  | .absent => rfl
  | .bind _ none value | .bind _ (some _) value => by
      simp [Stmt.document, Binder.document, Binder.outline, value.document_outline]
  | .ret _ value => by
      simp [Stmt.document, value.document_outline]
  | .expr _ expr => by
      simp [Stmt.document, expr.document_outline]
  | .block block => by
      simp [Stmt.document, block.document_outline]

theorem stmtDocuments_outline : (ss : List Stmt) →
    stmtDocuments (outlineStatements ss) = stmtDocuments ss
  | [] => rfl
  | s :: rest => by
      simp [stmtDocuments, s.document_outline, stmtDocuments_outline rest]

theorem Block.document_outline : (b : Block) → b.outline.document = b.document
  | .absent => rfl
  | .of _ statements => by
      simp [Block.document, stmtDocuments_outline statements]

end

/-- What is left of a program has the document of the program: nothing that it lost was written. -/
theorem Program.document_outline (p : Program) : p.outline.document = p.document := by
  simp [Program.document, Program.outline, stmtDocuments_outline]

/-- The document of the tree that a source reads as, whether or not there are problems with it, is
decoded as the tree without the literals of tokens and the origins of parameters. So two sources
have the same document exactly if their trees are the same but for those. -/
theorem document_is_lossless :
    (∀ source, (parse source).program.document.decode.program
      = some (parse source).program.outline) ∧
    ∀ a b, (parse a).program.document = (parse b).program.document
      ↔ (parse a).program.outline = (parse b).program.outline := by
  have hdecode : ∀ source, (parse source).program.document.decode.program
      = some (parse source).program.outline := by
    intro source
    have hgrown : (parse source).program.Grown .any := (grown_parse .any fun _ _ => trivial).1
    exact (parse source).program.decode_document hgrown
  refine ⟨hdecode, fun a b => ⟨fun h => ?_, fun h => ?_⟩⟩
  · have hsome := hdecode a
    rw [h, hdecode b] at hsome
    exact (Option.some.inj hsome).symm
  · rw [← Program.document_outline, h, Program.document_outline]

end Monkey
