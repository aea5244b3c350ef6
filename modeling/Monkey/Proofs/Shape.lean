import Monkey.Syntax.Render

/-!
# Trees up to where they came from

Two programs that differ only in layout are read as trees that differ only in
the origins of their nodes. `Expr.relocate` rewrites every origin of a tree, and
`Expr.shape` forgets all spans and keeps the literals, except that an expression
statement and a program keep nothing: the literal that starts them is that of the
first token of the text, which may be a parenthesis that leaves no other trace.

The canonical text of a tree is a function of its shape (`Program.render_shape`).
-/

namespace Monkey

/-- The origin with a literal and no particular place. -/
def Origin.ofLiteral (literal : Text) : Origin :=
  ⟨literal, default⟩

/-- An origin without its place. -/
def Origin.unplaced (o : Origin) : Origin :=
  .ofLiteral o.literal

/-- A name with its origin rewritten. -/
def Binder.relocate (node : Origin → Origin) (b : Binder) : Binder :=
  ⟨node b.origin, b.name⟩

mutual

/-- Rewrite the origins of an expression: those of expression statements inside it by
`statement`, all others by `node`. -/
def Expr.relocate (node statement : Origin → Origin) : Expr → Expr
  | .absent => .absent
  | .nameless => .nameless
  | .foreign o => .foreign (node o)
  | .ident o name => .ident (node o) name
  | .int o value => .int (node o) value
  | .bool o value => .bool (node o) value
  | .str o value => .str (node o) value
  | .unary o op operand => .unary (node o) op (operand.relocate node statement)
  | .binary o op left right =>
      .binary (node o) op (left.relocate node statement) (right.relocate node statement)
  | .cond o test consequence alternative =>
      .cond (node o) (test.relocate node statement) (consequence.relocate node statement)
        (alternative.relocate node statement)
  | .fn o params body =>
      .fn (node o) (params.map (Option.map (Binder.relocate node))) (body.relocate node statement)
  | .call o callee args =>
      .call (node o) (callee.relocate node statement) (relocateExprs node statement args)
  | .array o elements => .array (node o) (relocateExprs node statement elements)
  | .index o left index =>
      .index (node o) (left.relocate node statement) (index.relocate node statement)
  | .hash o pairs => .hash (node o) (relocatePairs node statement pairs)

/-- Rewrite the origins of expressions. -/
def relocateExprs (node statement : Origin → Origin) : List Expr → List Expr
  | [] => []
  | e :: rest => e.relocate node statement :: relocateExprs node statement rest

/-- Rewrite the origins of keys with their values. -/
def relocatePairs (node statement : Origin → Origin) : List (Expr × Expr) → List (Expr × Expr)
  | [] => []
  | (key, value) :: rest =>
      (key.relocate node statement, value.relocate node statement)
        :: relocatePairs node statement rest

/-- Rewrite the origins of a statement. -/
def Stmt.relocate (node statement : Origin → Origin) : Stmt → Stmt
  | .absent => .absent
  | .bind o name value =>
      .bind (node o) (name.map (Binder.relocate node)) (value.relocate node statement)
  | .ret o value => .ret (node o) (value.relocate node statement)
  | .expr o expr => .expr (statement o) (expr.relocate node statement)
  | .block block => .block (block.relocate node statement)

/-- Rewrite the origins of statements. -/
def relocateStatements (node statement : Origin → Origin) : List Stmt → List Stmt
  | [] => []
  | s :: rest => s.relocate node statement :: relocateStatements node statement rest

/-- Rewrite the origins of a block. -/
def Block.relocate (node statement : Origin → Origin) : Block → Block
  | .absent => .absent
  | .of o statements => .of (node o) (relocateStatements node statement statements)

end

/-- An expression without spans, and without the origins of expression statements. -/
def Expr.shape (e : Expr) : Expr :=
  e.relocate Origin.unplaced fun _ => default

/-- A statement without spans, and without the origins of expression statements. -/
def Stmt.shape (s : Stmt) : Stmt :=
  s.relocate Origin.unplaced fun _ => default

/-- A block without spans, and without the origins of expression statements. -/
def Block.shape (b : Block) : Block :=
  b.relocate Origin.unplaced fun _ => default

/-- Statements without spans, and without the origins of expression statements. -/
def shapeStatements (statements : List Stmt) : List Stmt :=
  relocateStatements Origin.unplaced (fun _ => default) statements

/-- Expressions without spans, and without the origins of expression statements. -/
def shapeExprs (exprs : List Expr) : List Expr :=
  relocateExprs Origin.unplaced (fun _ => default) exprs

/-- Keys and values without spans, and without the origins of expression statements. -/
def shapePairs (pairs : List (Expr × Expr)) : List (Expr × Expr) :=
  relocatePairs Origin.unplaced (fun _ => default) pairs

/-- A program without spans, and without its own origin and those of expression
statements. -/
def Program.shape (p : Program) : Program :=
  ⟨default, shapeStatements p.statements⟩

section

variable (o : Origin)

@[simp] theorem Expr.shape_absent : Expr.absent.shape = .absent := rfl

@[simp] theorem Expr.shape_ident (name : Text) :
    (Expr.ident o name).shape = .ident o.unplaced name := rfl

@[simp] theorem Expr.shape_int (value : Int64) :
    (Expr.int o value).shape = .int o.unplaced value := rfl

@[simp] theorem Expr.shape_bool (value : Bool) :
    (Expr.bool o value).shape = .bool o.unplaced value := rfl

@[simp] theorem Expr.shape_str (value : Text) :
    (Expr.str o value).shape = .str o.unplaced value := rfl

@[simp] theorem Expr.shape_unary (op : UnaryOp) (operand : Expr) :
    (Expr.unary o op operand).shape = .unary o.unplaced op operand.shape := rfl

@[simp] theorem Expr.shape_binary (op : BinaryOp) (left right : Expr) :
    (Expr.binary o op left right).shape = .binary o.unplaced op left.shape right.shape := rfl

@[simp] theorem Expr.shape_cond (test : Expr) (consequence alternative : Block) :
    (Expr.cond o test consequence alternative).shape
      = .cond o.unplaced test.shape consequence.shape alternative.shape := rfl

@[simp] theorem Expr.shape_fn (params : List (Option Binder)) (body : Block) :
    (Expr.fn o params body).shape
      = .fn o.unplaced (params.map (Option.map (Binder.relocate Origin.unplaced))) body.shape := rfl

@[simp] theorem Expr.shape_call (callee : Expr) (args : List Expr) :
    (Expr.call o callee args).shape = .call o.unplaced callee.shape (shapeExprs args) := rfl

@[simp] theorem Expr.shape_array (elements : List Expr) :
    (Expr.array o elements).shape = .array o.unplaced (shapeExprs elements) := rfl

@[simp] theorem Expr.shape_index (left index : Expr) :
    (Expr.index o left index).shape = .index o.unplaced left.shape index.shape := rfl

@[simp] theorem Expr.shape_hash (pairs : List (Expr × Expr)) :
    (Expr.hash o pairs).shape = .hash o.unplaced (shapePairs pairs) := rfl

@[simp] theorem Stmt.shape_bind (name : Option Binder) (value : Expr) :
    (Stmt.bind o name value).shape
      = .bind o.unplaced (name.map (Binder.relocate Origin.unplaced)) value.shape := rfl

@[simp] theorem Stmt.shape_ret (value : Expr) :
    (Stmt.ret o value).shape = .ret o.unplaced value.shape := rfl

@[simp] theorem Stmt.shape_expr (expr : Expr) :
    (Stmt.expr o expr).shape = .expr default expr.shape := rfl

@[simp] theorem Block.shape_absent : Block.absent.shape = .absent := rfl

@[simp] theorem Block.shape_of (statements : List Stmt) :
    (Block.of o statements).shape = .of o.unplaced (shapeStatements statements) := rfl

@[simp] theorem shapeExprs_nil : shapeExprs [] = [] := rfl

@[simp] theorem shapeExprs_cons (e : Expr) (rest : List Expr) :
    shapeExprs (e :: rest) = e.shape :: shapeExprs rest := rfl

@[simp] theorem shapePairs_nil : shapePairs [] = [] := rfl

@[simp] theorem shapePairs_cons (key value : Expr) (rest : List (Expr × Expr)) :
    shapePairs ((key, value) :: rest) = (key.shape, value.shape) :: shapePairs rest := rfl

@[simp] theorem shapeStatements_nil : shapeStatements [] = [] := rfl

@[simp] theorem shapeStatements_cons (s : Stmt) (rest : List Stmt) :
    shapeStatements (s :: rest) = s.shape :: shapeStatements rest := rfl

end

/-! ## The canonical text sees only the shape -/

@[simp] theorem Origin.unplaced_literal (o : Origin) : o.unplaced.literal = o.literal := rfl

@[simp] theorem Origin.unplaced_mk (l : Text) (s : Span) :
    Origin.unplaced ⟨l, s⟩ = .ofLiteral l := rfl

@[simp] theorem Expr.isAbsent_relocate (node statement : Origin → Origin) (e : Expr) :
    (e.relocate node statement).isAbsent = e.isAbsent := by
  cases e <;> rfl

@[simp] theorem Block.isAbsent_relocate (node statement : Origin → Origin) (b : Block) :
    (b.relocate node statement).isAbsent = b.isAbsent := by
  cases b <;> rfl

/-- Rewriting their origins keeps the names of parameters. -/
theorem names_relocate (node : Origin → Origin) (params : List (Option Binder)) :
    (params.map (Option.map (Binder.relocate node))).map (Option.map Binder.name) =
      params.map (Option.map Binder.name) := by
  rw [List.map_map]
  refine List.map_congr_left fun p _ => ?_
  cases p <;> rfl

theorem parameterNames_relocate (node : Origin → Origin) (params : List (Option Binder)) :
    (params.map (Option.map (Binder.relocate node))).map parameterName =
      params.map parameterName := by
  rw [List.map_map]
  refine List.map_congr_left fun p _ => ?_
  cases p <;> rfl

section Render

variable {node statement : Origin → Origin}

mutual

/-- Origins matter to the text of an expression only by their literals. -/
theorem Expr.render_relocate (h : ∀ o, (node o).literal = o.literal) :
    (e : Expr) → (e.relocate node statement).render = e.render
  | .absent => rfl
  | .nameless => rfl
  | .foreign _ => rfl
  | .ident _ _ => rfl
  | .int o _ => h o
  | .bool o _ => h o
  | .str _ _ => rfl
  | .unary _ _ operand => by
      simp only [Expr.relocate, Expr.render, operand.render_relocate h]
  | .binary _ _ left right => by
      simp only [Expr.relocate, Expr.render, left.render_relocate h, right.render_relocate h]
  | .cond _ test consequence alternative => by
      simp only [Expr.relocate, Expr.render, test.render_relocate h,
        consequence.render_relocate h, alternative.render_relocate h, Block.isAbsent_relocate]
  | .fn o params body => by
      simp only [Expr.relocate, Expr.render, body.render_relocate h, parameterNames_relocate, h o]
  | .call _ callee args => by
      simp only [Expr.relocate, Expr.render, callee.render_relocate h,
        renderExprs_relocate h args]
  | .array _ elements => by
      simp only [Expr.relocate, Expr.render, renderExprs_relocate h elements]
  | .index _ left index => by
      simp only [Expr.relocate, Expr.render, left.render_relocate h, index.render_relocate h]
  | .hash _ pairs => by
      simp only [Expr.relocate, Expr.render, renderPairs_relocate h pairs]

/-- The same for the texts of expressions. -/
theorem renderExprs_relocate (h : ∀ o, (node o).literal = o.literal) :
    (es : List Expr) → renderExprs (relocateExprs node statement es) = renderExprs es
  | [] => rfl
  | e :: rest => by
      simp only [relocateExprs, renderExprs, e.render_relocate h, renderExprs_relocate h rest]

/-- The same for the texts of keys with their values. -/
theorem renderPairs_relocate (h : ∀ o, (node o).literal = o.literal) :
    (ps : List (Expr × Expr)) → renderPairs (relocatePairs node statement ps) = renderPairs ps
  | [] => rfl
  | (key, value) :: rest => by
      simp only [relocatePairs, renderPairs, key.render_relocate h, value.render_relocate h,
        renderPairs_relocate h rest]

/-- The same for the text of a statement. -/
theorem Stmt.render_relocate (h : ∀ o, (node o).literal = o.literal) :
    (s : Stmt) → (s.relocate node statement).render = s.render
  | .absent => rfl
  | .bind o name value => by
      cases name <;>
        simp only [Stmt.relocate, Stmt.render, value.render_relocate h, h o, Option.map,
          Binder.relocate]
  | .ret o value => by
      simp only [Stmt.relocate, Stmt.render, value.render_relocate h, h o,
        Expr.isAbsent_relocate]
  | .expr _ expr => by
      simp only [Stmt.relocate, Stmt.render, expr.render_relocate h]
  | .block block => by
      simp only [Stmt.relocate, Stmt.render, block.render_relocate h, Block.isAbsent_relocate]

/-- The same for the texts of statements. -/
theorem renderStatements_relocate (h : ∀ o, (node o).literal = o.literal) :
    (ss : List Stmt) →
      renderStatements (relocateStatements node statement ss) = renderStatements ss
  | [] => rfl
  | s :: rest => by
      simp only [relocateStatements, renderStatements, s.render_relocate h,
        renderStatements_relocate h rest]

/-- The same for the text of a block. -/
theorem Block.render_relocate (h : ∀ o, (node o).literal = o.literal) :
    (b : Block) → (b.relocate node statement).render = b.render
  | .absent => rfl
  | .of _ statements => by
      simp only [Block.relocate, Block.render, renderStatements_relocate h statements]

end

end Render

/-- The canonical text of a program is that of its shape. -/
theorem Program.render_shape (p : Program) : p.shape.render = p.render := by
  show joinStatements (renderStatements (shapeStatements p.statements)) = p.render
  rw [shapeStatements, renderStatements_relocate fun o => Origin.unplaced_literal o]
  rfl

end Monkey
