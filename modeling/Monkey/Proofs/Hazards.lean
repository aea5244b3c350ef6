import Monkey.Proofs.Shape
import Monkey.Value.Shown

/-!
# What a tree may crash at

Two things in a tree can lead to a crash. A node that the language does not have crashes when it is
evaluated. A parameter that is missing crashes when its function is called, and also when the text
of the function is asked for, as does a missing name that a return statement is to show. A tree may
be free of either (`Expr.isFreeOf`), in all of its nodes and in the bodies of functions.

The text of a tree can be told exactly if nothing is missing from it in this sense, and it is then
the canonical text (`Expr.shown_eq`, `Block.shown_eq`). Where the nodes came from does not matter.
-/

namespace Monkey

/-- Whether parameters have nothing among them that leads to a crash of a kind. -/
def paramsFreeOf {α : Type} (c : Crash) (params : List (Option α)) : Bool :=
  c ≠ .absent || params.all Option.isSome

mutual

/-- Whether a tree has nothing in it that leads to a crash of a kind. -/
def Expr.isFreeOf (c : Crash) : Expr → Bool
  | .foreign _ => c ≠ .unhandledNode
  | .absent | .nameless | .ident _ _ | .int _ _ | .bool _ _ | .str _ _ => true
  | .unary _ _ operand => operand.isFreeOf c
  | .binary _ _ left right => left.isFreeOf c && right.isFreeOf c
  | .cond _ test consequence alternative =>
    test.isFreeOf c && (consequence.isFreeOf c && alternative.isFreeOf c)
  | .fn _ params body => paramsFreeOf c params && body.isFreeOf c
  | .call _ callee args => callee.isFreeOf c && exprsFreeOf c args
  | .array _ elements => exprsFreeOf c elements
  | .index _ left index => left.isFreeOf c && index.isFreeOf c
  | .hash _ pairs => pairsFreeOf c pairs

/-- The same for expressions. -/
def exprsFreeOf (c : Crash) : List Expr → Bool
  | [] => true
  | e :: rest => e.isFreeOf c && exprsFreeOf c rest

/-- The same for keys with their values. -/
def pairsFreeOf (c : Crash) : List (Expr × Expr) → Bool
  | [] => true
  | (k, v) :: rest => k.isFreeOf c && (v.isFreeOf c && pairsFreeOf c rest)

/-- The same for a statement. What it returns may be absent, but not a missing name. -/
def Stmt.isFreeOf (c : Crash) : Stmt → Bool
  | .absent => true
  | .bind _ _ value => value.isFreeOf c
  | .ret _ value => (c ≠ .absent || value.isAbsent || !value.isMissing) && value.isFreeOf c
  | .expr _ expr => expr.isFreeOf c
  | .block block => block.isFreeOf c

/-- The same for statements. -/
def statementsFreeOf (c : Crash) : List Stmt → Bool
  | [] => true
  | s :: rest => s.isFreeOf c && statementsFreeOf c rest

/-- The same for a block. -/
def Block.isFreeOf (c : Crash) : Block → Bool
  | .absent => true
  | .of _ statements => statementsFreeOf c statements

end

/-- Whether any part of a program has nothing in it that leads to a crash of a kind. -/
def Node.isFreeOf (c : Crash) : Node → Bool
  | .program p => statementsFreeOf c p.statements
  | .stmt s => s.isFreeOf c
  | .expr e => e.isFreeOf c

/-- Whether a value is no function, or one that has nothing in it that leads to a crash of a
kind. -/
def Value.isFreeOf (c : Crash) : Value → Bool
  | .fn _ params body _ => paramsFreeOf c params && body.isFreeOf c
  | _ => true

/-- A crash that nothing in a tree leads to. -/
def Crash.Inert (c : Crash) : Prop :=
  c ≠ .unhandledNode ∧ c ≠ .absent

section Inert

variable {c : Crash}

mutual

/-- A tree is free of every crash that nothing in a tree leads to. -/
theorem Expr.isFreeOf_inert (h : c.Inert) : (e : Expr) → e.isFreeOf c = true
  | .foreign _ => decide_eq_true h.1
  | .absent | .nameless | .ident _ _ | .int _ _ | .bool _ _ | .str _ _ => rfl
  | .unary _ _ operand => operand.isFreeOf_inert h
  | .binary _ _ left right =>
      Bool.and_eq_true_iff.mpr ⟨left.isFreeOf_inert h, right.isFreeOf_inert h⟩
  | .cond _ test consequence alternative =>
      Bool.and_eq_true_iff.mpr ⟨test.isFreeOf_inert h,
        Bool.and_eq_true_iff.mpr ⟨consequence.isFreeOf_inert h, alternative.isFreeOf_inert h⟩⟩
  | .fn _ _ body =>
      Bool.and_eq_true_iff.mpr
        ⟨Bool.or_eq_true_iff.mpr (.inl (decide_eq_true h.2)), body.isFreeOf_inert h⟩
  | .call _ callee args =>
      Bool.and_eq_true_iff.mpr ⟨callee.isFreeOf_inert h, exprsFreeOf_inert h args⟩
  | .array _ elements => exprsFreeOf_inert h elements
  | .index _ left index =>
      Bool.and_eq_true_iff.mpr ⟨left.isFreeOf_inert h, index.isFreeOf_inert h⟩
  | .hash _ pairs => pairsFreeOf_inert h pairs

theorem exprsFreeOf_inert (h : c.Inert) : (es : List Expr) → exprsFreeOf c es = true
  | [] => rfl
  | e :: rest => Bool.and_eq_true_iff.mpr ⟨e.isFreeOf_inert h, exprsFreeOf_inert h rest⟩

theorem pairsFreeOf_inert (h : c.Inert) : (ps : List (Expr × Expr)) → pairsFreeOf c ps = true
  | [] => rfl
  | (key, value) :: rest =>
      Bool.and_eq_true_iff.mpr ⟨key.isFreeOf_inert h,
        Bool.and_eq_true_iff.mpr ⟨value.isFreeOf_inert h, pairsFreeOf_inert h rest⟩⟩

/-- No statement can lead to an inert crash. -/
theorem Stmt.isFreeOf_inert (h : c.Inert) : (s : Stmt) → s.isFreeOf c = true
  | .absent => rfl
  | .bind _ _ value => value.isFreeOf_inert h
  | .ret _ value => by
      rw [Stmt.isFreeOf, decide_eq_true h.2]
      exact value.isFreeOf_inert h
  | .expr _ expr => expr.isFreeOf_inert h
  | .block block => block.isFreeOf_inert h

theorem statementsFreeOf_inert (h : c.Inert) : (ss : List Stmt) → statementsFreeOf c ss = true
  | [] => rfl
  | s :: rest => Bool.and_eq_true_iff.mpr ⟨s.isFreeOf_inert h, statementsFreeOf_inert h rest⟩

theorem Block.isFreeOf_inert (h : c.Inert) : (b : Block) → b.isFreeOf c = true
  | .absent => rfl
  | .of _ statements => statementsFreeOf_inert h statements

end

/-- No node can lead to an inert crash. -/
theorem Node.isFreeOf_inert (h : c.Inert) (node : Node) : node.isFreeOf c = true := by
  cases node with
  | program p => exact statementsFreeOf_inert h p.statements
  | stmt s => exact s.isFreeOf_inert h
  | expr e => exact e.isFreeOf_inert h

/-- No value can lead to an inert crash. -/
theorem Value.isFreeOf_inert (h : c.Inert) (v : Value) : v.isFreeOf c = true := by
  cases v with
  | fn ref params body scope =>
      refine Bool.and_eq_true_iff.mpr ⟨?_, body.isFreeOf_inert h⟩
      exact Bool.or_eq_true_iff.mpr (.inl (decide_eq_true h.2))
  | _ => rfl

end Inert

/-! ## Texts that can be told -/

/-- A text that can be told or not. -/
def told {α : Type} (free : Bool) (a : α) : Except Crash α :=
  if free then .ok a else .error .absent

/-- Names of parameters are shown unless one of them is missing. -/
theorem shownNames_eq (names : List (Option Text)) :
    shownNames names = told (names.all Option.isSome) (names.map fun name => name.getD []) := by
  induction names with
  | nil => rfl
  | cons name rest ih =>
      cases name with
      | none => rfl
      | some name =>
          rw [shownNames, ih, List.all_cons, Option.isSome_some, Bool.true_and]
          cases rest.all Option.isSome <;> rfl

/-- Parameters are shown as they are rendered unless one of them is missing. -/
theorem shownNames_parameters (params : List (Option Binder)) :
    shownNames (params.map (Option.map Binder.name)) =
      told (paramsFreeOf .absent params) (params.map parameterName) := by
  have hall : (params.map (Option.map Binder.name)).all Option.isSome =
      params.all Option.isSome := by
    rw [List.all_map]
    exact congrArg (params.all ·) (funext fun p => Option.isSome_map)
  rw [shownNames_eq, hall, List.map_map]
  rfl

mutual

/-- With the check before it, the text of an expression can be told exactly if nothing is missing
from it that it needs. -/
theorem Expr.shown_eq : (e : Expr) →
    orNothing e.isMissing e.shown = told (e.isFreeOf .absent) e.render
  | .absent | .nameless | .foreign _ | .ident _ _ | .int _ _ | .bool _ _ | .str _ _ => rfl
  | .unary _ op operand => by
      show Expr.shown _ = told (operand.isFreeOf .absent) _
      rw [Expr.shown, operand.shown_eq]
      cases operand.isFreeOf .absent <;> rfl
  | .binary _ op left right => by
      show Expr.shown _ = told (left.isFreeOf .absent && right.isFreeOf .absent) _
      rw [Expr.shown, left.shown_eq, right.shown_eq]
      cases left.isFreeOf .absent <;> cases right.isFreeOf .absent <;> rfl
  -- an absent alternative is left out and does not stop showing
  | .cond _ test consequence .absent => by
      show Expr.shown _ = told (test.isFreeOf .absent && (consequence.isFreeOf .absent && true)) _
      rw [Expr.shown, test.shown_eq, consequence.shown_eq, Expr.render, Bool.and_true]
      cases test.isFreeOf .absent
      · rfl
      · cases consequence.isFreeOf .absent
        · rfl
        · exact congrArg Except.ok (List.append_nil _).symm
  | .cond _ test consequence (.of o statements) => by
      have halternative := (Block.of o statements).shown_eq
      show Expr.shown _ = told (test.isFreeOf .absent &&
        (consequence.isFreeOf .absent && (Block.of o statements).isFreeOf .absent)) _
      rw [Expr.shown, test.shown_eq, consequence.shown_eq,
        show (Block.of o statements).shown = _ from halternative]
      cases test.isFreeOf .absent <;> cases consequence.isFreeOf .absent <;>
        cases (Block.of o statements).isFreeOf .absent <;> rfl
  | .fn _ params body => by
      show Expr.shown _ = told (paramsFreeOf .absent params && body.isFreeOf .absent) _
      rw [Expr.shown, shownNames_parameters, body.shown_eq]
      cases paramsFreeOf .absent params <;> cases body.isFreeOf .absent <;> rfl
  | .call _ callee args => by
      show Expr.shown _ = told (callee.isFreeOf .absent && exprsFreeOf .absent args) _
      rw [Expr.shown, callee.shown_eq, shownExprs_eq args]
      cases callee.isFreeOf .absent <;> cases exprsFreeOf .absent args <;> rfl
  | .array _ elements => by
      show Expr.shown _ = told (exprsFreeOf .absent elements) _
      rw [Expr.shown, shownExprs_eq elements]
      cases exprsFreeOf .absent elements <;> rfl
  | .index _ left index => by
      show Expr.shown _ = told (left.isFreeOf .absent && index.isFreeOf .absent) _
      rw [Expr.shown, left.shown_eq, index.shown_eq]
      cases left.isFreeOf .absent <;> cases index.isFreeOf .absent <;> rfl
  | .hash _ pairs => by
      show Expr.shown _ = told (pairsFreeOf .absent pairs) _
      rw [Expr.shown, shownPairs_eq pairs]
      cases pairsFreeOf .absent pairs <;> rfl

/-- Expressions are shown as they are rendered, unless an absent part is in the way. -/
theorem shownExprs_eq : (es : List Expr) →
    shownExprs es = told (exprsFreeOf .absent es) (renderExprs es)
  | [] => rfl
  | e :: rest => by
      rw [shownExprs, e.shown_eq, shownExprs_eq rest, exprsFreeOf]
      cases e.isFreeOf .absent <;> cases exprsFreeOf .absent rest <;> rfl

theorem shownPairs_eq : (ps : List (Expr × Expr)) →
    shownPairs ps = told (pairsFreeOf .absent ps) (renderPairs ps)
  | [] => rfl
  | (key, value) :: rest => by
      rw [shownPairs, key.shown_eq, value.shown_eq, shownPairs_eq rest, pairsFreeOf]
      cases key.isFreeOf .absent <;> cases value.isFreeOf .absent <;>
        cases pairsFreeOf .absent rest <;> rfl

/-- A statement is shown as it is rendered, unless an absent part is in the way. -/
theorem Stmt.shown_eq : (s : Stmt) →
    orNothing (Node.stmt s).isAbsent s.shown = told (s.isFreeOf .absent) s.render
  | .absent => rfl
  | .bind _ none value | .bind _ (some _) value => by
      show Stmt.shown _ = told (value.isFreeOf .absent) _
      rw [Stmt.shown, value.shown_eq]
      cases value.isFreeOf .absent <;> rfl
  | .ret _ value => by
      have hvalue := value.shown_eq
      show Stmt.shown _ = told ((_ || value.isAbsent || !value.isMissing) && _) _
      cases hmissing : value.isMissing with
      | true =>
          -- no check stands before the text of what is returned but whether it is absent
          cases value <;> first | rfl | cases hmissing
      | false =>
          have habsent : value.isAbsent = false := by
            cases value <;> first | rfl | cases hmissing
          rw [hmissing] at hvalue
          rw [Stmt.shown, Stmt.render, show value.shown = _ from hvalue, habsent, Bool.not_false,
            Bool.or_true, Bool.true_and]
          cases value.isFreeOf .absent <;> rfl
  | .expr _ expr => expr.shown_eq
  | .block .absent => rfl
  | .block (.of o statements) => (Block.of o statements).shown_eq

theorem shownStatements_eq : (ss : List Stmt) →
    shownStatements ss = told (statementsFreeOf .absent ss) (renderStatements ss)
  | [] => rfl
  | s :: rest => by
      rw [shownStatements, s.shown_eq, shownStatements_eq rest, statementsFreeOf]
      cases s.isFreeOf .absent <;> cases statementsFreeOf .absent rest <;> rfl

/-- A block is shown as it is rendered, unless an absent part is in the way. -/
theorem Block.shown_eq : (b : Block) →
    orBraces b.isAbsent b.shown = told (b.isFreeOf .absent) b.render
  | .absent => rfl
  | .of _ statements => by
      show Block.shown _ = told (statementsFreeOf .absent statements) _
      rw [Block.shown, shownStatements_eq statements]
      cases statementsFreeOf .absent statements <;> rfl

end

/-! ## Origins -/

section Relocation

variable {node statement : Origin → Origin}

/-- Whether a parameter is missing does not depend on what those that are there say. -/
theorem paramsFreeOf_map {α β : Type} (c : Crash) (f : α → β) (params : List (Option α)) :
    paramsFreeOf c (params.map (Option.map f)) = paramsFreeOf c params := by
  rw [paramsFreeOf, paramsFreeOf, List.all_map]
  exact congrArg (_ || params.all ·) (funext fun p => Option.isSome_map)

@[simp] theorem Expr.isMissing_relocate (e : Expr) :
    (e.relocate node statement).isMissing = e.isMissing := by
  cases e <;> rfl

mutual

/-- What a tree may crash at does not depend on where its nodes came from. -/
theorem Expr.isFreeOf_relocate (c : Crash) :
    (e : Expr) → (e.relocate node statement).isFreeOf c = e.isFreeOf c
  | .absent | .nameless | .foreign _ | .ident _ _ | .int _ _ | .bool _ _ | .str _ _ => rfl
  | .unary _ _ operand => operand.isFreeOf_relocate c
  | .binary _ _ left right => by
      simp only [Expr.relocate, Expr.isFreeOf, left.isFreeOf_relocate c, right.isFreeOf_relocate c]
  | .cond _ test consequence alternative => by
      simp only [Expr.relocate, Expr.isFreeOf, test.isFreeOf_relocate c,
        consequence.isFreeOf_relocate c, alternative.isFreeOf_relocate c]
  | .fn _ params body => by
      simp only [Expr.relocate, Expr.isFreeOf, paramsFreeOf_map, body.isFreeOf_relocate c]
  | .call _ callee args => by
      simp only [Expr.relocate, Expr.isFreeOf, callee.isFreeOf_relocate c,
        exprsFreeOf_relocate c args]
  | .array _ elements => exprsFreeOf_relocate c elements
  | .index _ left index => by
      simp only [Expr.relocate, Expr.isFreeOf, left.isFreeOf_relocate c, index.isFreeOf_relocate c]
  | .hash _ pairs => pairsFreeOf_relocate c pairs

theorem exprsFreeOf_relocate (c : Crash) :
    (es : List Expr) → exprsFreeOf c (relocateExprs node statement es) = exprsFreeOf c es
  | [] => rfl
  | e :: rest => by
      simp only [relocateExprs, exprsFreeOf, e.isFreeOf_relocate c, exprsFreeOf_relocate c rest]

theorem pairsFreeOf_relocate (c : Crash) :
    (ps : List (Expr × Expr)) → pairsFreeOf c (relocatePairs node statement ps) = pairsFreeOf c ps
  | [] => rfl
  | (key, value) :: rest => by
      simp only [relocatePairs, pairsFreeOf, key.isFreeOf_relocate c, value.isFreeOf_relocate c,
        pairsFreeOf_relocate c rest]

/-- A statement keeps its hazards when its origins are rewritten. -/
theorem Stmt.isFreeOf_relocate (c : Crash) :
    (s : Stmt) → (s.relocate node statement).isFreeOf c = s.isFreeOf c
  | .absent => rfl
  | .bind _ _ value => value.isFreeOf_relocate c
  | .ret _ value => by
      simp only [Stmt.relocate, Stmt.isFreeOf, value.isFreeOf_relocate c, Expr.isAbsent_relocate,
        Expr.isMissing_relocate]
  | .expr _ expr => expr.isFreeOf_relocate c
  | .block block => block.isFreeOf_relocate c

theorem statementsFreeOf_relocate (c : Crash) : (ss : List Stmt) →
    statementsFreeOf c (relocateStatements node statement ss) = statementsFreeOf c ss
  | [] => rfl
  | s :: rest => by
      simp only [relocateStatements, statementsFreeOf, s.isFreeOf_relocate c,
        statementsFreeOf_relocate c rest]

/-- A block keeps its hazards when its origins are rewritten. -/
theorem Block.isFreeOf_relocate (c : Crash) :
    (b : Block) → (b.relocate node statement).isFreeOf c = b.isFreeOf c
  | .absent => rfl
  | .of _ statements => statementsFreeOf_relocate c statements

end

end Relocation

end Monkey
