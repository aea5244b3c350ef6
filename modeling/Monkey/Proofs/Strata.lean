import Monkey.Proofs.Grammar
import Monkey.Syntax.Parse

/-!
# Strata and precedences

The grammar orders the operators by strata, the reading by precedences: an operator's
precedence is one more than its stratum. Beside that, this file says how phrases
start, and that a phrase of one stratum is one of every looser stratum.
-/

namespace Monkey

namespace Grammar

/-! ## Precedences and strata -/

/-- A kind that binds at all is a call, an index or an operator, whose precedence is just
above its stratum. -/
theorem binds_cases {k : Kind} (hk : 1 < k.precedence) :
    k = .lparen ∨ k = .lbracket ∨
      ∃ op : Operator, k = op.kind ∧ k.precedence = op.stratum + 1 := by
  cases k with
  | eq => exact .inr (.inr ⟨.eq, rfl, rfl⟩)
  | notEq => exact .inr (.inr ⟨.ne, rfl, rfl⟩)
  | lt => exact .inr (.inr ⟨.lt, rfl, rfl⟩)
  | gt => exact .inr (.inr ⟨.gt, rfl, rfl⟩)
  | plus => exact .inr (.inr ⟨.add, rfl, rfl⟩)
  | minus => exact .inr (.inr ⟨.sub, rfl, rfl⟩)
  | asterisk => exact .inr (.inr ⟨.mul, rfl, rfl⟩)
  | slash => exact .inr (.inr ⟨.div, rfl, rfl⟩)
  | lparen => exact .inl rfl
  | lbracket => exact .inr (.inl rfl)
  | _ => exact absurd hk (by decide)

/-- The kinds that continue an expression are those that bind at all. -/
theorem continues_iff (k : Kind) : continues k = true ↔ 1 < k.precedence := by
  cases k <;> decide

/-- An operator's stratum is one of the first four. -/
theorem Operator.stratum_le (op : Operator) : op.stratum ≤ 4 := by
  cases op <;> decide

theorem Operator.kind_ne_lparen (op : Operator) : op.kind ≠ .lparen := by
  cases op <;> decide

theorem Operator.kind_ne_lbracket (op : Operator) : op.kind ≠ .lbracket := by
  cases op <;> decide

theorem Operator.spelling_ne_nil (op : Operator) : op.kind.spelling ≠ [] := by
  cases op <;> decide

/-- The operator that is read from a token of its kind. -/
theorem Operator.ofToken_eq (op : Operator) {t : Token} (ht : t.kind = op.kind) :
    BinaryOp.ofToken t = op.op := by
  unfold BinaryOp.ofToken
  rw [ht]
  cases op <;> rfl

/-! ## First terminals -/

/-- Whether an operand without a sign starts with a kind of token. -/
def startsAtom : Kind → Bool
  | .ident | .int | .str | .trueWord | .falseWord | .lparen | .ifWord | .fnWord | .lbracket
  | .lbrace => true
  | _ => false

/-- Whether an expression starts with a kind of token. -/
def starts (k : Kind) : Bool :=
  startsAtom k || k == .bang || k == .minus

theorem firstKind_append {ts : List Terminal} (h : firstKind ts ≠ .eof) (rest : List Terminal) :
    firstKind (ts ++ rest) = firstKind ts := by
  cases ts with
  | nil => exact absurd rfl h
  | cons t ts => rfl

theorem ne_eof_of_starts {k : Kind} (h : starts k = true) : k ≠ .eof := by
  rintro rfl
  exact absurd h (by decide)

theorem starts_of_startsAtom {k : Kind} (h : startsAtom k = true) : starts k = true := by
  rw [starts, h]
  rfl

/-- There is nothing above the seventh stratum. -/
theorem Phrase.stratum_le : {k : Nat} → Phrase k → k ≤ 7
  | _, .ident _ | _, .int _ | _, .str _ | _, .bool _ | _, .group _ | _, .cond _ _
  | _, .condElse _ _ _ | _, .fn _ _ | _, .array _ | _, .emptyHash | _, .hash _ _ _ _ => by decide
  | _, .call _ _ | _, .index _ _ => by decide
  | _, .unary _ _ => by decide
  | _, .binary _ _ left _ => left.stratum_le
  | _, .lift inner => Nat.le_of_succ_le inner.stratum_le

/-- A phrase of the last two strata starts as an operand without a sign does. -/
theorem Phrase.startsAtom : {k : Nat} → (c : Phrase k) → 6 ≤ k →
    startsAtom (firstKind c.yield) = true
  | _, .ident _, _ | _, .int _, _ | _, .str _, _ | _, .group _, _ | _, .cond _ _, _
  | _, .condElse _ _ _, _ | _, .fn _ _, _ | _, .array _, _ | _, .emptyHash, _
  | _, .hash _ _ _ _, _ => rfl
  | _, .bool value, _ => by cases value <;> rfl
  | _, .call callee _, h | _, .index callee _, h => by
      have hfirst := callee.startsAtom h
      rw [Phrase.yield, firstKind_append (ne_eof_of_starts (starts_of_startsAtom hfirst))]
      exact hfirst
  | _, .unary _ _, h => absurd h (by decide)
  | _, .binary _ _ left _, h => by
      have hfirst := left.startsAtom h
      rw [Phrase.yield, firstKind_append (ne_eof_of_starts (starts_of_startsAtom hfirst))]
      exact hfirst
  | _, .lift inner, h => inner.startsAtom (Nat.le_succ_of_le h)

/-- A phrase starts as an expression does. -/
theorem Phrase.starts : {k : Nat} → (c : Phrase k) → starts (firstKind c.yield) = true
  | _, .ident _ | _, .int _ | _, .str _ | _, .group _ | _, .cond _ _ | _, .condElse _ _ _
  | _, .fn _ _ | _, .array _ | _, .emptyHash | _, .hash _ _ _ _ => rfl
  | _, .bool value => by cases value <;> rfl
  | _, .call callee _ | _, .index callee _ => by
      rw [Phrase.yield, firstKind_append (ne_eof_of_starts callee.starts)]
      exact callee.starts
  | _, .unary sign _ => by cases sign <;> rfl
  | _, .binary _ _ left _ => by
      rw [Phrase.yield, firstKind_append (ne_eof_of_starts left.starts)]
      exact left.starts
  | _, .lift inner => inner.starts

/-- What follows a phrase does not change how it starts. -/
theorem Phrase.firstKind_yield_append {k : Nat} (c : Phrase k) (rest : List Terminal) :
    firstKind (c.yield ++ rest) = firstKind c.yield :=
  firstKind_append (ne_eof_of_starts c.starts) rest

theorem Phrase.starts_append {k : Nat} (c : Phrase k) (rest : List Terminal) :
    Grammar.starts (firstKind (c.yield ++ rest)) = true := by
  rw [c.firstKind_yield_append]
  exact c.starts

theorem Phrase.length_yield_pos {k : Nat} (c : Phrase k) : 0 < c.yield.length := by
  cases hy : c.yield with
  | nil => exact absurd (congrArg firstKind hy) (ne_eof_of_starts c.starts)
  | cons t ts => exact Nat.succ_pos _

/-! ## Phrases and sentences -/

/-- A phrase is a phrase of every looser stratum. -/
theorem Phrase.exists_lift {j k : Nat} (hk : k ≤ j) (c : Phrase j) :
    ∃ c' : Phrase k, c'.yield = c.yield ∧ c'.tree = c.tree ∧ (c.Proper → c'.Proper) := by
  induction hk with
  | refl => exact ⟨c, rfl, rfl, id⟩
  | step _ ih => exact ih c.lift

/-- Whether sentences are proper depends on what follows them only by its first kind. -/
theorem ProperStatements.congr {a b : List Terminal} (hab : firstKind a = firstKind b) :
    {cs : List Sentence} → ProperStatements a cs → ProperStatements b cs
  | [], _ => trivial
  | c :: cs, ⟨hc, hnext, hcs⟩ => by
      refine ⟨hc, ?_, hcs.congr hab⟩
      cases hy : yieldStatements cs with
      | nil =>
          rw [hy, List.nil_append, hab] at hnext
          exact hnext
      | cons t ts =>
          rw [hy] at hnext
          exact hnext

end Grammar

end Monkey
