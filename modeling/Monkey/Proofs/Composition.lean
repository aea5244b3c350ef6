import Monkey.Proofs.Concatenation
import Monkey.Proofs.Layout

/-!
# Statements of one source below another

A source that is read without problems and ends with a semicolon is read in the same way when
another source stands below it, and then that one is read as if it stood alone, only further down.

What has to be shown is that a reading which looks one token ahead stops where it did. It may look
past the last semicolon only if it ends at it without having looked for it, and no expression ends
at a semicolon: `closes_expression` says at which tokens expressions end, rule by rule. So the last
statement finds its semicolon (`Parse.upcoming_of_closed`), and all statements are carried over
(`Parse.carried_statement`, `Parse.run_above`). What is left then is the lower source.
-/

namespace Monkey

open Grammar

/-! ## Where expressions end -/

/-- Whether an expression may end with a token. -/
def Kind.closesExpression : Kind → Bool
  | .ident | .int | .str | .trueWord | .falseWord | .rparen | .rbracket | .rbrace => true
  | _ => false

theorem Kind.ne_eof_of_closes {k : Kind} (h : k.closesExpression = true) : k ≠ .eof := by
  rintro rfl
  cases h

theorem Kind.ne_semicolon_of_closes {k : Kind} (h : k.closesExpression = true) :
    k ≠ .semicolon := by
  rintro rfl
  cases h

namespace Parse

/-- A rule for expressions ends at a token that may end one. -/
def Closes (expr : Precedence → Parse Expr) : Prop :=
  ∀ {above : Precedence} {r r' : Reader} {e : Expr}, r.Sane → Clean (expr above) r e r' →
    r'.current.kind.closesExpression = true

section Rules

variable {expr : Precedence → Parse Expr} (h : ∀ q, Moves (expr q)) {r r' : Reader}
include h

/-- A list of expressions ends with its closing token. -/
theorem current_expressionList {closing : Kind} {es : Option (List Expr)}
    (hc : Clean (expressionList expr closing) r es r') : r'.current.kind = closing := by
  rcases (clean_expressionList h).mp hc with ⟨hend, rfl, -⟩ | ⟨-, _, _, _, r₂, -, -, hend, rfl, -⟩
  · exact hend
  · exact hend

variable (hd : Derives expr)
include hd

/-- A block ends with its brace. -/
theorem current_block {b : Block} (hs : r.Sane) (hc : Clean (block expr) r b r') :
    r'.current.kind = .rbrace := by
  obtain ⟨statements, hstatements, hnotEnd, -⟩ := (clean_block h).mp hc
  have hend := (derives_statementsUntil h hd hs.advance (Nat.le_refl _) hstatements).1
  exact Option.some.inj (hend.resolve_left hnotEnd)

/-- A conditional ends with the brace of its last block. -/
theorem current_conditional {e : Expr} (hs : r.Sane) (hc : Clean (conditional expr) r e r') :
    r'.current.kind = .rbrace := by
  obtain ⟨-, test, r₁, consequence, r₂, htest, -, -, hblock, hlast⟩ := (clean_conditional h).mp hc
  have hs₁ := hs.advance.advance.onward (htest.onward (h _))
  have hs₂ := hs₁.advance.advance.onward (hblock.onward (moves_block h))
  rcases hlast with ⟨-, rfl, -⟩ | ⟨-, -, alternative, helse, -⟩
  · exact current_block h hd hs₁.advance.advance hblock
  · exact current_block h hd hs₂.advance.advance helse

/-- A function ends with the brace of its body. -/
theorem current_functionLiteral {e : Expr} (hs : r.Sane)
    (hc : Clean (functionLiteral expr) r e r') : r'.current.kind = .rbrace := by
  obtain ⟨-, ps, r₁, hparams, hrest⟩ := (clean_functionLiteral h).mp hc
  obtain ⟨-, params, rfl, -⟩ := derives_parameters hs.advance hparams
  have hs₁ := hs.advance.onward (hparams.onward moves_parameters)
  rcases hrest with ⟨⟨⟩, -⟩ | ⟨_, body, -, -, hbody, -⟩
  exact current_block h hd hs₁.advance hbody

/-- A hash ends with its brace. -/
theorem current_hashLiteral {e : Expr} (hs : r.Sane) (hc : Clean (hashLiteral expr) r e r') :
    r'.current.kind = .rbrace := by
  obtain ⟨ps, r₁, hpairs, hrest⟩ := (clean_hashLiteral h).mp hc
  obtain ⟨pairs, rfl, -⟩ := derives_hashPairs h hd hs (Nat.lt_succ_self _) hpairs
  rcases hrest with ⟨⟨⟩, -⟩ | ⟨_, -, hend, rfl, -⟩
  exact hend

variable (hcloses : Closes expr)
include hcloses

/-- An operand ends with a token that can close an expression. -/
theorem closes_operand {first : Parse Expr} {e : Expr} (hs : r.Sane)
    (hfirst : operand expr r.current = some first) (hc : Clean first r e r') :
    r'.current.kind.closesExpression = true := by
  have hlast {k : Kind} (hk : r'.current.kind = k) (hcloses : k.closesExpression = true) :
      r'.current.kind.closesExpression = true := by
    rw [hk]
    exact hcloses
  unfold operand at hfirst
  -- one case for each token that starts an operand; signs leave it to their operand
  split at hfirst <;> cases hfirst
  case h_1 hk =>
      obtain ⟨-, rfl⟩ := clean_pure.mp hc
      exact hlast hk rfl
  case h_2 hk =>
      obtain ⟨-, rfl, -⟩ := clean_integer.mp hc
      exact hlast hk rfl
  case h_3 hk =>
      obtain ⟨-, rfl⟩ := clean_pure.mp hc
      exact hlast hk rfl
  case h_4 hk =>
      obtain ⟨-, rfl⟩ := clean_pure.mp hc
      exact hlast hk rfl
  case h_5 hk =>
      obtain ⟨-, rfl⟩ := clean_pure.mp hc
      exact hlast hk rfl
  case h_6 =>
      obtain ⟨operand, hoperand, -⟩ := (clean_unaryExpression h).mp hc
      exact hcloses hs.advance hoperand
  case h_7 =>
      obtain ⟨operand, hoperand, -⟩ := (clean_unaryExpression h).mp hc
      exact hcloses hs.advance hoperand
  case h_8 =>
      obtain ⟨r₁, -, hend, rfl⟩ := (clean_grouped h).mp hc
      exact hlast hend rfl
  case h_9 => exact hlast (current_conditional h hd hs hc) rfl
  case h_10 => exact hlast (current_functionLiteral h hd hs hc) rfl
  case h_11 =>
      obtain ⟨es, helements, -⟩ := (clean_arrayLiteral h).mp hc
      exact hlast (current_expressionList h helements) rfl
  case h_12 => exact hlast (current_hashLiteral h hd hs hc) rfl

omit hd in
/-- What an operator is followed by ends with a token that can close an expression. -/
theorem closes_operation {t : Token} {left e : Expr} (hs : r.Sane)
    (hc : Clean (operation expr t left) r e r') : r'.current.kind.closesExpression = true := by
  by_cases hcall : t.kind = .lparen
  · obtain ⟨es, hargs, -⟩ := (clean_call h hcall).mp hc
    rw [current_expressionList h hargs]
    rfl
  by_cases hindex : t.kind = .lbracket
  · obtain ⟨index, r₁, -, hend, rfl, -⟩ := (clean_index h hindex).mp hc
    show r₁.upcoming.kind.closesExpression = true
    rw [hend]
    rfl
  · obtain ⟨right, hright, -⟩ := (clean_binary h hcall hindex).mp hc
    exact hcloses hs.advance hright

omit hd in
/-- Each operation ends like an expression, and so do many. -/
theorem closes_operations {above : Precedence} {n : Nat} {left e : Expr} (hs : r.Sane)
    (hleft : r.current.kind.closesExpression = true)
    (hc : Clean (operations expr above n left) r e r') :
    r'.current.kind.closesExpression = true := by
  induction n generalizing r left with
  | zero =>
      obtain ⟨-, rfl⟩ := clean_pure.mp hc
      exact hleft
  | succ n ih =>
      rcases (clean_operations h).mp hc with ⟨-, -, rfl⟩ | ⟨-, e₁, r₁, hop, hrest⟩
      · exact hleft
      · have hs₁ := hs.advance.onward (hop.onward (moves_operation h _ _))
        exact ih hs₁ (closes_operation h hcloses hs.advance hop) hrest

end Rules

/-- Expressions end at tokens that may end them. -/
theorem closes_expression (n : Nat) : Closes (expression n) := by
  induction n with
  | zero =>
      intro above r r' e hs hc
      exact absurd hc not_clean_missingOperand
  | succ n ih =>
      intro above r r' e hs hc
      obtain ⟨first, left, r₁, hfirst, hleft, hops⟩ := clean_expression.mp hc
      have hs₁ := hs.onward (hleft.onward (moves_operand (moves_expression n) hfirst))
      refine closes_operations (moves_expression n) ih hs₁ ?_ hops
      exact closes_operand (moves_expression n) (derives_expression n) ih hs hfirst hleft

/-! ## Statements with more below them -/

variable {T : Transfer} {r r' : Reader}

/-- Before a token that is not the end, the second reader sees it and goes on after it. -/
theorem reader_of_current (hs : r.Sane) (hk : r.current.kind ≠ .eof) :
    (T.reader r).current = T.token r.current ∧ (T.reader r).advance = T.reader r.advance := by
  obtain ⟨tokens, eof, problems⟩ := r
  cases tokens with
  | nil => exact absurd hs.eof hk
  | cons t rest => exact ⟨rfl, rfl⟩

/-- At a semicolon that comes next, the second reader closes a statement like the first. -/
theorem skip_reader (hs : r.Sane) (hk : r.upcoming.kind = .semicolon) :
    T.Covers r ∧ T.reader (r.skip .semicolon) = (T.reader r).skip .semicolon ∧
      ∀ t, (T.reader (r.skip .semicolon)).originFrom (T.token t)
        = T.origin ((r.skip .semicolon).originFrom t) := by
  obtain ⟨tokens, eof, problems⟩ := r
  rcases tokens with _ | ⟨t₁, _ | ⟨t₂, rest⟩⟩
  · exact absurd (hs.eof.symm.trans hk) Kind.noConfusion
  · exact absurd (hs.eof.symm.trans hk) Kind.noConfusion
  · have hcovers : T.Covers ⟨t₁ :: t₂ :: rest, eof, problems⟩ := .inr (Nat.le_add_left 2 _)
    have hk' : (T.reader ⟨t₁ :: t₂ :: rest, eof, problems⟩).upcoming.kind = .semicolon := by
      rw [T.upcoming_reader hcovers]
      exact hk
    rw [Reader.skip_of_upcoming hk, Reader.skip_of_upcoming hk']
    refine ⟨hcovers, rfl, fun t => ?_⟩
    exact congrArg (Origin.mk t.literal) (T.join_move t.span t₂.span)

/-- A clean reading is carried over as a clean one. -/
theorem Carries.clean {α β : Type} {n : Nat} {act : α → β} {p : Parse α} {p' : Parse β} {a : α}
    (h : Carries T n act p p') (hs : r.Sane) (hn : r.tokens.length ≤ n) (hcovers : T.Covers r')
    (hc : Clean p r a r') : Clean p' (T.reader r) (act a) (T.reader r') := by
  have hrun := h.run r hs hn (by rw [hc.1]; exact hcovers)
  rw [hc.1] at hrun
  refine ⟨hrun, ?_⟩
  show T.noted ++ r'.problems.map _ = T.noted ++ r.problems.map _
  rw [hc.2]

/-- Where a statement may leave out its semicolon, it does not go past its tokens. -/
theorem current_skip_ne_eof (hk : r.current.kind ≠ .eof) :
    (r.skip .semicolon).current.kind ≠ .eof := by
  by_cases hupcoming : r.upcoming.kind = .semicolon
  · rw [Reader.skip_of_upcoming hupcoming]
    intro hend
    exact absurd (hupcoming.symm.trans hend) Kind.noConfusion
  · rw [Reader.skip_of_not_upcoming hupcoming]
    exact hk

/-- A statement that ends at a semicolon has found it there, if what it has read before does not end
at one. -/
theorem upcoming_of_closed (hk : r.current.kind ≠ .semicolon)
    (hend : (r.skip .semicolon).current.kind = .semicolon) : r.upcoming.kind = .semicolon := by
  by_cases hupcoming : r.upcoming.kind = .semicolon
  · exact hupcoming
  · rw [Reader.skip_of_not_upcoming hupcoming] at hend
    exact absurd hend hk

section Statements

variable {n : Nat} {expr expr' : Precedence → Parse Expr} (hcloses : Closes expr)
  (hknows : Knows T n expr expr')
include hcloses hknows

/-- A statement never ends at the end token. -/
theorem current_statement_ne_eof {s : Option Stmt} (hs : r.Sane)
    (hc : Clean (statement expr) r s r') : r'.current.kind ≠ .eof := by
  have hmoves := hknows.moves
  rcases (clean_statement hmoves).mp hc with ⟨-, hc'⟩ | ⟨hret, s₁, hc', -⟩ | ⟨-, -, s₁, hc', -⟩
  · obtain ⟨-, -, value, r₁, hvalue, rfl, -⟩ := (clean_letStatement hmoves).mp hc'
    exact current_skip_ne_eof (Kind.ne_eof_of_closes (hcloses hs.advance.advance.advance hvalue))
  · rcases (clean_returnStatement hmoves).mp hc' with ⟨-, rfl, -⟩ | ⟨-, value, r₁, hvalue, rfl, -⟩
    · exact current_skip_ne_eof (by rw [hret]; exact Kind.noConfusion)
    · exact current_skip_ne_eof (Kind.ne_eof_of_closes (hcloses hs.advance hvalue))
  · obtain ⟨value, r₁, hvalue, rfl, -⟩ := (clean_expressionStatement hmoves).mp hc'
    exact current_skip_ne_eof (Kind.ne_eof_of_closes (hcloses hs hvalue))

/-- The expression at the end of a statement that is closed, and how the second reader closes the
statement after it. -/
theorem carried_value {e : Expr} (hs : r.Sane) (hn : r.tokens.length ≤ n)
    (hc : Clean (expr .lowest) r e r') (hend : (r'.skip .semicolon).current.kind = .semicolon) :
    T.Covers r ∧ Clean (expr' .lowest) (T.reader r) (T.expr e) (T.reader r') ∧
      T.reader (r'.skip .semicolon) = (T.reader r').skip .semicolon ∧
      ∀ t, (T.reader (r'.skip .semicolon)).originFrom (T.token t)
        = T.origin ((r'.skip .semicolon).originFrom t) := by
  have honward := hc.onward (hknows.moves _)
  have hk := upcoming_of_closed (Kind.ne_semicolon_of_closes (hcloses hs hc)) hend
  obtain ⟨hcovers, hskip, horigin⟩ := skip_reader (hs.onward honward) hk
  exact ⟨hcovers.of_onward honward, (hknows.lowest (Nat.le_refl n)).clean hs hn hcovers hc, hskip,
    horigin⟩

variable (hmoves' : ∀ q, Moves (expr' q)) (hs : r.Sane) (hn : r.tokens.length ≤ n)
  (hend : r'.current.kind = .semicolon)
include hmoves' hs hn hend

/-- A let statement is carried over, since its last token is not the last one of all. -/
theorem carried_letStatement {s : Option Stmt} (hc : Clean (letStatement expr) r s r') :
    Clean (letStatement expr') (T.reader r) (s.map T.stmt) (T.reader r') := by
  obtain ⟨hname, hassign, value, r₁, hvalue, rfl, rfl⟩ := (clean_letStatement hknows.moves).mp hc
  have hn₃ : r.advance.advance.advance.tokens.length ≤ n :=
    Nat.le_trans (((Reader.Onward.advance _).trans (.advance _)).trans
      (.advance _)).tokens.length_le hn
  obtain ⟨h₃, hvalue', hskip, horigin⟩ :=
    carried_value hcloses hknows hs.advance.advance.advance hn₃ hvalue hend
  have h₂ := h₃.of_onward (.advance _)
  have h₁ := h₂.of_onward (.advance _)
  have h₀ := h₁.of_onward (.advance _)
  refine (clean_letStatement hmoves').mpr ⟨?_, ?_, T.expr value, T.reader r₁, ?_, hskip, ?_⟩
  · rw [T.upcoming_reader h₀]
    exact hname
  · rw [T.advance_reader h₁, T.upcoming_reader h₁]
    exact hassign
  · rw [T.advance_reader h₁, T.advance_reader h₂, T.advance_reader h₃]
    exact hvalue'
  · rw [T.current_reader h₀, T.advance_reader h₁, T.current_reader h₁, horigin]
    rfl

/-- A return statement is carried over. Its keyword is not the last token of all, so it is seen
whether a value follows. -/
theorem carried_returnStatement {s : Stmt} (hret : r.current.kind = .returnWord)
    (hc : Clean (returnStatement expr) r s r') :
    Clean (returnStatement expr') (T.reader r) (T.stmt s) (T.reader r') := by
  rcases (clean_returnStatement hknows.moves).mp hc with ⟨hbare, rfl, rfl⟩ |
    ⟨hvalued, value, r₁, hvalue, rfl, rfl⟩
  · have hk := upcoming_of_closed (by rw [hret]; exact Kind.noConfusion) hend
    obtain ⟨h₀, hskip, horigin⟩ := skip_reader (T := T) hs hk
    refine (clean_returnStatement hmoves').mpr (.inl ⟨?_, hskip, ?_⟩)
    · rw [T.upcoming_reader h₀]
      exact hbare
    · rw [T.current_reader h₀, horigin]
      rfl
  · obtain ⟨h₁, hvalue', hskip, horigin⟩ := carried_value hcloses hknows hs.advance
      (Nat.le_trans r.length_advance_le hn) hvalue hend
    have h₀ := h₁.of_onward (.advance _)
    refine (clean_returnStatement hmoves').mpr (.inr ⟨?_, T.expr value, T.reader r₁, ?_, hskip, ?_⟩)
    · rw [T.upcoming_reader h₀]
      exact hvalued
    · rw [T.advance_reader h₁]
      exact hvalue'
    · rw [T.current_reader h₀, horigin]
      rfl

/-- An expression statement is carried over. -/
theorem carried_expressionStatement {s : Stmt} (hc : Clean (expressionStatement expr) r s r') :
    Clean (expressionStatement expr') (T.reader r) (T.stmt s) (T.reader r') := by
  obtain ⟨value, r₁, hvalue, rfl, rfl⟩ := (clean_expressionStatement hknows.moves).mp hc
  obtain ⟨h₀, hvalue', hskip, horigin⟩ := carried_value hcloses hknows hs hn hvalue hend
  refine (clean_expressionStatement hmoves').mpr ⟨T.expr value, T.reader r₁, hvalue', hskip, ?_⟩
  rw [T.current_reader h₀, horigin]
  rfl

/-- A statement that ends at a semicolon is carried over, even if no token follows it. -/
theorem carried_closed {s : Option Stmt} (hstart : r.current.kind ≠ .eof)
    (hc : Clean (statement expr) r s r') :
    Clean (statement expr') (T.reader r) (s.map T.stmt) (T.reader r') := by
  have hkind : (T.reader r).current.kind = r.current.kind := by
    rw [(reader_of_current hs hstart).1]
    rfl
  rw [clean_statement hmoves', hkind]
  rcases (clean_statement hknows.moves).mp hc with ⟨hlet, hc'⟩ | ⟨hret, s₁, hc', rfl⟩ |
    ⟨hlet, hret, s₁, hc', rfl⟩
  · exact .inl ⟨hlet, carried_letStatement hcloses hknows hmoves' hs hn hend hc'⟩
  · refine .inr (.inl ⟨hret, T.stmt s₁, ?_, rfl⟩)
    exact carried_returnStatement hcloses hknows hmoves' hs hn hend hret hc'
  · refine .inr (.inr ⟨hlet, hret, T.stmt s₁, ?_, rfl⟩)
    exact carried_expressionStatement hcloses hknows hmoves' hs hn hend hc'

omit hend in
/-- A statement is carried over if its reading does not come to the last token, or if that is a
semicolon. -/
theorem carried_statement {s : Option Stmt} (hstart : r.current.kind ≠ .eof)
    (hlast : ∀ t ∈ r.tokens.getLast?, t.kind = .semicolon)
    (hc : Clean (statement expr) r s r') :
    Clean (statement expr') (T.reader r) (s.map T.stmt) (T.reader r') := by
  have honward := hc.onward (moves_statement hknows.moves)
  have hnotEnd := current_statement_ne_eof hcloses hknows hs hc
  -- with two tokens left the second reading sees no others, and with one it is the semicolon
  obtain ⟨tokens, eof, problems⟩ := r'
  rcases tokens with _ | ⟨t₁, _ | ⟨t₂, rest⟩⟩
  · exact absurd (hs.onward honward).eof hnotEnd
  · have hclosed : (Reader.mk [t₁] eof problems).current.kind = .semicolon := by
      obtain ⟨front, hfront⟩ := honward.tokens
      exact hlast t₁ (by rw [← hfront, List.getLast?_concat]; rfl)
    exact carried_closed hcloses hknows hmoves' hs hn hclosed hstart hc
  · exact (carries_statement hknows).clean hs hn (.inr (Nat.le_add_left 2 _)) hc

omit hs hn hend in
/-- Statements that end with a semicolon are carried over one by one, and the reading goes on with
what stands below them. The induction is on the rounds of the first reading; the second one needs
`j` of them for the same statements. -/
theorem run_above {m : Nat} {ss : List Stmt} (hs : r.Sane) (hn : r.tokens.length ≤ n)
    (hm : r.tokens.length ≤ m) (hlast : ∀ t ∈ r.tokens.getLast?, t.kind = .semicolon)
    (hc : Clean (statementsUntil expr none m) r ss r') :
    r'.tokens = [] ∧ ∃ j ≤ r.tokens.length, ∀ k,
      (statementsUntil expr' none (k + j)).run (T.reader r)
        = (T.statements ss ++ ((statementsUntil expr' none k).run (T.reader r')).1,
          ((statementsUntil expr' none k).run (T.reader r')).2) := by
  induction m generalizing r ss with
  | zero =>
      obtain ⟨rfl, rfl⟩ := clean_pure.mp hc
      exact ⟨List.eq_nil_of_length_eq_zero (Nat.le_zero.mp hm), 0, Nat.zero_le _, fun _ => rfl⟩
  | succ m ih =>
      rcases (clean_statementsUntil hknows.moves).mp hc with ⟨hstop, rfl, rfl⟩ |
        ⟨hmore, first, r₁, rest, hfirst, hrest, rfl⟩
      · have hview := hs.view_eq_nil (hstop.resolve_right (Option.some_ne_none _))
        exact ⟨List.map_eq_nil_iff.mp hview, 0, Nat.zero_le _, fun _ => rfl⟩
      -- the first statement is carried over by itself, and the rest has the same last token
      · have hstart : r.current.kind ≠ .eof := fun hk => hmore (.inl hk)
        have honward := hfirst.onward (moves_statement hknows.moves)
        have hs₁ := hs.onward honward
        have hnotEnd := current_statement_ne_eof hcloses hknows hs hfirst
        have hshorter := hs₁.length_advance_of_current hnotEnd
        have hfewer := honward.tokens.length_le
        have hlast₁ : ∀ t ∈ r₁.advance.tokens.getLast?, t.kind = .semicolon := by
          intro t ht
          obtain ⟨front, hfront⟩ := (honward.trans (.advance r₁)).tokens
          refine hlast t ?_
          rw [← hfront, List.getLast?_append, Option.mem_def.mp ht]
          rfl
        obtain ⟨hend, j, hj, hrun⟩ := ih hs₁.advance (by omega) (by omega) hlast₁ hrest
        refine ⟨hend, j + 1, by omega, fun k => ?_⟩
        have hcarried := carried_statement hcloses hknows hmoves' hs hn hstart hlast hfirst
        have hkind : (T.reader r).current.kind ≠ .eof := by
          rw [(reader_of_current hs hstart).1]
          exact hstart
        rw [← Nat.add_assoc, run_statementsUntil_succ hkind hcarried.1,
          (reader_of_current hs₁ hnotEnd).2, hrun, statements_toList_append, List.append_assoc]

end Statements

end Parse

/-! ## Sources -/

open Parse

/-- The statements of some tokens, and the reader after them. -/
def readStatements (inner : List Token) (eof : Token) : List Stmt × Reader :=
  (statementsUntil (expression (inner.length + 1)) none inner.length).run ⟨inner, eof, []⟩

/-- A source is read as its statements, from its first token to the end. -/
theorem parse_eq {source : Text} {inner : List Token} {eof : Token}
    (h : tokenize source = inner ++ [eof]) :
    parse source = ⟨⟨⟨(inner.headD eof).literal, ⟨(inner.headD eof).span.start,
        (readStatements inner eof).2.current.span.stop⟩⟩, (readStatements inner eof).1⟩,
      (readStatements inner eof).2.problems⟩ := by
  rw [parse, parseTokens, h, Reader.ofTokens_concat]
  rfl

/-- Where a reading goes when its tokens stand below a source. -/
def Transfer.toBelow (upper : Text) (eof : Token) : Transfer :=
  ⟨.below upper, [], eof.move (.below upper), [], Position.join_below upper⟩

/-- What is read with more tokens below. -/
def Transfer.withRest (rest : List Token) (eof : Token) : Transfer :=
  ⟨id, rest, eof, [], fun _ _ => rfl⟩

theorem Transfer.statements_withRest (rest : List Token) (eof : Token) (ss : List Stmt) :
    (Transfer.withRest rest eof).statements ss = ss :=
  relocateStatements_id ss

/-- More tokens at the end are all that the transfer adds to a reader. -/
theorem Transfer.reader_withRest (rest : List Token) (eof : Token) {r : Reader}
    (h : r.problems = []) :
    (Transfer.withRest rest eof).reader r = ⟨r.tokens ++ rest, eof, []⟩ := by
  show Reader.mk (r.tokens.map id ++ rest) eof ([] ++ r.problems.map (Problem.move id)) = _
  rw [List.map_id, h]
  rfl

theorem Transfer.reader_toBelow (upper : Text) (eof : Token) (inner : List Token) :
    (Transfer.toBelow upper eof).reader ⟨inner, eof, []⟩
      = ⟨inner.map (Token.move (.below upper)), eof.move (.below upper), []⟩ :=
  congrArg (Reader.mk · _ _) (List.append_nil _)

/-- The moved reading sees all of its tokens. -/
theorem Transfer.covers_toBelow (upper : Text) {r r' : Reader} (h : r.Onward r') :
    (Transfer.toBelow upper r.eof).Covers r' :=
  .inl ⟨rfl, congrArg (Token.move (.below upper)) h.eof.symm⟩

/-- Reading statements moves onward. -/
theorem onward_readStatements (inner : List Token) (eof : Token) :
    (Reader.mk inner eof []).Onward (readStatements inner eof).2 :=
  moves_statementsUntil (moves_expression _) none _ _

/-- The statements of tokens that are read without problems and end with a semicolon, with those of
moved tokens below. -/
theorem readStatements_above {ta tb : List Token} {ea eb : Token}
    (hsa : (Reader.mk ta ea []).Sane) (hsb : (Reader.mk tb eb []).Sane)
    (hlast : ∀ t ∈ ta.getLast?, t.kind = .semicolon)
    (hclean : (readStatements ta ea).2.problems = []) (upper : Text) :
    readStatements (ta ++ tb.map (Token.move (.below upper))) (eb.move (.below upper))
      = ((readStatements ta ea).1 ++
          (Transfer.toBelow upper eb).statements (readStatements tb eb).1,
        (Transfer.toBelow upper eb).reader (readStatements tb eb).2) := by
  have hlength : (ta ++ tb.map (Token.move (.below upper))).length = ta.length + tb.length := by
    rw [List.length_append, List.length_map]
  have hknows : Knows (.withRest (tb.map (Token.move (.below upper))) (eb.move (.below upper)))
      ta.length (expression (ta.length + 1)) (expression (ta.length + tb.length + 1)) :=
    knows_expression (by omega) (by omega)
  have hread : Clean (statementsUntil (expression (ta.length + 1)) none ta.length) ⟨ta, ea, []⟩
      (readStatements ta ea).1 (readStatements ta ea).2 := ⟨rfl, hclean⟩
  obtain ⟨hend, j, hj, hrun⟩ := run_above (closes_expression _) hknows (moves_expression _) hsa
    (Nat.le_refl _) (Nat.le_refl _) hlast hread
  replace hj : j ≤ ta.length := hj
  have hrounds : ta.length + tb.length - j + j = ta.length + tb.length :=
    Nat.sub_add_cancel (Nat.le_trans hj (Nat.le_add_right _ _))
  have hupper := hrun (ta.length + tb.length - j)
  -- what is left for the second reading is the lower tokens, and enough rounds for them
  have hleft : (Transfer.withRest (tb.map (Token.move (.below upper)))
      (eb.move (.below upper))).reader (readStatements ta ea).2
        = (Transfer.toBelow upper eb).reader ⟨tb, eb, []⟩ := by
    rw [Transfer.reader_withRest _ _ hclean, Transfer.reader_toBelow]
    exact congrArg (Reader.mk · _ _) (congrArg (· ++ _) hend)
  have hknows' : Knows (.toBelow upper eb) tb.length (expression (tb.length + 1))
      (expression (ta.length + tb.length + 1)) :=
    knows_expression (by omega) (by omega)
  have hlower := (carries_statementsUntil none hknows' (Nat.le_refl _)
    (show tb.length ≤ ta.length + tb.length - j by omega)).run ⟨tb, eb, []⟩ hsb (Nat.le_refl _)
    (Transfer.covers_toBelow upper (onward_readStatements tb eb))
  rw [hrounds, hleft, hlower, Transfer.statements_withRest, Transfer.reader_withRest _ _ rfl]
    at hupper
  show (statementsUntil (expression (_ + 1)) none _).run _ = _
  rw [hlength]
  exact hupper

/-- **One source below another.** If the upper one is read without problems and ends with a
semicolon, its statements are the same, the statements of the lower one follow, moved down, and
so do the problems of the lower one. -/
theorem parse_above {upper : Text} (hclean : (parse upper).diagnostics = [])
    (hends : EndsInSemicolon upper) (lower : Text) :
    parse (upper ++ 0x0a :: lower) =
      ⟨⟨⟨(parse upper).program.origin.literal, ⟨(parse upper).program.origin.span.start,
          (parse lower).program.origin.span.stop.below upper⟩⟩,
        (parse upper).program.statements ++ relocateStatements (Origin.move (.below upper))
          (Origin.move (.below upper)) (parse lower).program.statements⟩,
        (parse lower).problems.map (Problem.move (.below upper))⟩ := by
  obtain ⟨ta, ea, hta⟩ := tokenize_concat upper
  obtain ⟨tb, eb, htb⟩ := tokenize_concat lower
  have hsa := (sane_ofTokens upper).1
  have hsb := (sane_ofTokens lower).1
  have hwhole := tokenize_above hends.closed lower
  rw [hta, htb, List.dropLast_concat, List.map_append, ← List.append_assoc] at hwhole
  rw [hta, Reader.ofTokens_concat] at hsa
  rw [htb, Reader.ofTokens_concat] at hsb
  rw [EndsInSemicolon, hta, List.dropLast_concat] at hends
  rw [parse_eq hta] at hclean
  have hlast : ∀ t ∈ ta.getLast?, t.kind = .semicolon := by
    intro t ht
    rw [Option.mem_def.mp ht] at hends
    exact Option.some.inj hends
  -- the upper statements are read as if nothing followed, and then the lower ones
  have hread := readStatements_above hsa hsb hlast (List.map_eq_nil_iff.mp hclean) upper
  have hfirst : (ta ++ tb.map (Token.move (.below upper))).headD (eb.move (.below upper))
      = ta.headD ea := by
    cases ta with
    | nil => cases hends
    | cons t rest => rfl
  have hcovers := Transfer.covers_toBelow upper (onward_readStatements tb eb)
  rw [parse_eq hwhole, hread, hfirst, parse_eq hta, parse_eq htb]
  show Parsed.mk ⟨⟨_, ⟨_, (Transfer.reader _ _).current.span.stop⟩⟩, _⟩ _ = _
  rw [Transfer.current_reader hcovers]
  rfl

/-- **Parsing is compositional at statement ends.** Below a source that is read without diagnostics
and ends with a semicolon may stand any other: the statements are those of the first, where they
are, and then those of the second, further down by the bytes and the lines of the first and of the
newline between them. The diagnostics are those of the second, further down as well. -/
theorem parse_composes_at_semicolon {a : Text} (hclean : (parse a).diagnostics = [])
    (hends : EndsInSemicolon a) (b : Text) :
    (parse (a ++ text "\n" ++ b)).program.statements =
        (parse a).program.statements ++ relocateStatements (Origin.move (.below a))
          (Origin.move (.below a)) (parse b).program.statements ∧
      (parse (a ++ text "\n" ++ b)).diagnostics =
        (parse b).diagnostics.map (Diagnostic.move (.below a)) := by
  have hsource : a ++ text "\n" ++ b = a ++ 0x0a :: b := List.append_assoc a (text "\n") b
  rw [hsource, parse_above hclean hends b]
  exact ⟨rfl, diagnostics_move (.below a) (parse b)⟩

/-- The second source may be malformed. -/
theorem parse_composes_at_semicolon_malformed :
    (parse (text "f(\n1);")).diagnostics = [] ∧ EndsInSemicolon (text "f(\n1);") ∧
      (parse (text "let = 2")).diagnostics ≠ [] ∧
      (parse (text "f(\n1);" ++ text "\n" ++ text "let = 2")).program.statements =
        (parse (text "f(\n1);")).program.statements ++
          relocateStatements (Origin.move (.below (text "f(\n1);")))
            (Origin.move (.below (text "f(\n1);"))) (parse (text "let = 2")).program.statements ∧
      (parse (text "f(\n1);" ++ text "\n" ++ text "let = 2")).diagnostics =
        (parse (text "let = 2")).diagnostics.map (Diagnostic.move (.below (text "f(\n1);"))) := by
  have hclean : (parse (text "f(\n1);")).diagnostics = [] := by decide
  have hends : EndsInSemicolon (text "f(\n1);") := by decide
  exact ⟨hclean, hends, by decide, parse_composes_at_semicolon hclean hends (text "let = 2")⟩

end Monkey
