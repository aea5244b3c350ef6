import Monkey.Proofs.Grammar
import Monkey.Syntax.Parse

/-!
# Readings without problems

A reading of a program notes every problem it meets and goes on, so a source is
well formed if the whole reading leaves the list of problems as it was. Since no
rule ever takes a problem back (`Moves`), such a reading is made of readings that
note nothing either: `Clean` is that relation between the reader before, the result
and the reader after, and it splits along `>>=` (`clean_bind`).
-/

namespace Monkey

namespace Reader

/-- The terminals from the current token on. -/
def view (r : Reader) : List Terminal :=
  r.tokens.map Token.terminal

/-- The terminals after the current token. -/
def ahead (r : Reader) : List Terminal :=
  r.tokens.tail.map Token.terminal

/-- Move to the next token if it is of the given kind. -/
def skip (kind : Kind) (r : Reader) : Reader :=
  if r.upcoming.kind = kind then r.advance else r

@[simp] theorem view_advance (r : Reader) : r.advance.view = r.ahead := rfl

@[simp] theorem problems_advance (r : Reader) : r.advance.problems = r.problems := rfl

/-- To skip a token notes nothing. -/
@[simp] theorem problems_skip (k : Kind) (r : Reader) : (r.skip k).problems = r.problems := by
  unfold skip
  split <;> rfl

/-- The origin of a node that starts with a token and ends with the current one. -/
def originFrom (r : Reader) (start : Token) : Origin :=
  ⟨start.literal, start.span.join r.current.span⟩

/-- The origin of a node that is built from a token, starts with a left operand, if that
is there, and ends with the current token. -/
def originAfter (r : Reader) (left : Expr) (built : Token) : Origin :=
  match left.span? with
  | some span => ⟨built.literal, span.join r.current.span⟩
  | none => r.originFrom built

/-- Without its position, the origin of a node keeps only the literal of its first token. -/
@[simp] theorem unplaced_originFrom (r : Reader) (start : Token) :
    (r.originFrom start).unplaced = .ofLiteral start.literal := rfl

/-- Without its position, the origin of an operation keeps only the literal of its operator,
whatever the left operand is. -/
@[simp] theorem unplaced_originAfter (r : Reader) (left : Expr) (built : Token) :
    (r.originAfter left built).unplaced = .ofLiteral built.literal := by
  unfold originAfter
  split <;> rfl

/-- One reader is reached from another by reading on: the problems noted stay, the end
token is the same, and the tokens are some of those that were left. -/
structure Onward (r r' : Reader) : Prop where
  problems : r.problems <+: r'.problems
  eof : r'.eof = r.eof
  tokens : r'.tokens <:+ r.tokens

namespace Onward

theorem refl (r : Reader) : r.Onward r :=
  ⟨List.prefix_rfl, rfl, List.suffix_rfl⟩

/-- To read on twice is to read on: what is left is left of what was left, and problems are added to
problems. -/
theorem trans {r₁ r₂ r₃ : Reader} (h : r₁.Onward r₂) (h' : r₂.Onward r₃) : r₁.Onward r₃ :=
  ⟨h.problems.trans h'.problems, h'.eof.trans h.eof, h'.tokens.trans h.tokens⟩

/-- To move past a token leads onward. -/
theorem advance (r : Reader) : r.Onward r.advance :=
  ⟨List.prefix_rfl, rfl, List.tail_suffix _⟩

/-- To note a problem leads onward: it is added behind those noted before. -/
theorem note (r : Reader) (p : Problem) : r.Onward (r.note p) :=
  ⟨List.prefix_append _ _, rfl, List.suffix_rfl⟩

/-- To skip a token leads onward, whether it is there or not. -/
theorem skip (r : Reader) (k : Kind) : r.Onward (r.skip k) := by
  unfold Reader.skip
  split
  · exact advance r
  · exact refl r

end Onward

/-! ## What lies ahead

The readers that come up all hold tokens of a source: none of them is an end token
but the last, and each kind with only one literal has that literal. -/

/-- A reader as it is made from the tokens of a source. -/
structure Sane (r : Reader) : Prop where
  eof : r.eof.kind = .eof
  inner : ∀ t ∈ r.tokens, t.kind ≠ .eof
  spelled : ∀ t ∈ r.tokens, t.kind.spelling ≠ [] → t.literal = t.kind.spelling

namespace Sane

variable {r r' : Reader}

/-- Reading on takes tokens away and brings none, so a sane reader stays sane. -/
theorem onward (h : r.Sane) (ho : r.Onward r') : r'.Sane where
  eof := ho.eof ▸ h.eof
  inner t ht := h.inner t (ho.tokens.subset ht)
  spelled t ht := h.spelled t (ho.tokens.subset ht)

theorem advance (h : r.Sane) : r.advance.Sane :=
  h.onward (.advance r)

theorem skip (h : r.Sane) (k : Kind) : (r.skip k).Sane :=
  h.onward (.skip r k)

/-- Before a current token that is not the end, the view starts with it. -/
theorem view_eq (h : r.Sane) (hk : r.current.kind ≠ .eof) :
    r.view = r.current.terminal :: r.ahead := by
  obtain ⟨tokens, eof, problems⟩ := r
  cases tokens with
  | nil => exact absurd h.eof hk
  | cons t rest => rfl

/-- At the end, nothing is in view. -/
theorem view_eq_nil (h : r.Sane) (hk : r.current.kind = .eof) : r.view = [] := by
  obtain ⟨tokens, eof, problems⟩ := r
  cases tokens with
  | nil => rfl
  | cons t rest => exact absurd hk (h.inner t (List.mem_cons_self ..))

/-- A kind with only one literal determines the current terminal. -/
theorem terminal_current (h : r.Sane) {k : Kind} (hk : r.current.kind = k)
    (hs : k.spelling ≠ []) : r.current.terminal = k.terminal := by
  subst hk
  obtain ⟨tokens, eof, problems⟩ := r
  cases tokens with
  | nil =>
      have heof : Kind.spelling eof.kind = [] := by rw [h.eof]; rfl
      exact absurd heof hs
  | cons t rest =>
      show Terminal.mk t.kind t.literal = Terminal.mk t.kind t.kind.spelling
      rw [h.spelled t (List.mem_cons_self ..) hs]

/-- The literal of a current token of such a kind. -/
theorem literal_current (h : r.Sane) {k : Kind} (hk : r.current.kind = k)
    (hs : k.spelling ≠ []) : r.current.literal = k.spelling :=
  congrArg Terminal.literal (h.terminal_current hk hs)

/-- The first terminal in view is of the current kind. -/
theorem firstKind_view (h : r.Sane) : firstKind r.view = r.current.kind := by
  obtain ⟨tokens, eof, problems⟩ := r
  cases tokens with
  | nil => exact h.eof.symm
  | cons t rest => rfl

/-- The first terminal ahead is of the upcoming kind. -/
theorem firstKind_ahead (h : r.Sane) : firstKind r.ahead = r.upcoming.kind :=
  h.advance.firstKind_view

/-- Before an upcoming token that is not the end, it is the first ahead. -/
theorem ahead_eq (h : r.Sane) {k : Kind} (hk : r.upcoming.kind = k) (he : k ≠ .eof) :
    r.ahead = r.upcoming.terminal :: r.advance.ahead :=
  h.advance.view_eq (by rw [show r.advance.current = r.upcoming from rfl, hk]; exact he)

/-- The same for a kind with only one literal. -/
theorem ahead_eq_terminal (h : r.Sane) {k : Kind} (hk : r.upcoming.kind = k)
    (hs : k.spelling ≠ []) : r.ahead = k.terminal :: r.advance.ahead := by
  have he : k ≠ .eof := by
    rintro rfl
    exact hs rfl
  rw [h.ahead_eq hk he, ← h.advance.terminal_current hk hs]
  rfl

/-- A current token that is not the end can be moved past. -/
theorem length_advance_of_current (h : r.Sane) (hk : r.current.kind ≠ .eof) :
    r.advance.tokens.length < r.tokens.length := by
  obtain ⟨tokens, eof, problems⟩ := r
  cases tokens with
  | nil => exact absurd h.eof hk
  | cons t rest => exact Nat.lt_succ_self _

/-- Before a token that is not the end there is one to move past: at the end, only the end comes
next. -/
theorem length_advance_lt (h : r.Sane) (hk : r.upcoming.kind ≠ .eof) :
    r.advance.tokens.length < r.tokens.length := by
  refine h.length_advance_of_current fun hend => hk ?_
  have htokens : r.tokens = [] := List.map_eq_nil_iff.mp (h.view_eq_nil hend)
  rw [upcoming, htokens]
  exact h.eof

/-- The current token when the terminals in view are known. -/
theorem current_of_view (h : r.Sane) {t : Terminal} {ts : List Terminal} (hv : r.view = t :: ts) :
    r.current.terminal = t ∧ r.ahead = ts := by
  obtain ⟨tokens, eof, problems⟩ := r
  cases tokens with
  | nil => cases hv
  | cons token rest => exact ⟨(List.cons.inj hv).1, (List.cons.inj hv).2⟩

/-- The upcoming token when the terminals ahead are known. -/
theorem upcoming_of_ahead (h : r.Sane) {t : Terminal} {ts : List Terminal}
    (hv : r.ahead = t :: ts) :
    r.upcoming.kind = t.kind ∧ r.advance.ahead = ts := by
  obtain ⟨hcurrent, hahead⟩ := h.advance.current_of_view hv
  exact ⟨congrArg Terminal.kind hcurrent, hahead⟩

end Sane

/-- There are as many terminals in view as tokens left. -/
theorem length_view (r : Reader) : r.view.length = r.tokens.length :=
  List.length_map _

/-- Moving on leaves no more tokens, also at the end. -/
theorem length_advance_le (r : Reader) : r.advance.tokens.length ≤ r.tokens.length :=
  (Onward.advance r).tokens.length_le

/-- A token that is there is skipped. -/
theorem skip_of_upcoming {r : Reader} {k : Kind} (hk : r.upcoming.kind = k) :
    r.skip k = r.advance :=
  if_pos hk

/-- A token that is not there is not skipped. -/
theorem skip_of_not_upcoming {r : Reader} {k : Kind} (hk : r.upcoming.kind ≠ k) :
    r.skip k = r :=
  if_neg hk

end Reader

namespace Parse

variable {α β : Type}

/-- A reading that only ever reads on. -/
def Moves (p : Parse α) : Prop :=
  ∀ r : Reader, r.Onward (p.run r).2

/-- A reading from `r` that notes no problem: it yields `a` and ends at `r'`. -/
def Clean (p : Parse α) (r : Reader) (a : α) (r' : Reader) : Prop :=
  p.run r = (a, r') ∧ r'.problems = r.problems

/-- A clean reading leads onward. -/
theorem Clean.onward {p : Parse α} {r r' : Reader} {a : α} (hc : Clean p r a r') (hp : Moves p) :
    r.Onward r' := by
  have hmove := hp r
  rwa [hc.1] at hmove

/-! ## Every rule reads on

The proofs follow the rules: one step for each step of the reading. -/

namespace Moves

theorem pure (a : α) : Moves (pure a : Parse α) :=
  fun r => .refl r

/-- A reading in two parts reads on if both parts do, the second from any value. -/
theorem bind {p : Parse α} {f : α → Parse β} (hp : Moves p) (hf : ∀ a, Moves (f a)) :
    Moves (p >>= f) :=
  fun r => (hp r).trans (hf (p.run r).1 (p.run r).2)

/-- A reading that chooses reads on if both choices do. -/
theorem ite {c : Prop} [Decidable c] {p q : Parse α} (hp : Moves p) (hq : Moves q) :
    Moves (if c then p else q) := by
  split
  · exact hp
  · exact hq

theorem current : Moves current := fun r => .refl r

theorem upcoming : Moves upcoming := fun r => .refl r

theorem rounds : Moves Bounded.rounds := fun r => .refl r

theorem advance : Moves advance := fun r => .advance r

/-- A problem that is noted moves no token. -/
theorem note (p : Problem) : Moves (note p) := fun r => .note r p

/-- To expect a token either passes it or notes that it is missing. -/
theorem expect (k : Kind) : Moves (expect k) :=
  bind upcoming fun _ => ite (bind advance fun _ => pure _) (bind (note _) fun _ => pure _)

theorem skip (k : Kind) : Moves (skip k) :=
  bind upcoming fun _ => ite advance (pure _)

theorem originFrom (t : Token) : Moves (originFrom t) := fun r => .refl r

/-- Where an operation starts is looked up and not read. -/
theorem originAfter (left : Expr) (t : Token) : Moves (originAfter left t) := by
  unfold Parse.originAfter
  split
  · exact bind current fun _ => pure _
  · exact originFrom t

/-- A token that must come next, and what is done with and without it. -/
theorem require (k : Kind) {p q : Parse α} (hp : Moves p) (hq : Moves q) :
    Moves (Parse.expect k >>= fun there => if there = true then p else q) :=
  bind (expect k) fun _ => ite hp hq

end Moves

section Rules

variable {expr : Precedence → Parse Expr}

/-- A let statement reads on, also where it gives up because there is no name or no equals sign. -/
theorem moves_letStatement (h : ∀ q, Moves (expr q)) : Moves (letStatement expr) := by
  refine .bind .current fun start => .require _ ?_ (.pure _)
  refine .bind .current fun name => .require _ ?_ (.pure _)
  refine .bind .advance fun _ => .bind (h _) fun value => ?_
  exact .bind (.skip _) fun _ => .bind (.originFrom _) fun _ => .pure _

/-- A return statement reads on, with a value or without one. -/
theorem moves_returnStatement (h : ∀ q, Moves (expr q)) : Moves (returnStatement expr) := by
  refine .bind .current fun start => .bind .upcoming fun next => ?_
  have hlast (value : Expr) : Moves (do
      skip .semicolon
      return Stmt.ret (← originFrom start) value) :=
    .bind (.skip _) fun _ => .bind (.originFrom _) fun _ => .pure _
  refine .ite (.bind (.pure _) hlast) ?_
  exact .bind .advance fun _ => .bind (h _) hlast

theorem moves_expressionStatement (h : ∀ q, Moves (expr q)) :
    Moves (expressionStatement expr) := by
  refine .bind .current fun start => .bind (h _) fun value => ?_
  exact .bind (.skip _) fun _ => .bind (.originFrom _) fun _ => .pure _

/-- A statement reads on, whichever it is. -/
theorem moves_statement (h : ∀ q, Moves (expr q)) : Moves (statement expr) := by
  refine .bind .current fun t => ?_
  split
  · exact moves_letStatement h
  · exact .bind (moves_returnStatement h) fun _ => .pure _
  · exact .bind (moves_expressionStatement h) fun _ => .pure _

/-- Statements read on. The induction is on the rounds that are left. -/
theorem moves_statementsUntil (h : ∀ q, Moves (expr q)) (closing : Option Kind) (n : Nat) :
    Moves (statementsUntil expr closing n) := by
  induction n with
  | zero => exact .pure _
  | succ n ih =>
      refine .bind .current fun t => .ite (.pure _) ?_
      refine .bind (moves_statement h) fun first => .bind .advance fun _ => ?_
      exact .bind ih fun rest => .pure _

/-- A block reads on, also if nothing closes it. -/
theorem moves_block (h : ∀ q, Moves (expr q)) : Moves (block expr) := by
  refine .bind .current fun start => .bind .advance fun _ => .bind .rounds fun n => ?_
  refine .bind (moves_statementsUntil h _ n) fun statements => .bind .current fun last => ?_
  refine .ite (.bind (.note _) fun _ => ?_) ?_
  · exact .bind (.originFrom _) fun _ => .pure _
  · exact .bind (.originFrom _) fun _ => .pure _

/-- More expressions of a list read on, as many rounds as there are. -/
theorem moves_moreExpressions (h : ∀ q, Moves (expr q)) (n : Nat) :
    Moves (moreExpressions expr n) := by
  induction n with
  | zero => exact .pure _
  | succ n ih =>
      refine .bind .upcoming fun t => .ite ?_ (.pure _)
      refine .bind .advance fun _ => .bind .advance fun _ => .bind (h _) fun first => ?_
      exact .bind ih fun rest => .pure _

/-- A list of expressions reads on, whether it is closed or not. -/
theorem moves_expressionList (h : ∀ q, Moves (expr q)) (closing : Kind) :
    Moves (expressionList expr closing) := by
  refine .bind .upcoming fun t => .ite (.bind .advance fun _ => .pure _) ?_
  refine .bind .advance fun _ => .bind (h _) fun first => .bind .rounds fun n => ?_
  exact .bind (moves_moreExpressions h n) fun rest => .require _ (.pure _) (.pure _)

/-- More parameters read on, also where one of them is no name. -/
theorem moves_moreParameters (n : Nat) : Moves (moreParameters n) := by
  induction n with
  | zero => exact .pure _
  | succ n ih =>
      refine .bind .upcoming fun t => .ite (.bind .advance fun _ => ?_) (.pure _)
      refine .require _ (.bind .current fun name => .bind ih fun rest => ?_) (.pure _)
      split <;> exact .pure _

theorem moves_parameters : Moves parameters := by
  refine .bind .upcoming fun t => .ite (.bind .advance fun _ => .pure _) ?_
  refine .require _ (.bind .current fun name => .bind .rounds fun n => ?_) (.pure _)
  refine .bind (moves_moreParameters n) fun rest => ?_
  split
  · exact .require _ (.pure _) (.pure _)
  · exact .pure _

/-- Pairs of a hash read on. Where a colon or a comma is missing, the rest is not read. -/
theorem moves_hashPairs (h : ∀ q, Moves (expr q)) (n : Nat) : Moves (hashPairs expr n) := by
  induction n with
  | zero => exact .pure _
  | succ n ih =>
      refine .bind .upcoming fun t => .ite (.pure _) (.bind .advance fun _ => ?_)
      refine .bind (h _) fun key => .require _ (.bind .advance fun _ => ?_) (.pure _)
      refine .bind (h _) fun value => .bind .upcoming fun next => ?_
      refine .ite (.require _ (.bind ih fun rest => ?_) (.pure _)) (.bind ih fun rest => ?_)
      · split <;> exact .pure _
      · split <;> exact .pure _

/-- A numeral that is too large is noted, and moves no token. -/
theorem moves_integer (t : Token) : Moves (integer t) :=
  .ite (.pure _) (.bind (.note _) fun _ => .pure _)

theorem moves_unaryExpression (h : ∀ q, Moves (expr q)) (op : UnaryOp) :
    Moves (unaryExpression expr op) := by
  refine .bind .current fun start => .bind .advance fun _ => .bind (h _) fun operand => ?_
  exact .bind (.originFrom _) fun _ => .pure _

/-- An expression in parentheses reads on. -/
theorem moves_grouped (h : ∀ q, Moves (expr q)) : Moves (grouped expr) :=
  .bind .advance fun _ => .bind (h _) fun _ => .require _ (.pure _) (.pure _)

/-- A conditional reads on, wherever it gives up. -/
theorem moves_conditional (h : ∀ q, Moves (expr q)) : Moves (conditional expr) := by
  refine .bind .current fun start => .require _ (.bind .advance fun _ => ?_) (.pure _)
  refine .bind (h _) fun test => .require _ (.require _ ?_ (.pure _)) (.pure _)
  refine .bind (moves_block h) fun consequence => .bind .upcoming fun next => .ite ?_ ?_
  · refine .bind .advance fun _ =>
      .require _ (.bind (moves_block h) fun alternative => ?_) (.pure _)
    exact .bind (.originFrom _) fun _ => .pure _
  · exact .bind (.originFrom _) fun _ => .pure _

/-- A function reads on, wherever it gives up. -/
theorem moves_functionLiteral (h : ∀ q, Moves (expr q)) : Moves (functionLiteral expr) := by
  refine .bind .current fun start => .require _ (.bind moves_parameters fun params => ?_) (.pure _)
  split
  · exact .pure _
  · refine .require _ (.bind (moves_block h) fun body => ?_) (.pure _)
    exact .bind (.originFrom _) fun _ => .pure _

theorem moves_arrayLiteral (h : ∀ q, Moves (expr q)) : Moves (arrayLiteral expr) := by
  refine .bind .current fun start => .bind (moves_expressionList h _) fun elements => ?_
  split
  · exact .pure _
  · exact .bind (.originFrom _) fun _ => .pure _

theorem moves_hashLiteral (h : ∀ q, Moves (expr q)) : Moves (hashLiteral expr) := by
  refine .bind .current fun start => .bind .rounds fun n => ?_
  refine .bind (moves_hashPairs h _) fun pairs => ?_
  split
  · exact .pure _
  · exact .require _ (.bind (.originFrom _) fun _ => .pure _) (.pure _)

/-- Whatever operand a token starts, reading it reads on. -/
theorem moves_operand (h : ∀ q, Moves (expr q)) {t : Token} {p : Parse Expr}
    (hp : operand expr t = some p) : Moves p := by
  unfold operand at hp
  split at hp <;> cases hp
  · exact .pure _
  · exact moves_integer t
  · exact .pure _
  · exact .pure _
  · exact .pure _
  · exact moves_unaryExpression h _
  · exact moves_unaryExpression h _
  · exact moves_grouped h
  · exact moves_conditional h
  · exact moves_functionLiteral h
  · exact moves_arrayLiteral h
  · exact moves_hashLiteral h

/-- An operation on a left operand reads on: a call, an index or an operator with its right
operand. -/
theorem moves_operation (h : ∀ q, Moves (expr q)) (t : Token) (left : Expr) :
    Moves (operation expr t left) := by
  unfold operation
  split
  · refine .bind (moves_expressionList h _) fun args => ?_
    split
    · exact .pure _
    · exact .bind (.originAfter _ _) fun _ => .pure _
  · refine .bind .advance fun _ => .bind (h _) fun index => ?_
    exact .require _ (.bind (.originAfter _ _) fun _ => .pure _) (.pure _)
  · refine .bind .advance fun _ => .bind (h _) fun right => ?_
    exact .bind (.originAfter _ _) fun _ => .pure _

/-- Operations read on, as many rounds as there are. -/
theorem moves_operations (h : ∀ q, Moves (expr q)) (above : Precedence) (n : Nat) :
    ∀ left, Moves (operations expr above n left) := by
  induction n with
  | zero => exact fun left => .pure _
  | succ n ih =>
      intro left
      refine .bind .upcoming fun t => .ite (.bind .advance fun _ => ?_) (.pure _)
      exact .bind (moves_operation h t left) fun left' => ih left'

end Rules

/-- That there is no operand is noted, and moves no token. -/
theorem moves_missingOperand : Moves missingOperand :=
  .bind .current fun _ => .bind (.note _) fun _ => .pure _

/-- Reading an expression reads on. -/
theorem moves_expression (n : Nat) : ∀ above, Moves (expression n above) := by
  induction n with
  | zero => exact fun _ => moves_missingOperand
  | succ n ih =>
      intro above
      refine .bind .current fun t => ?_
      split
      · exact moves_missingOperand
      · rename_i first hfirst
        refine .bind .rounds fun m => .bind (moves_operand ih hfirst) fun left => ?_
        exact moves_operations ih above m left

/-! ## Clean readings of the primitives -/

section Primitives

variable {a b : α} {r r' : Reader}

/-- What is read without reading is clean, and stays where it is. -/
@[simp] theorem clean_pure : Clean (pure a : Parse α) r b r' ↔ b = a ∧ r' = r := by
  constructor
  · rintro ⟨h, -⟩
    cases h
    exact ⟨rfl, rfl⟩
  · rintro ⟨rfl, rfl⟩
    exact ⟨rfl, rfl⟩

/-- The current token is looked at and not passed. -/
@[simp] theorem clean_current_bind {f : Token → Parse α} :
    Clean (current >>= f) r b r' ↔ Clean (f r.current) r b r' := Iff.rfl

/-- The next token is looked at and not passed. -/
@[simp] theorem clean_upcoming_bind {f : Token → Parse α} :
    Clean (upcoming >>= f) r b r' ↔ Clean (f r.upcoming) r b r' := Iff.rfl

/-- A loop is given as many rounds as there are tokens left. -/
@[simp] theorem clean_rounds_bind {f : Nat → Parse α} :
    Clean (Bounded.rounds >>= f) r b r' ↔ Clean (f r.tokens.length) r b r' := Iff.rfl

/-- A token that is passed is passed in a clean reading too. -/
@[simp] theorem clean_advance_bind {f : Unit → Parse α} :
    Clean (advance >>= f) r b r' ↔ Clean (f ()) r.advance b r' := Iff.rfl

@[simp] theorem clean_originFrom_bind {f : Origin → Parse α} {t : Token} :
    Clean (originFrom t >>= f) r b r' ↔ Clean (f (r.originFrom t)) r b r' := Iff.rfl

/-- The origin of an operation is what the reader says it is. -/
theorem run_originAfter (left : Expr) (t : Token) (r : Reader) :
    (originAfter left t).run r = (r.originAfter left t, r) := by
  unfold originAfter Reader.originAfter
  cases left.span? <;> rfl

/-- The origin of an operation is looked up at the reader as it is. -/
@[simp] theorem clean_originAfter_bind {f : Origin → Parse α} {left : Expr} {t : Token} :
    Clean (originAfter left t >>= f) r b r' ↔ Clean (f (r.originAfter left t)) r b r' := by
  show (f ((originAfter left t).run r).1).run ((originAfter left t).run r).2 = (b, r')
      ∧ r'.problems = r.problems ↔ _
  rw [run_originAfter]
  exact Iff.rfl

/-- To skip is to move to what the reader has after skipping. -/
theorem run_skip (k : Kind) (r : Reader) : (skip k).run r = ((), r.skip k) := by
  show ((if r.upcoming.kind = k then advance else pure ()) : Parse Unit).run r = ((), r.skip k)
  unfold Reader.skip
  split <;> rfl

/-- What comes after a token that may be skipped is read from behind it. -/
@[simp] theorem clean_skip_bind {f : Unit → Parse α} {k : Kind} :
    Clean (skip k >>= f) r b r' ↔ Clean (f ()) (r.skip k) b r' := by
  show (f ((skip k).run r).1).run ((skip k).run r).2 = (b, r') ∧ r'.problems = r.problems ↔ _
  rw [run_skip]
  unfold Clean
  rw [Reader.problems_skip]

/-- A clean reading in two parts is two clean readings: neither part can take back what
the other has noted. -/
theorem clean_bind {p : Parse β} {f : β → Parse α} (hp : Moves p) (hf : ∀ c, Moves (f c)) :
    Clean (p >>= f) r b r' ↔ ∃ c r₁, Clean p r c r₁ ∧ Clean (f c) r₁ b r' := by
  constructor
  · rintro ⟨hrun, hsame⟩
    have hlast : (f (p.run r).1).run (p.run r).2 = (b, r') := hrun
    have hfirst : r.problems <+: (p.run r).2.problems := (hp r).problems
    have hrest : (p.run r).2.problems <+: r'.problems := by
      have := (hf (p.run r).1 (p.run r).2).problems
      rwa [hlast] at this
    have hmid : (p.run r).2.problems = r.problems := by
      rw [hsame] at hrest
      exact hrest.eq_of_length (Nat.le_antisymm hrest.length_le hfirst.length_le)
    exact ⟨(p.run r).1, (p.run r).2, ⟨rfl, hmid⟩, hlast, hsame.trans hmid.symm⟩
  · rintro ⟨c, r₁, ⟨hrun₁, hsame₁⟩, hrun₂, hsame₂⟩
    refine ⟨?_, hsame₂.trans hsame₁⟩
    show (f (p.run r).1).run (p.run r).2 = (b, r')
    rw [hrun₁]
    exact hrun₂

/-- What notes a problem is not clean. -/
theorem not_clean_note_bind {f : Unit → Parse α} (p : Problem) (hf : ∀ c, Moves (f c)) :
    ¬ Clean (note p >>= f) r b r' := by
  rw [clean_bind (.note p) hf]
  rintro ⟨c, r₁, ⟨hrun, hsame⟩, -⟩
  cases hrun
  have hlen := congrArg List.length hsame
  simp [Reader.note] at hlen

/-- What comes of expecting a token: it is passed if it is there, and else that is noted. -/
theorem run_expect (k : Kind) (r : Reader) :
    (expect k).run r = if r.upcoming.kind = k then (true, r.advance)
      else (false, r.note (.expected k r.upcoming)) := by
  show (ite (r.upcoming.kind = k) _ _ : Parse Bool).run r = _
  split <;> rfl

/-- A token that must come next does come next in a clean reading. -/
@[simp] theorem clean_require {k : Kind} {p : Parse α} :
    Clean (expect k >>= fun there => if there = true then p else pure a) r b r'
      ↔ r.upcoming.kind = k ∧ Clean p r.advance b r' := by
  show StateT.run (if ((expect k).run r).1 = true then p else pure a) ((expect k).run r).2
      = (b, r') ∧ r'.problems = r.problems ↔ _
  rw [run_expect]
  by_cases hk : r.upcoming.kind = k
  · rw [if_pos hk]
    exact ⟨fun h => ⟨hk, h⟩, fun h => h.2⟩
  · rw [if_neg hk]
    refine ⟨fun h => ?_, fun h => absurd h.1 hk⟩
    exact absurd h (not_clean_note_bind (.expected k r.upcoming) (fun _ => .pure a))

end Primitives

end Parse

end Monkey
