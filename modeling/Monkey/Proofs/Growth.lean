import Monkey.Proofs.Accepts

/-!
# What reading builds

Whatever a source is like, the tree that is read from it is of a certain kind. It has gaps, but no
nodes that the language does not have, no operators that the language does not have, and no gaps
among its statements; and each node starts where a token starts and stops where a token stops.

A law of reading says what holds of the tokens, and of the positions at which they start and stop.
`Expr.Grown` says that a tree is of that kind and that its spans keep to a law. Every rule of the
grammar builds such trees from readers that keep to the law (`ReadingLaw.Keeps`), and keeps problems
to tokens that do, whether the source is well formed or not (`grown_parse`).
-/

namespace Monkey

/-- What holds of tokens, and of the positions at which they start and stop. -/
structure ReadingLaw where
  token : Token → Prop
  start : Position → Prop
  stop : Position → Prop
  start_token {t : Token} : token t → start t.span.start
  stop_token {t : Token} : token t → stop t.span.stop

/-- The law that allows all tokens. -/
def ReadingLaw.any : ReadingLaw where
  token _ := True
  start _ := True
  stop _ := True
  start_token := id
  stop_token := id

/-- The ends of a span keep to a law. -/
def ReadingLaw.Spans (L : ReadingLaw) (s : Span) : Prop :=
  L.start s.start ∧ L.stop s.stop

/-- A unary operator is one of the language. -/
def UnaryOp.isNamed : UnaryOp → Bool
  | .other _ => false
  | .not | .neg => true

/-- A binary operator is one of the language. -/
def BinaryOp.isNamed : BinaryOp → Bool
  | .other _ => false
  | .add | .sub | .mul | .div | .lt | .gt | .eq | .ne => true

/-- A parameter is there, and its span keeps to a law. -/
def parameterGrown (L : ReadingLaw) : Option Binder → Prop
  | none => False
  | some b => L.Spans b.origin.span

mutual

/-- An expression is of the kind that reading builds, with spans that keep to a law. -/
def Expr.Grown (L : ReadingLaw) : Expr → Prop
  | .absent => True
  | .nameless | .foreign _ => False
  | .ident o _ | .int o _ | .bool o _ | .str o _ => L.Spans o.span
  | .unary o op operand => L.Spans o.span ∧ op.isNamed = true ∧ operand.Grown L
  | .binary o op left right =>
    L.Spans o.span ∧ op.isNamed = true ∧ left.Grown L ∧ right.Grown L
  | .cond o test consequence alternative =>
    L.Spans o.span ∧ test.Grown L ∧ consequence.Grown L ∧ alternative.Grown L
  | .fn o params body =>
    L.Spans o.span ∧ (∀ p ∈ params, parameterGrown L p) ∧ body.Grown L
  | .call o callee args => L.Spans o.span ∧ callee.Grown L ∧ exprsGrown L args
  | .array o elements => L.Spans o.span ∧ exprsGrown L elements
  | .index o left index => L.Spans o.span ∧ left.Grown L ∧ index.Grown L
  | .hash o pairs => L.Spans o.span ∧ pairsGrown L pairs

/-- The same for expressions. -/
def exprsGrown (L : ReadingLaw) : List Expr → Prop
  | [] => True
  | e :: rest => e.Grown L ∧ exprsGrown L rest

/-- The same for keys with their values. -/
def pairsGrown (L : ReadingLaw) : List (Expr × Expr) → Prop
  | [] => True
  | (key, value) :: rest => key.Grown L ∧ value.Grown L ∧ pairsGrown L rest

/-- A statement is of the kind that reading builds: it is there, it is no block, and a let statement
has its name. -/
def Stmt.Grown (L : ReadingLaw) : Stmt → Prop
  | .absent | .block _ | .bind _ none _ => False
  | .bind o (some name) value => L.Spans o.span ∧ L.Spans name.origin.span ∧ value.Grown L
  | .ret o value => L.Spans o.span ∧ value.Grown L
  | .expr o expr => L.Spans o.span ∧ expr.Grown L

/-- The same for statements. -/
def statementsGrown (L : ReadingLaw) : List Stmt → Prop
  | [] => True
  | s :: rest => s.Grown L ∧ statementsGrown L rest

/-- The same for a block. -/
def Block.Grown (L : ReadingLaw) : Block → Prop
  | .absent => True
  | .of o statements => L.Spans o.span ∧ statementsGrown L statements

end

/-- The same for a program. -/
def Program.Grown (L : ReadingLaw) (p : Program) : Prop :=
  L.Spans p.origin.span ∧ statementsGrown L p.statements

variable {L : ReadingLaw}

/-- Statements that grew may be put together. -/
theorem statementsGrown_append {ss ss' : List Stmt} (h : statementsGrown L ss)
    (h' : statementsGrown L ss') : statementsGrown L (ss ++ ss') := by
  induction ss with
  | nil => exact h'
  | cons s rest ih => exact ⟨h.1, ih h.2⟩

/-- Every expression that grew and has a span has one that keeps to the law. -/
theorem Expr.Grown.spans {e : Expr} (h : e.Grown L) {s : Span} (hs : e.span? = some s) :
    L.Spans s := by
  cases e with
  | absent => cases hs
  | nameless => exact h.elim
  | foreign o => exact h.elim
  | ident o _ | int o _ | bool o _ | str o _ => cases hs; exact h
  | _ => cases hs; exact h.1

/-! ## Readers -/

namespace ReadingLaw

/-- A token has the span that the law has for it: it starts and ends with itself. -/
theorem spans_token {t : Token} (h : L.token t) : L.Spans t.span :=
  ⟨L.start_token h, L.stop_token h⟩

/-- A joined span takes each end from one of the two spans. -/
theorem spans_join {s s' : Span} (h : L.Spans s) (h' : L.Spans s') : L.Spans (s.join s') := by
  constructor
  · show L.start (if s'.start.offset < s.start.offset then s'.start else s.start)
    split
    · exact h'.1
    · exact h.1
  · show L.stop (if s.stop.offset < s'.stop.offset then s'.stop else s.stop)
    split
    · exact h'.2
    · exact h.2

/-- The tokens of a reader keep to a law, and so do those at which it has noted problems. -/
structure Allows (L : ReadingLaw) (r : Reader) : Prop where
  tokens : ∀ t ∈ r.tokens, L.token t
  eof : L.token r.eof
  problems : ∀ p ∈ r.problems, L.token p.token

variable {r : Reader}

/-- The current token keeps to the law, also if it is the end token. -/
theorem Allows.current (h : L.Allows r) : L.token r.current := by
  obtain ⟨tokens, eof, problems⟩ := r
  cases tokens with
  | nil => exact h.eof
  | cons t rest => exact h.tokens t List.mem_cons_self

/-- Moving on brings no tokens that were not allowed before. -/
theorem Allows.advance (h : L.Allows r) : L.Allows r.advance :=
  ⟨fun t ht => h.tokens t (List.mem_of_mem_tail ht), h.eof, h.problems⟩

/-- The token that comes next keeps to the law. -/
theorem Allows.upcoming (h : L.Allows r) : L.token r.upcoming :=
  h.advance.current

/-- A problem may be noted at a token that keeps to the law. -/
theorem Allows.note (h : L.Allows r) {p : Problem} (hp : L.token p.token) :
    L.Allows (r.note p) := by
  refine ⟨h.tokens, h.eof, fun q hq => ?_⟩
  rcases List.mem_append.mp hq with hq | hq
  · exact h.problems q hq
  · exact List.mem_singleton.mp hq ▸ hp

/-- A reading keeps to a law: from a reader that does, it yields a value as stated and a reader that
does. -/
def Keeps {α : Type} (L : ReadingLaw) (p : α → Prop) (x : Parse α) : Prop :=
  ∀ r, L.Allows r → p (x.run r).1 ∧ L.Allows (x.run r).2

namespace Keeps

variable {α β : Type} {p : α → Prop} {q : β → Prop}

theorem pure {a : α} (h : p a) : L.Keeps p (pure a) :=
  fun _ hr => ⟨h, hr⟩

/-- A reading in two parts keeps the law if the first yields something of which something is known,
and the second keeps the law from there. -/
theorem bind {x : Parse β} {f : β → Parse α} (hx : L.Keeps q x) (hf : ∀ b, q b → L.Keeps p (f b)) :
    L.Keeps p (x >>= f) := by
  intro r hr
  obtain ⟨hb, hr'⟩ := hx r hr
  exact hf (x.run r).1 hb (x.run r).2 hr'

/-- A reading that chooses keeps the law if both choices do, and the first may rest on why it was
chosen. -/
theorem ite {c : Prop} [Decidable c] {x y : Parse α} (hx : c → L.Keeps p x) (hy : L.Keeps p y) :
    L.Keeps p (if c then x else y) := by
  by_cases hc : c
  · rw [if_pos hc]
    exact hx hc
  · rw [if_neg hc]
    exact hy

theorem current : L.Keeps L.token Parse.current :=
  fun _ hr => ⟨hr.current, hr⟩

theorem upcoming : L.Keeps L.token Parse.upcoming :=
  fun _ hr => ⟨hr.upcoming, hr⟩

theorem rounds : L.Keeps (fun _ => True) Bounded.rounds :=
  fun _ hr => ⟨trivial, hr⟩

theorem advance : L.Keeps (fun _ => True) Parse.advance :=
  fun _ hr => ⟨trivial, hr.advance⟩

/-- A problem that is noted at an allowed token is allowed. -/
theorem note {problem : Problem} (h : L.token problem.token) :
    L.Keeps (fun _ => True) (Parse.note problem) :=
  fun _ hr => ⟨trivial, hr.note h⟩

/-- A token that must come next, and what is done with and without it. -/
theorem require (k : Kind) {x y : Parse α} (hx : L.Keeps p x) (hy : L.Keeps p y) :
    L.Keeps p (Parse.expect k >>= fun there => if there = true then x else y) := by
  have hexpect : L.Keeps (fun _ => True) (Parse.expect k) :=
    upcoming.bind fun _ ht => .ite (fun _ => advance.bind fun _ _ => .pure trivial)
      ((note ht).bind fun _ _ => .pure trivial)
  exact hexpect.bind fun _ _ => .ite (fun _ => hx) hy

theorem skip (k : Kind) : L.Keeps (fun _ => True) (Parse.skip k) :=
  upcoming.bind fun _ _ => .ite (fun _ => advance) (.pure trivial)

/-- What starts with an allowed token and ends with the current one spans as the law says. -/
theorem originFrom {t : Token} (ht : L.token t) :
    L.Keeps (fun o => L.Spans o.span) (Parse.originFrom t) :=
  fun _ hr => ⟨spans_join (spans_token ht) (spans_token hr.current), hr⟩

/-- An operation starts where its left operand starts, and that spans as the law says. -/
theorem originAfter {left : Expr} (hleft : left.Grown L) {t : Token} (ht : L.token t) :
    L.Keeps (fun o => L.Spans o.span) (Parse.originAfter left t) := by
  unfold Parse.originAfter
  split
  · rename_i span hspan
    exact current.bind fun _ hu => .pure (spans_join (hleft.spans hspan) (spans_token hu))
  · exact originFrom ht

end Keeps

end ReadingLaw

/-! ## Rules -/

namespace ReadingLaw

open Parse

/-- A rule for expressions keeps to a law. No operator is looked for below the lowest precedence. -/
def Reads (L : ReadingLaw) (expr : Precedence → Parse Expr) : Prop :=
  ∀ above, Precedence.lowest ≤ above → L.Keeps (Expr.Grown L) (expr above)

variable {expr : Precedence → Parse Expr}

/-- An expression of the lowest precedence inside a rule. -/
theorem Reads.lowest (h : L.Reads expr) : L.Keeps (Expr.Grown L) (expr .lowest) :=
  h .lowest (Nat.le_refl _)

/-- A let statement grows from its name and its value. -/
theorem keeps_letStatement (h : L.Reads expr) :
    L.Keeps (fun s => statementsGrown L s.toList) (letStatement expr) := by
  refine .bind .current fun start hstart => .require _ ?_ (.pure trivial)
  refine .bind .current fun name hname => .require _ ?_ (.pure trivial)
  refine .bind .advance fun _ _ => h.lowest.bind fun value hvalue => ?_
  refine .bind (.skip _) fun _ _ => .bind (.originFrom hstart) fun o ho => ?_
  exact .pure ⟨⟨ho, spans_token hname, hvalue⟩, trivial⟩

/-- A return statement grows from its value, which may be absent. -/
theorem keeps_returnStatement (h : L.Reads expr) :
    L.Keeps (Stmt.Grown L) (returnStatement expr) := by
  refine .bind .current fun start hstart => .bind .upcoming fun next _ => ?_
  have hlast (value : Expr) (hvalue : value.Grown L) : L.Keeps (Stmt.Grown L) (do
      skip .semicolon
      return Stmt.ret (← originFrom start) value) :=
    .bind (.skip _) fun _ _ => .bind (.originFrom hstart) fun _ ho => .pure ⟨ho, hvalue⟩
  refine .ite (fun _ => .bind (.pure (p := Expr.Grown L) trivial) hlast) ?_
  exact .bind .advance fun _ _ => h.lowest.bind hlast

theorem keeps_expressionStatement (h : L.Reads expr) :
    L.Keeps (Stmt.Grown L) (expressionStatement expr) := by
  refine .bind .current fun start hstart => h.lowest.bind fun value hvalue => ?_
  exact .bind (.skip _) fun _ _ => .bind (.originFrom hstart) fun _ ho => .pure ⟨ho, hvalue⟩

/-- A statement grows, whichever it is. -/
theorem keeps_statement (h : L.Reads expr) :
    L.Keeps (fun s => statementsGrown L s.toList) (statement expr) := by
  refine .bind .current fun t _ => ?_
  split
  · exact keeps_letStatement h
  · exact (keeps_returnStatement h).bind fun _ hs => .pure ⟨hs, trivial⟩
  · exact (keeps_expressionStatement h).bind fun _ hs => .pure ⟨hs, trivial⟩

/-- Statements grow one by one. The induction is on the rounds that are left. -/
theorem keeps_statementsUntil (h : L.Reads expr) (closing : Option Kind) (n : Nat) :
    L.Keeps (statementsGrown L) (statementsUntil expr closing n) := by
  induction n with
  | zero => exact .pure trivial
  | succ n ih =>
      refine .bind .current fun t _ => .ite (fun _ => .pure trivial) ?_
      refine (keeps_statement h).bind fun first hfirst => .bind .advance fun _ _ => ?_
      exact ih.bind fun rest hrest => .pure (statementsGrown_append hfirst hrest)

/-- A block grows from its statements, and is there even if nothing closes it. -/
theorem keeps_block (h : L.Reads expr) : L.Keeps (Block.Grown L) (block expr) := by
  refine .bind .current fun start hstart => .bind .advance fun _ _ => .bind .rounds fun n _ => ?_
  refine (keeps_statementsUntil h _ n).bind fun statements hstatements => ?_
  refine .bind .current fun last hlast => .ite (fun _ => .bind (.note hlast) fun _ _ => ?_) ?_
  · exact .bind (.originFrom hstart) fun _ ho => .pure ⟨ho, hstatements⟩
  · exact .bind (.originFrom hstart) fun _ ho => .pure ⟨ho, hstatements⟩

/-- More expressions of a list grow one by one. -/
theorem keeps_moreExpressions (h : L.Reads expr) (n : Nat) :
    L.Keeps (exprsGrown L) (moreExpressions expr n) := by
  induction n with
  | zero => exact .pure trivial
  | succ n ih =>
      refine .bind .upcoming fun t _ => .ite (fun _ => ?_) (.pure trivial)
      refine .bind .advance fun _ _ => .bind .advance fun _ _ => ?_
      refine h.lowest.bind fun first hfirst => ?_
      exact ih.bind fun rest hrest => .pure ⟨hfirst, hrest⟩

/-- A list of expressions grows, or there is none. -/
theorem keeps_expressionList (h : L.Reads expr) (closing : Kind) :
    L.Keeps (fun es => exprsGrown L (es.getD [])) (expressionList expr closing) := by
  refine .bind .upcoming fun t _ => .ite (fun _ => .bind .advance fun _ _ => .pure trivial) ?_
  refine .bind .advance fun _ _ => h.lowest.bind fun first hfirst => .bind .rounds fun n _ => ?_
  refine (keeps_moreExpressions h n).bind fun rest hrest => ?_
  exact .require _ (.pure ⟨hfirst, hrest⟩) (.pure trivial)

/-- The spans of parameters keep to a law. -/
def ParametersFit (L : ReadingLaw) (params : Option (List Binder)) : Prop :=
  ∀ p ∈ params.getD [], L.Spans p.origin.span

theorem parametersFit_nil (L : ReadingLaw) : L.ParametersFit (some []) :=
  fun _ hp => absurd hp List.not_mem_nil

theorem parametersFit_none (L : ReadingLaw) : L.ParametersFit none :=
  fun _ hp => absurd hp List.not_mem_nil

/-- A parameter is a name that was read, so it is one of those that fit. -/
theorem parametersFit_cons {name : Token} (hname : L.token name) {rest : List Binder}
    (hrest : L.ParametersFit (some rest)) :
    L.ParametersFit (some (⟨name.origin, name.literal⟩ :: rest)) :=
  List.forall_mem_cons.mpr ⟨spans_token hname, hrest⟩

/-- More parameters fit, by induction on the rounds that are left. -/
theorem keeps_moreParameters (n : Nat) : L.Keeps L.ParametersFit (moreParameters n) := by
  induction n with
  | zero => exact .pure L.parametersFit_nil
  | succ n ih =>
      have hnone : L.Keeps L.ParametersFit (pure none) := .pure L.parametersFit_none
      refine .bind .upcoming fun t _ => .ite (fun _ => ?_) (.pure L.parametersFit_nil)
      refine .bind .advance fun _ _ => .require _ (.bind .current fun name hname => ?_) hnone
      refine ih.bind fun rest hrest => ?_
      split
      · exact .pure (parametersFit_cons hname hrest)
      · exact hnone

/-- The parameters of a function fit: none of them is missing. -/
theorem keeps_parameters : L.Keeps L.ParametersFit parameters := by
  have hnone : L.Keeps L.ParametersFit (pure none) := .pure L.parametersFit_none
  refine .bind .upcoming fun t _ => .ite (fun _ => ?_) ?_
  · exact .bind .advance fun _ _ => .pure L.parametersFit_nil
  · refine .require _ (.bind .current fun name hname => .bind .rounds fun n _ => ?_) hnone
    refine (keeps_moreParameters n).bind fun rest hrest => ?_
    split
    · exact .require _ (.pure (parametersFit_cons hname hrest)) hnone
    · exact hnone

/-- Pairs grow one by one, or there are none. -/
theorem keeps_hashPairs (h : L.Reads expr) (n : Nat) :
    L.Keeps (fun ps => pairsGrown L (ps.getD [])) (hashPairs expr n) := by
  induction n with
  | zero => exact .pure trivial
  | succ n ih =>
      refine .bind .upcoming fun t _ => .ite (fun _ => .pure trivial) (.bind .advance fun _ _ => ?_)
      refine h.lowest.bind fun key hkey => .require _ (.bind .advance fun _ _ => ?_) (.pure trivial)
      refine h.lowest.bind fun value hvalue => .bind .upcoming fun next _ => ?_
      refine .ite (fun _ => .require _ (ih.bind fun rest hrest => ?_) (.pure trivial))
        (ih.bind fun rest hrest => ?_)
      · split
        · exact .pure ⟨hkey, hvalue, hrest⟩
        · exact .pure trivial
      · split
        · exact .pure ⟨hkey, hvalue, hrest⟩
        · exact .pure trivial

/-- A numeral grows from its token, or is absent. -/
theorem keeps_integer {t : Token} (ht : L.token t) : L.Keeps (Expr.Grown L) (integer t) :=
  .ite (fun _ => .pure (spans_token ht)) (.bind (.note ht) fun _ _ => .pure trivial)

/-- A unary expression grows from its operand, if its operator is one of the language. -/
theorem keeps_unaryExpression (h : L.Reads expr) {op : UnaryOp} (hop : op.isNamed = true) :
    L.Keeps (Expr.Grown L) (unaryExpression expr op) := by
  have hunary : Precedence.lowest ≤ .unary := by decide
  refine .bind .current fun start hstart => .bind .advance fun _ _ => ?_
  refine (h _ hunary).bind fun operand hoperand => ?_
  exact .bind (.originFrom hstart) fun _ ho => .pure ⟨ho, hop, hoperand⟩

/-- What is in parentheses grows, or is absent where they are not closed. -/
theorem keeps_grouped (h : L.Reads expr) : L.Keeps (Expr.Grown L) (grouped expr) := by
  refine .bind .advance fun _ _ => h.lowest.bind fun inner hinner => ?_
  exact .require _ (.pure hinner) (.pure trivial)

/-- A conditional grows from its test and blocks, or is absent. -/
theorem keeps_conditional (h : L.Reads expr) : L.Keeps (Expr.Grown L) (conditional expr) := by
  have habsent : L.Keeps (Expr.Grown L) (pure .absent) := .pure trivial
  refine .bind .current fun start hstart => .require _ (.bind .advance fun _ _ => ?_) habsent
  refine h.lowest.bind fun test htest => .require _ (.require _ ?_ habsent) habsent
  refine (keeps_block h).bind fun consequence hconsequence => .bind .upcoming fun next _ => ?_
  refine .ite (fun _ => .bind .advance fun _ _ => .require _ ?_ habsent) ?_
  · refine (keeps_block h).bind fun alternative halternative => ?_
    exact .bind (.originFrom hstart) fun _ ho => .pure ⟨ho, htest, hconsequence, halternative⟩
  · exact .bind (.originFrom hstart) fun _ ho => .pure ⟨ho, htest, hconsequence, trivial⟩

/-- A function grows from its parameters and its body, or is absent. -/
theorem keeps_functionLiteral (h : L.Reads expr) :
    L.Keeps (Expr.Grown L) (functionLiteral expr) := by
  have habsent : L.Keeps (Expr.Grown L) (pure .absent) := .pure trivial
  refine .bind .current fun start hstart => .require _ ?_ habsent
  refine keeps_parameters.bind fun params hparams => ?_
  split
  · exact habsent
  · refine .require _ ((keeps_block h).bind fun body hbody => ?_) habsent
    exact .bind (.originFrom hstart) fun _ ho => .pure ⟨ho, List.forall_mem_map.mpr hparams, hbody⟩

/-- An array grows from its elements, or is absent. -/
theorem keeps_arrayLiteral (h : L.Reads expr) : L.Keeps (Expr.Grown L) (arrayLiteral expr) := by
  refine .bind .current fun start hstart => ?_
  refine (keeps_expressionList h _).bind fun elements helements => ?_
  split
  · exact .pure trivial
  · exact .bind (.originFrom hstart) fun _ ho => .pure ⟨ho, helements⟩

/-- A hash grows from its pairs, or is absent. -/
theorem keeps_hashLiteral (h : L.Reads expr) : L.Keeps (Expr.Grown L) (hashLiteral expr) := by
  refine .bind .current fun start hstart => .bind .rounds fun n _ => ?_
  refine (keeps_hashPairs h _).bind fun pairs hpairs => ?_
  split
  · exact .pure trivial
  · exact .require _ (.bind (.originFrom hstart) fun _ ho => .pure ⟨ho, hpairs⟩) (.pure trivial)

/-- Whatever operand a token starts, reading it keeps to the law. -/
theorem keeps_operand (h : L.Reads expr) {t : Token} (ht : L.token t) {x : Parse Expr}
    (hx : operand expr t = some x) : L.Keeps (Expr.Grown L) x := by
  unfold operand at hx
  split at hx <;> cases hx
  · exact .pure (spans_token ht)
  · exact keeps_integer ht
  · exact .pure (spans_token ht)
  · exact .pure (spans_token ht)
  · exact .pure (spans_token ht)
  · exact keeps_unaryExpression h rfl
  · exact keeps_unaryExpression h rfl
  · exact keeps_grouped h
  · exact keeps_conditional h
  · exact keeps_functionLiteral h
  · exact keeps_arrayLiteral h
  · exact keeps_hashLiteral h

/-- A token that binds tighter than the lowest precedence, but is no bracket, is a binary operator.
-/
theorem isNamed_ofToken {t : Token} (hbinds : Precedence.lowest < t.kind.precedence)
    (hparen : t.kind ≠ .lparen) (hbracket : t.kind ≠ .lbracket) :
    (BinaryOp.ofToken t).isNamed = true := by
  obtain ⟨kind, literal, span⟩ := t
  cases kind with
  | lparen => exact absurd rfl hparen
  | lbracket => exact absurd rfl hbracket
  | plus | minus | asterisk | slash | lt | gt | eq | notEq => rfl
  | _ => exact absurd hbinds (Nat.lt_irrefl _)

/-- An operation grows from its left operand. Its token binds, so it is no token that the language
has no operator for. -/
theorem keeps_operation (h : L.Reads expr) {t : Token} (ht : L.token t)
    (hbinds : Precedence.lowest < t.kind.precedence) {left : Expr} (hleft : left.Grown L) :
    L.Keeps (Expr.Grown L) (operation expr t left) := by
  unfold operation
  split
  · refine (keeps_expressionList h _).bind fun args hargs => ?_
    split
    · exact .pure trivial
    · exact .bind (.originAfter hleft ht) fun _ ho => .pure ⟨ho, hleft, hargs⟩
  · refine .bind .advance fun _ _ => h.lowest.bind fun index hindex => ?_
    refine .require _ (.bind (.originAfter hleft ht) fun _ ho => ?_) (.pure trivial)
    exact .pure ⟨ho, hleft, hindex⟩
  · rename_i hparen hbracket
    refine .bind .advance fun _ _ => (h _ (Nat.le_of_lt hbinds)).bind fun right hright => ?_
    refine .bind (.originAfter hleft ht) fun _ ho => ?_
    exact .pure ⟨ho, isNamed_ofToken hbinds hparen hbracket, hleft, hright⟩

/-- Operations grow around the left operand, by induction on the rounds that are left. -/
theorem keeps_operations (h : L.Reads expr) {above : Precedence} (habove : .lowest ≤ above)
    (n : Nat) {left : Expr} (hleft : left.Grown L) :
    L.Keeps (Expr.Grown L) (operations expr above n left) := by
  induction n generalizing left with
  | zero => exact .pure hleft
  | succ n ih =>
      refine .bind .upcoming fun t ht => .ite (fun hbinds => .bind .advance fun _ _ => ?_)
        (.pure hleft)
      have hlowest : Precedence.lowest < t.kind.precedence := Nat.lt_of_le_of_lt habove hbinds
      exact (keeps_operation h ht hlowest hleft).bind fun left' hleft' => ih hleft'

theorem keeps_missingOperand : L.Keeps (Expr.Grown L) missingOperand :=
  .bind .current fun _ ht => .bind (.note ht) fun _ _ => .pure trivial

/-- Reading an expression keeps to a law. The induction is on the expressions inside one another. -/
theorem reads_expression (L : ReadingLaw) (n : Nat) : L.Reads (expression n) := by
  induction n with
  | zero => exact fun _ _ => keeps_missingOperand
  | succ n ih =>
      intro above habove
      refine .bind .current fun t ht => ?_
      split
      · exact keeps_missingOperand
      · rename_i first hfirst
        refine .bind .rounds fun m _ => (keeps_operand ih ht hfirst).bind fun left hleft => ?_
        exact keeps_operations ih habove m hleft

/-- A program grows from its statements. -/
theorem keeps_program : L.Keeps (Program.Grown L) program := by
  refine .bind .rounds fun _ _ => .bind .current fun start hstart => .bind .rounds fun n _ => ?_
  refine (keeps_statementsUntil (reads_expression L _) _ n).bind fun statements hstatements => ?_
  exact .bind .current fun last hlast =>
    .pure ⟨⟨L.start_token hstart, L.stop_token hlast⟩, hstatements⟩

end ReadingLaw

/-- The tree of any source is of the kind that reading builds, with spans that keep to every law
that the tokens keep to, and problems are noted at such tokens. -/
theorem grown_parse (L : ReadingLaw) {source : Text} (h : ∀ t ∈ tokenize source, L.token t) :
    (parse source).program.Grown L ∧ ∀ p ∈ (parse source).problems, L.token p.token := by
  obtain ⟨inner, eof, htokens, -⟩ :=
    Cursor.tokensUpTo_eq source.length (.ofSource source) (Nat.le_refl _)
  have htokenize : tokenize source = inner ++ [eof] := htokens
  rw [htokenize] at h
  obtain ⟨hinner, heof⟩ := List.forall_mem_append.mp h
  have hallows : L.Allows (.ofTokens (tokenize source)) := by
    rw [htokenize, Reader.ofTokens_concat]
    exact ⟨hinner, heof eof List.mem_cons_self, fun _ hp => absurd hp List.not_mem_nil⟩
  obtain ⟨hprogram, hreader⟩ := ReadingLaw.keeps_program _ hallows
  exact ⟨hprogram, hreader.problems⟩

end Monkey
