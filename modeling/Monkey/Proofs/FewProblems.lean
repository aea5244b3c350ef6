import Monkey.Proofs.Accepts
import Monkey.Proofs.Limits
import Monkey.Proofs.Tiling

/-!
# No more problems than tokens

A construct that fails makes those around it fail as well, all at the same token. Still a reading
notes no more problems than there are tokens: each problem is charged to a token of its own. A
missing token is charged to the one that started the construct which misses it, since a construct
gives up when it misses one; an operand that is missing or does not fit is charged to the token that
stands in its place.

What is counted is the load of a reader: the problems noted and the tokens left. A token that is
passed takes one off, a problem adds one. `Parse.Costs` bounds what a reading adds to the load. An
expression adds at most one, whatever is wrong in it, and the token after which it is read pays for
that.
-/

namespace Monkey

/-- The problems noted and the tokens left. -/
def Reader.load (r : Reader) : Int :=
  r.problems.length + r.tokens.length

namespace Reader

/-- There is a token under consideration, not only the end. -/
def Inside (r : Reader) : Prop :=
  r.tokens ≠ []

/-- A problem that is noted adds one to the load. -/
theorem load_note (r : Reader) (p : Problem) : (r.note p).load = r.load + 1 := by
  show ((r.problems ++ [p]).length + r.tokens.length : Int)
    = r.problems.length + r.tokens.length + 1
  rw [List.length_append, List.length_singleton]
  omega

/-- Moving on adds nothing to the load, also at the end. -/
theorem load_advance_le (r : Reader) : r.advance.load ≤ r.load := by
  have hlength := r.length_advance_le
  rw [load, load, problems_advance]
  omega

/-- A token that is passed takes one off. -/
theorem load_advance {r : Reader} (h : r.Inside) : r.advance.load = r.load - 1 := by
  obtain ⟨tokens, eof, problems⟩ := r
  cases tokens with
  | nil => exact absurd rfl h
  | cons t rest =>
      show (problems.length + rest.length : Int) = problems.length + (rest.length + 1 : Nat) - 1
      omega

/-- A current token that is not the end is one of those left. -/
theorem inside_of_current {r : Reader} (hs : r.Sane) (h : r.current.kind ≠ .eof) : r.Inside := by
  intro hnil
  exact h (Parse.kind_current_nil hs hnil)

/-- Before a token that is not the end there is one, and it is inside itself. -/
theorem inside_of_upcoming {r : Reader} (hs : r.Sane) (h : r.upcoming.kind ≠ .eof) :
    r.Inside ∧ r.advance.Inside :=
  ⟨fun hnil => h (Parse.kind_upcoming_nil hs hnil), inside_of_current hs.advance h⟩

end Reader

namespace Parse

variable {α β : Type} {P Q : Reader → Prop} {c : α → Int} {d : β → Int}

theorem run_bind (p : Parse α) (f : α → Parse β) (r : Reader) :
    (p >>= f).run r = (f (p.run r).1).run (p.run r).2 :=
  rfl

/-- From a reader as stated, a reading adds at most so much to the load, depending on what it
yields. -/
structure Costs (P : Reader → Prop) (c : α → Int) (p : Parse α) : Prop where
  moves : Moves p
  load (r : Reader) : r.Sane → P r → (p.run r).2.load ≤ r.load + c (p.run r).1

/-- Nothing is asked of a reader. -/
def Anywhere (_ : Reader) : Prop :=
  True

namespace Costs

/-- A bound may be asked of fewer readers and may be larger. -/
theorem mono {p : Parse α} {c' : α → Int} (h : Costs Q c' p) (hP : ∀ r, r.Sane → P r → Q r)
    (hc : ∀ a, c' a ≤ c a) : Costs P c p :=
  ⟨h.moves, fun r hs hr => Int.le_trans (h.load r hs (hP r hs hr)) (Int.add_le_add_left (hc _) _)⟩

/-- A bound that holds anywhere holds where something is known. -/
theorem anywhere {p : Parse α} (h : Costs Anywhere c p) : Costs P c p :=
  h.mono (fun _ _ _ => trivial) fun _ => Int.le_refl _

/-- What comes next need not matter. -/
theorem known {t : Token} {p : Parse α} (h : Costs P c p) :
    Costs (fun r => P r ∧ r.upcoming = t) c p :=
  h.mono (fun _ _ hr => hr.1) fun _ => Int.le_refl _

theorem pure {a : α} (h : 0 ≤ c a) : Costs P c (pure a) :=
  ⟨.pure a, fun _ _ _ => Int.le_add_of_nonneg_right h⟩

/-- What the first part of a reading adds is taken from what the second may add. -/
theorem bind {p : Parse α} {f : α → Parse β} (hp : Costs P c p)
    (hf : ∀ a, Costs Anywhere (fun b => d b - c a) (f a)) : Costs P d (p >>= f) := by
  refine ⟨.bind hp.moves fun a => (hf a).moves, fun r hs hr => ?_⟩
  have hfirst := hp.load r hs hr
  have hsecond := (hf (p.run r).1).load _ (hs.onward (hp.moves r)) trivial
  rw [run_bind]
  omega

/-- A reading that chooses costs at most what is asked of both choices. -/
theorem ite {b : Prop} [Decidable b] {p q : Parse α} (hp : b → Costs P c p)
    (hq : ¬ b → Costs P c q) : Costs P c (if b then p else q) := by
  by_cases hb : b
  · rw [if_pos hb]
    exact hp hb
  · rw [if_neg hb]
    exact hq hb

/-- The current token is looked at for nothing. -/
theorem current {f : Token → Parse α} (hf : ∀ t, Costs P c (f t)) :
    Costs P c (Parse.current >>= f) :=
  ⟨.bind .current fun t => (hf t).moves, fun r => (hf r.current).load r⟩

/-- At a token that is not the end, more may be known. -/
theorem currentInside {f : Token → Parse α}
    (hin : ∀ t, t.kind ≠ .eof → Costs Reader.Inside c (f t))
    (hend : ∀ t, t.kind = .eof → Costs P c (f t)) : Costs P c (Parse.current >>= f) := by
  refine ⟨.bind .current fun t => ?_, fun r hs hr => ?_⟩
  · by_cases ht : t.kind = .eof
    · exact (hend t ht).moves
    · exact (hin t ht).moves
  · by_cases ht : r.current.kind = .eof
    · exact (hend r.current ht).load r hs hr
    · exact (hin r.current ht).load r hs (Reader.inside_of_current hs ht)

/-- What is done with the token that comes next may rest on what it is. -/
theorem upcoming {f : Token → Parse α}
    (hf : ∀ t, Costs (fun r => P r ∧ r.upcoming = t) c (f t)) : Costs P c (Parse.upcoming >>= f) :=
  ⟨.bind .upcoming fun t => (hf t).moves, fun r hs hr => (hf r.upcoming).load r hs ⟨hr, rfl⟩⟩

theorem rounds {f : Nat → Parse α} (hf : ∀ n, Costs P c (f n)) :
    Costs P c (Bounded.rounds >>= f) :=
  ⟨.bind .rounds fun n => (hf n).moves, fun r => (hf r.tokens.length).load r⟩

/-- A token that is passed gives one more to add. -/
theorem load_advance {p : Parse α} (h : Costs P (fun a => c a + 1) p) {r : Reader} (hs : r.Sane)
    (hinside : r.Inside) (hP : P r.advance) :
    (p.run r.advance).2.load ≤ r.load + c (p.run r.advance).1 := by
  have hload := h.load r.advance hs.advance hP
  rw [Reader.load_advance hinside] at hload
  omega

/-- A problem takes one of those. -/
theorem load_note {p : Parse α} (h : Costs Anywhere (fun a => c a - 1) p) {r : Reader} (hs : r.Sane)
    (q : Problem) : (p.run (r.note q)).2.load ≤ r.load + c (p.run (r.note q)).1 := by
  have hload := h.load (r.note q) (hs.onward (.note r q)) trivial
  rw [Reader.load_note] at hload
  omega

/-- A token that is passed pays for one problem later on. -/
theorem advance {f : Unit → Parse α} (hf : Costs Anywhere (fun a => c a + 1) (f ())) :
    Costs Reader.Inside c (Parse.advance >>= f) :=
  ⟨.bind .advance fun _ => hf.moves, fun _ hs hinside => hf.load_advance hs hinside trivial⟩

/-- If the token that comes next is not the end, there is one to pass before it, and it can itself
be passed afterwards. -/
theorem advanceTo {t : Token} (ht : t.kind ≠ .eof) {f : Unit → Parse α}
    (hf : Costs Reader.Inside (fun a => c a + 1) (f ())) :
    Costs (fun r => P r ∧ r.upcoming = t) c (Parse.advance >>= f) := by
  refine ⟨.bind .advance fun _ => hf.moves, ?_⟩
  rintro r hs ⟨-, rfl⟩
  obtain ⟨hinside, hafter⟩ := Reader.inside_of_upcoming hs ht
  exact hf.load_advance hs hinside hafter

/-- A problem that is noted has to be paid for. -/
theorem note {f : Unit → Parse α} (p : Problem) (hf : Costs Anywhere (fun a => c a - 1) (f ())) :
    Costs P c (Parse.note p >>= f) :=
  ⟨.bind (.note p) fun _ => hf.moves, fun _ hs _ => hf.load_note hs p⟩

/-- A token that must come next is passed, or else it is a problem that it does not. -/
theorem require {k : Kind} (hk : k ≠ .eof) {p q : Parse α}
    (hp : Costs Reader.Inside (fun a => c a + 1) p) (hq : Costs Anywhere (fun a => c a - 1) q) :
    Costs P c (expect k >>= fun there => if there = true then p else q) := by
  refine ⟨.require k hp.moves hq.moves, fun r hs _ => ?_⟩
  rw [run_bind, run_expect]
  by_cases hupcoming : r.upcoming.kind = k
  · obtain ⟨hinside, hafter⟩ := Reader.inside_of_upcoming hs (hupcoming ▸ hk)
    rw [if_pos hupcoming]
    exact hp.load_advance hs hinside hafter
  · rw [if_neg hupcoming]
    exact hq.load_note hs _

/-- A token that may be skipped costs nothing. -/
theorem skip (k : Kind) : Costs P (fun _ => 0) (Parse.skip k) := by
  refine ⟨.skip k, fun r _ _ => ?_⟩
  rw [run_skip, Reader.skip]
  split
  · exact Int.le_trans r.load_advance_le (Int.le_of_eq (Int.add_zero _).symm)
  · exact Int.le_of_eq (Int.add_zero _).symm

theorem originFrom (t : Token) : Costs P (fun _ => 0) (Parse.originFrom t) :=
  ⟨.originFrom t, fun _ _ _ => Int.le_of_eq (Int.add_zero _).symm⟩

theorem originAfter (left : Expr) (t : Token) :
    Costs P (fun _ => 0) (Parse.originAfter left t) := by
  refine ⟨.originAfter left t, fun r _ _ => ?_⟩
  rw [run_originAfter]
  exact Int.le_of_eq (Int.add_zero _).symm

end Costs

/-! ## Rules -/

/-- A rule for expressions adds at most one. -/
def Frugal (expr : Precedence → Parse Expr) : Prop :=
  ∀ above, Precedence.lowest ≤ above → Costs Anywhere (fun _ => 1) (expr above)

section Rules

variable {expr : Precedence → Parse Expr}

/-- An expression inside a rule adds at most one to the load. -/
theorem Frugal.lowest (h : Frugal expr) : Costs P (fun _ => 1) (expr .lowest) :=
  (h .lowest (Nat.le_refl _)).anywhere

/-- A let statement adds at most one: what is missing in it is noted once, and then it gives up. -/
theorem costs_letStatement (h : Frugal expr) : Costs Anywhere (fun _ => 1) (letStatement expr) := by
  refine .current fun start => .require Kind.noConfusion ?_ (.pure (by decide))
  refine .current fun name => .require Kind.noConfusion ?_ (.pure (by decide))
  refine .advance (h.lowest.bind fun value => ?_)
  exact (Costs.skip _).bind fun _ => (Costs.originFrom _).bind fun _ => .pure (by decide)

/-- A return statement adds at most one, for its value. -/
theorem costs_returnStatement (h : Frugal expr) :
    Costs Anywhere (fun _ => 1) (returnStatement expr) := by
  refine .current fun start => .upcoming fun next => ?_
  have hlast (value : Expr) : Costs Anywhere (fun _ => 0) (do
      Parse.skip .semicolon
      return Stmt.ret (← originFrom start) value) :=
    (Costs.skip _).bind fun _ => (Costs.originFrom _).bind fun _ => .pure (by decide)
  refine .ite (fun _ => ?_) fun hvalue => ?_
  · exact (hlast .absent).mono (fun _ _ _ => trivial) fun _ => by decide
  · refine .advanceTo (fun heof => hvalue (.inr (.inr heof))) (h.lowest.bind fun value => ?_)
    exact (hlast value).mono (fun _ _ _ => trivial) fun _ => by decide

theorem costs_expressionStatement (h : Frugal expr) :
    Costs Anywhere (fun _ => 1) (expressionStatement expr) := by
  refine .current fun start => h.lowest.bind fun value => ?_
  exact (Costs.skip _).bind fun _ => (Costs.originFrom _).bind fun _ => .pure (by decide)

/-- A statement adds at most one, whichever it is. -/
theorem costs_statement (h : Frugal expr) : Costs Anywhere (fun _ => 1) (statement expr) := by
  refine .current fun t => ?_
  split
  · exact costs_letStatement h
  · exact (costs_returnStatement h).bind fun _ => .pure (by decide)
  · exact (costs_expressionStatement h).bind fun _ => .pure (by decide)

/-- After a statement the token is passed at which it ends. If that is the end nothing follows, so
only the last statement adds to the load. -/
theorem costs_statementsUntil (h : Frugal expr) (closing : Option Kind) (n : Nat) :
    Costs Anywhere (fun _ => 1) (statementsUntil expr closing n) := by
  induction n with
  | zero => exact .pure (by decide)
  | succ n ih =>
      refine .current fun t => .ite (fun _ => .pure (by decide)) fun _ => ?_
      refine (costs_statement h).bind fun first => ?_
      -- the statement has used up what may be added: the token that is passed pays for the rest
      have hrest : Costs Anywhere (fun _ => 1) (do
          let rest ← statementsUntil expr closing n
          return first.toList ++ rest) :=
        ih.bind fun rest => .pure (by decide)
      refine ⟨.bind .advance fun _ => hrest.moves, fun r hs hr => ?_⟩
      by_cases hend : r.tokens = []
      · have hstill : r.advance = r := by
          rw [Reader.advance, hend, List.tail_nil, ← hend]
        have hrun : (statementsUntil expr closing n).run r = ([], r) :=
          run_statementsUntil_nil closing n hs hend
        show (StateT.run (do
          let rest ← statementsUntil expr closing n
          return first.toList ++ rest) r.advance).2.load ≤ _
        rw [hstill, run_bind, hrun]
        exact Int.le_of_eq (Int.add_zero _).symm
      · exact Costs.load_advance (c := fun _ => 0) hrest hs hend trivial

/-- A block adds at most one, for the brace that is missing. -/
theorem costs_block (h : Frugal expr) : Costs Reader.Inside (fun _ => 1) (block expr) := by
  refine .current fun start => .advance (.rounds fun n => ?_)
  refine (costs_statementsUntil h _ n).bind fun statements => .current fun last => ?_
  refine .ite (fun _ => .note _ ?_) fun _ => ?_
  · exact (Costs.originFrom start).bind fun _ => .pure (by decide)
  · exact (Costs.originFrom start).bind fun _ => .pure (by decide)

/-- More expressions cost nothing: each has a comma before it that pays. -/
theorem costs_moreExpressions (h : Frugal expr) (n : Nat) :
    Costs Anywhere (fun _ => 0) (moreExpressions expr n) := by
  induction n with
  | zero => exact .pure (by decide)
  | succ n ih =>
      refine .upcoming fun t => .ite (fun ht => ?_) fun _ => .pure (by decide)
      refine .advanceTo (ht ▸ Kind.noConfusion) (.advance (h.lowest.bind fun first => ?_))
      exact ih.bind fun rest => .pure (by decide)

/-- A list of expressions adds at most one: either one of them or its closing token. -/
theorem costs_expressionList (h : Frugal expr) {closing : Kind} (hclosing : closing ≠ .eof) :
    Costs Reader.Inside (fun _ => 1) (expressionList expr closing) := by
  refine .upcoming fun t => .known (.ite (fun _ => .advance (.pure (by decide))) fun _ => ?_)
  refine .advance (h.lowest.bind fun first => .rounds fun n => ?_)
  refine (costs_moreExpressions h n).bind fun rest => ?_
  exact .require hclosing (.pure (by decide)) (.pure (by decide))

/-- More parameters cost nothing: the comma before a name pays for the name that is missing. -/
theorem costs_moreParameters (n : Nat) : Costs Anywhere (fun _ => 0) (moreParameters n) := by
  induction n with
  | zero => exact .pure (by decide)
  | succ n ih =>
      refine .upcoming fun t => .ite (fun ht => ?_) fun _ => .pure (by decide)
      refine .advanceTo (ht ▸ Kind.noConfusion) (.require Kind.noConfusion ?_ (.pure (by decide)))
      refine .current fun name => ih.anywhere.bind fun rest => ?_
      cases rest <;> exact .pure (by decide)

/-- Parameters add at most one, for what is missing in them. -/
theorem costs_parameters : Costs Anywhere (fun _ => 1) parameters := by
  refine .upcoming fun t => .ite (fun ht => ?_) fun _ => ?_
  · exact .advanceTo (ht ▸ Kind.noConfusion) (.pure (by decide))
  · refine .require Kind.noConfusion (.current fun name => ?_) (.pure (by decide))
    refine .rounds fun n => (costs_moreParameters n).anywhere.bind fun rest => ?_
    cases rest with
    | none => exact .pure (by decide)
    | some rest => exact .require Kind.noConfusion (.pure (by decide)) (.pure (by decide))

/-- What the pairs of a hash may add: nothing if they are all there, since the closing brace may
still be missing after them. -/
def pairsCost : Option (List (Expr × Expr)) → Int
  | none => 1
  | some _ => 0

/-- The pair that was read pays for the rest of the pairs. -/
theorem costs_morePairs {n : Nat} (h : Costs Reader.Inside pairsCost (hashPairs expr n))
    (key value : Expr) : Costs Reader.Inside (fun rest => pairsCost rest + 1) (do
      match ← hashPairs expr n with
      | some rest => return some ((key, value) :: rest)
      | none => return none) := by
  refine h.bind fun rest => ?_
  cases rest <;> exact .pure (by simp [pairsCost])

/-- Pairs add at most one where they give up, and nothing where they do not. The induction is on the
rounds that are left. -/
theorem costs_hashPairs (h : Frugal expr) (n : Nat) :
    Costs Reader.Inside pairsCost (hashPairs expr n) := by
  induction n with
  | zero => exact .pure (by decide)
  | succ n ih =>
      refine .upcoming fun t => .known (.ite (fun _ => .pure (by decide)) fun _ => ?_)
      refine .advance (h.lowest.bind fun key => .require Kind.noConfusion ?_ (.pure (by decide)))
      refine .advance (h.lowest.bind fun value => .upcoming fun next => ?_)
      have hmore := costs_morePairs ih key value
      refine .ite (fun _ => ?_) fun hnext => ?_
      · refine .require Kind.noConfusion (hmore.mono (fun _ _ hr => hr) ?_) (.pure (by decide))
        intro rest
        omega
      · refine hmore.mono ?_ ?_
        · rintro r hs ⟨-, rfl⟩
          rw [Decidable.not_not] at hnext
          exact (Reader.inside_of_upcoming hs (hnext ▸ Kind.noConfusion)).1
        · intro rest
          omega

/-- A numeral adds at most one, for being too large. -/
theorem costs_integer (t : Token) : Costs P (fun _ => 1) (integer t) :=
  .ite (fun _ => .pure (by decide)) fun _ => .note _ (.pure (by decide))

/-- The operator pays for its operand. -/
theorem costs_unaryExpression (h : Frugal expr) (op : UnaryOp) :
    Costs Reader.Inside (fun _ => 1) (unaryExpression expr op) := by
  refine .current fun start => .advance ?_
  refine (h .unary (Nat.le_add_left 1 5)).bind fun operand => ?_
  exact (Costs.originFrom start).bind fun _ => .pure (by decide)

/-- The opening parenthesis pays for what is missing inside or behind it. -/
theorem costs_grouped (h : Frugal expr) : Costs Reader.Inside (fun _ => 1) (grouped expr) :=
  .advance (h.lowest.bind fun _ =>
    .require Kind.noConfusion (.pure (by decide)) (.pure (by decide)))

/-- A conditional adds at most one. Its word pays for its test, and the tokens inside pay for its
blocks. -/
theorem costs_conditional (h : Frugal expr) :
    Costs Reader.Inside (fun _ => 1) (conditional expr) := by
  refine .current fun start => .require Kind.noConfusion (.advance ?_) (.pure (by decide))
  refine h.lowest.bind fun test => .require Kind.noConfusion ?_ (.pure (by decide))
  refine .require Kind.noConfusion ?_ (.pure (by decide))
  refine (costs_block h).bind fun consequence => .upcoming fun next => ?_
  refine .ite (fun hnext => ?_) fun _ => ?_
  · refine .advanceTo (hnext ▸ Kind.noConfusion) (.require Kind.noConfusion ?_ (.pure (by decide)))
    refine (costs_block h).bind fun alternative => ?_
    exact (Costs.originFrom start).bind fun _ => .pure (by decide)
  · exact (Costs.originFrom start).bind fun _ => .pure (by decide)

/-- A function adds at most one. Its tokens pay for what is inside. -/
theorem costs_functionLiteral (h : Frugal expr) :
    Costs Reader.Inside (fun _ => 1) (functionLiteral expr) := by
  refine .current fun start => .require Kind.noConfusion ?_ (.pure (by decide))
  refine costs_parameters.anywhere.bind fun params => ?_
  cases params with
  | none => exact .pure (by decide)
  | some params =>
      refine .require Kind.noConfusion ((costs_block h).bind fun body => ?_) (.pure (by decide))
      exact (Costs.originFrom start).bind fun _ => .pure (by decide)

theorem costs_arrayLiteral (h : Frugal expr) :
    Costs Reader.Inside (fun _ => 1) (arrayLiteral expr) := by
  refine .current fun start => (costs_expressionList h Kind.noConfusion).bind fun elements => ?_
  cases elements with
  | none => exact .pure (by decide)
  | some elements => exact (Costs.originFrom start).bind fun _ => .pure (by decide)

theorem costs_hashLiteral (h : Frugal expr) :
    Costs Reader.Inside (fun _ => 1) (hashLiteral expr) := by
  refine .current fun start => .rounds fun n => (costs_hashPairs h _).bind fun pairs => ?_
  cases pairs with
  | none => exact .pure (by decide)
  | some pairs =>
      refine .require Kind.noConfusion ?_ (.pure (by simp [pairsCost]))
      exact (Costs.originFrom start).bind fun _ => .pure (by simp [pairsCost])

/-- An operand adds at most one, whichever it is. -/
theorem costs_operand (h : Frugal expr) (t : Token) :
    ∀ p ∈ operand expr t, Costs Reader.Inside (fun _ => 1) p := by
  have hsome {q : Parse Expr} (hq : Costs Reader.Inside (fun _ => 1) q) :
      ∀ p ∈ some q, Costs Reader.Inside (fun _ => 1) p := by
    rintro _ ⟨⟩
    exact hq
  unfold operand
  generalize t.kind = k
  cases k with
  | ident => exact hsome (.pure (by decide))
  | int => exact hsome (costs_integer t)
  | str => exact hsome (.pure (by decide))
  | trueWord => exact hsome (.pure (by decide))
  | falseWord => exact hsome (.pure (by decide))
  | bang => exact hsome (costs_unaryExpression h .not)
  | minus => exact hsome (costs_unaryExpression h .neg)
  | lparen => exact hsome (costs_grouped h)
  | ifWord => exact hsome (costs_conditional h)
  | fnWord => exact hsome (costs_functionLiteral h)
  | lbracket => exact hsome (costs_arrayLiteral h)
  | lbrace => exact hsome (costs_hashLiteral h)
  | _ => exact nofun

/-- An operation adds at most one: its operator pays for the right operand. -/
theorem costs_operation (h : Frugal expr) (t : Token) (left : Expr) :
    Costs Reader.Inside (fun _ => 1) (operation expr t left) := by
  unfold operation
  split
  · refine (costs_expressionList h Kind.noConfusion).bind fun args => ?_
    cases args with
    | none => exact .pure (by decide)
    | some args => exact (Costs.originAfter left t).bind fun _ => .pure (by decide)
  · refine .advance (h.lowest.bind fun index => .require Kind.noConfusion ?_ (.pure (by decide)))
    exact (Costs.originAfter left t).bind fun _ => .pure (by decide)
  · refine .advance ((h _ (lowest_le_precedence _)).bind fun right => ?_)
    exact (Costs.originAfter left t).bind fun _ => .pure (by decide)

/-- The token of an operator pays for its operation. -/
theorem costs_operations (h : Frugal expr) {above : Precedence} (habove : Precedence.lowest ≤ above)
    (n : Nat) (left : Expr) : Costs Anywhere (fun _ => 0) (operations expr above n left) := by
  induction n generalizing left with
  | zero => exact .pure (by decide)
  | succ n ih =>
      refine .upcoming fun t => .ite (fun ht => ?_) fun _ => .pure (by decide)
      have hbinds : t.kind ≠ .eof := by
        intro heof
        rw [heof] at ht
        exact absurd ht (Nat.not_lt.mpr habove)
      refine .advanceTo hbinds ((costs_operation h t left).bind fun left' => ?_)
      exact (ih left').mono (fun _ _ hr => hr) fun _ => by decide

end Rules

/-! ## Expressions and programs -/

theorem costs_missingOperand : Costs P (fun _ => 1) missingOperand :=
  .current fun _ => .note _ (.pure (by decide))

/-- Whatever is wrong in an expression, it adds at most one. -/
theorem frugal_expression (n : Nat) : Frugal (expression n) := by
  induction n with
  | zero => exact fun _ _ => costs_missingOperand
  | succ n ih =>
      intro above habove
      refine .currentInside (fun t _ => ?_) fun t ht => ?_
      · have hoperand := costs_operand ih t
        revert hoperand
        cases operand (expression n) t with
        | none => exact fun _ => costs_missingOperand
        | some first =>
            intro hoperand
            refine .rounds fun k => (hoperand first rfl).bind fun left => ?_
            exact (costs_operations ih habove k left).mono (fun _ _ hr => hr) fun _ => by decide
      · have hnone : operand (expression n) t = none := by
          rw [operand, ht]
        rw [hnone]
        exact costs_missingOperand

/-- A program adds at most one more problem than it has tokens. -/
theorem costs_program : Costs Anywhere (fun _ => 1) program := by
  refine .rounds fun _ => .current fun start => .rounds fun n => ?_
  refine (costs_statementsUntil (frugal_expression _) none n).bind fun statements => ?_
  exact .current fun last => .pure (by decide)

end Parse

/-! ## Sources -/

/-- A source has no more problems than tokens. -/
theorem length_problems_le (source : Text) :
    (parse source).problems.length ≤ (tokenize source).length := by
  obtain ⟨inner, eof, htokens⟩ := tokenize_concat source
  have hstart : Reader.ofTokens (tokenize source) = ⟨inner, eof, []⟩ := by
    rw [htokens, Reader.ofTokens_concat]
  have hload := Parse.costs_program.load _ (sane_ofTokens source).1 trivial
  have hproblems : (parse source).problems
      = (program.run (.ofTokens (tokenize source))).2.problems := rfl
  rw [hstart] at hload hproblems
  rw [hproblems, htokens, List.length_append, List.length_singleton]
  unfold Reader.load at hload
  simp only [List.length_nil] at hload
  omega

/-- **Reading ends, and problems do not cascade.** Whatever the source, there is no limit to what it
takes but the number of its tokens: within any limit that is not below that, reading is not cut, and
it ends at the end token of the source with the program and the problems of the bounded reading.
There are no more diagnostics than tokens, of which the end token is one. -/
theorem reading_ends_with_few_problems (source : Text) :
    (∃ r : Reader,
      (∀ limit, (tokenize source).length ≤ limit →
        (Limited.program limit).run (.ofTokens (tokenize source))
          = some ((parse source).program, r)) ∧
      r.problems = (parse source).problems ∧ r.tokens = [] ∧ r.current.kind = .eof ∧
      (tokenize source).getLast? = some r.current) ∧
    (parse source).diagnostics.length ≤ (tokenize source).length := by
  obtain ⟨hs, -, -⟩ := sane_ofTokens source
  obtain ⟨inner, eof, htokens⟩ := tokenize_concat source
  have hcurrent := Limited.current_program hs
  have hlength : (Reader.ofTokens (tokenize source)).tokens.length < (tokenize source).length := by
    rw [htokens, Reader.ofTokens_concat, List.length_append]
    exact Nat.lt_succ_self _
  refine ⟨⟨(program.run (.ofTokens (tokenize source))).2, fun limit hlimit => ?_, rfl, ?_, ?_, ?_⟩,
    ?_⟩
  · exact (Limited.ends_program (Nat.lt_of_lt_of_le hlength hlimit)).run _ hs (Nat.le_refl _)
  · exact Limited.tokens_program hs
  · rw [hcurrent]
    exact hs.eof
  · rw [hcurrent, htokens, List.getLast?_concat, Reader.ofTokens_concat]
  · rw [Parsed.diagnostics, List.length_map]
    exact length_problems_le source

/-- Three tokens and as many problems: there is no operand after the second parenthesis, and neither
of the two is closed. -/
theorem reading_ends_with_few_problems_unclosed :
    (tokenize (text "((")).length ≤ 3 ∧
    (∃ r : Reader, (Limited.program 3).run (.ofTokens (tokenize (text "((")))
      = some ((parse (text "((")).program, r) ∧ r.tokens = []) ∧
    (parse (text "((")).diagnostics.length = (tokenize (text "((")).length := by
  have hlength : (tokenize (text "((")).length ≤ 3 := by
    decide +kernel
  obtain ⟨⟨r, hrun, -, hend, -⟩, -⟩ := reading_ends_with_few_problems (text "((")
  exact ⟨hlength, ⟨r, hrun 3 hlength, hend⟩, by decide +kernel⟩

end Monkey
