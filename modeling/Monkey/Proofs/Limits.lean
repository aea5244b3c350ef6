import Monkey.Proofs.Transfer

/-!
# Reading within limits

The rules of the grammar are given numbers, of rounds and of nested expressions, and so they end by
definition: a loop that has used up its rounds stops, as if a token had stopped it. Here the rules
are given a limit and keep the two apart. A round or a nested expression beyond the limit cuts the
reading, and then it yields nothing. What is read without being cut is what the rules say, with no
limit at all; a reading that went on forever would be cut at every limit.

None does. A reading is not cut if its limit is greater than the number of tokens, and it comes to
the end of the bounded one (`Limited.ends_program`). What sinks is the number of tokens left: an
expression inside another starts at a later token, a round of a loop passes one, and at the end
token, which can be passed any number of times, no loop goes on and no expression starts. A program
is read up to that token (`Limited.tokens_program`).
-/

namespace Monkey

/-- A reading within a limit: it yields nothing when it is cut. -/
abbrev Limited := ReaderT Nat (StateT Reader Option)

namespace Limited

open Parse

/-- What reads without a loop needs no limit. -/
instance : MonadLift Parse Limited :=
  ⟨fun p _ r => some (p.run r)⟩

/-- The limit is reached. -/
def cut {α : Type} : Limited α :=
  fun _ _ => none

/-- The limit says how many rounds a loop is given, and a loop that needs another one is cut. -/
instance : Bounded Limited :=
  ⟨read, fun _ => cut⟩

/-- An expression whose operators bind tighter than a precedence, cut if there are `n` expressions
around it. -/
def expression : Nat → Precedence → Limited Expr
  | 0, _ => cut
  | n + 1, above => climb (expression n) above

/-- A program, with a limit on the rounds of each loop and on the expressions inside one another. -/
def program (limit : Nat) : StateT Reader Option Program :=
  (programOver (expression limit)).run limit

/-! ## Bounded readings come to the same end -/

variable {α β : Type} {limit n m : Nat}

/-- With at most `n` tokens left, a reading within a limit is not cut and comes to the end of a
bounded one. -/
structure Ends (limit n : Nat) (p : Parse α) (q : Limited α) : Prop where
  moves : Moves p
  run (r : Reader) : r.Sane → r.tokens.length ≤ n → (q.run limit).run r = some (p.run r)

namespace Ends

/-- What ends with some number of tokens left ends with fewer. -/
theorem mono {p : Parse α} {q : Limited α} (h : Ends limit n p q) (hle : m ≤ n) :
    Ends limit m p q :=
  ⟨h.moves, fun r hr hlength => h.run r hr (Nat.le_trans hlength hle)⟩

theorem pure (a : α) : Ends limit n (pure a) (pure a) :=
  ⟨.pure a, fun _ _ _ => rfl⟩

/-- A reading without a loop is never cut. -/
theorem lift {p : Parse α} (hp : Moves p) : Ends limit n p (liftM p) :=
  ⟨hp, fun _ _ _ => rfl⟩

/-- The second part begins with no more tokens than the first, so the bound is kept. -/
theorem bind {p : Parse α} {q : Limited α} {f : α → Parse β} {g : α → Limited β}
    (hp : Ends limit n p q) (hf : ∀ a, Ends limit n (f a) (g a)) :
    Ends limit n (p >>= f) (q >>= g) := by
  refine ⟨.bind hp.moves fun a => (hf a).moves, fun r hr hlength => ?_⟩
  have honward := hp.moves r
  rw [ReaderT.run_bind, StateT.run_bind, hp.run r hr hlength]
  -- the first reading moved onward, so the reader stays sane and has no more tokens
  exact (hf _).run _ (hr.onward honward) (Nat.le_trans honward.tokens.length_le hlength)

theorem ite {c : Prop} [Decidable c] {p p' : Parse α} {q q' : Limited α} (hp : Ends limit n p q)
    (hp' : Ends limit n p' q') : Ends limit n (if c then p else p') (if c then q else q') := by
  by_cases hc : c
  · rw [if_pos hc, if_pos hc]
    exact hp
  · rw [if_neg hc, if_neg hc]
    exact hp'

/-- A token that is passed is one less that is left. -/
theorem advance {p : Parse α} {q : Limited α} (h : Ends limit (n - 1) p q) :
    Ends limit n (Parse.advance >>= fun _ => p) (liftM Parse.advance >>= fun _ => q) := by
  refine ⟨.bind .advance fun _ => h.moves, fun r hr hlength => ?_⟩
  have hshorter : r.advance.tokens.length ≤ n - 1 := by
    show r.tokens.tail.length ≤ n - 1
    rw [List.length_tail]
    exact Nat.sub_le_sub_right hlength 1
  exact h.run r.advance hr.advance hshorter

/-- A token that must come next: with it there is one token less. -/
theorem requireNext {k : Kind} (hk : k ≠ .eof) {p p' : Parse α} {q q' : Limited α}
    (hp : ∀ m, n = m + 1 → Ends limit m p q) (hmoves : Moves p) (hp' : Ends limit n p' q') :
    Ends limit n (expect k >>= fun there => if there = true then p else p')
      (liftM (expect k) >>= fun there => if there = true then q else q') := by
  refine ⟨.require k hmoves hp'.moves, fun r hr hlength => ?_⟩
  show (ReaderT.run (if ((expect k).run r).1 = true then q else q') limit).run ((expect k).run r).2
    = some (StateT.run (if ((expect k).run r).1 = true then p else p') ((expect k).run r).2)
  rw [run_expect]
  by_cases hupcoming : r.upcoming.kind = k
  · have hshorter := hr.length_advance_lt (hupcoming ▸ hk)
    obtain ⟨m, rfl⟩ : ∃ m, n = m + 1 := ⟨n - 1, by omega⟩
    rw [if_pos hupcoming]
    exact (hp m rfl).run r.advance hr.advance (by omega)
  · rw [if_neg hupcoming]
    exact hp'.run _ (hr.onward (.note r _)) hlength

/-- A token that must come next, where the bound is known to sink. -/
theorem require {k : Kind} (hk : k ≠ .eof) {p p' : Parse α} {q q' : Limited α}
    (hp : Ends limit (n - 1) p q) (hp' : Ends limit n p' q') :
    Ends limit n (expect k >>= fun there => if there = true then p else p')
      (liftM (expect k) >>= fun there => if there = true then q else q') :=
  requireNext hk (fun _ hm => hp.mono (by omega)) hp.moves hp'

/-- There are no more tokens left than the rounds that are given for them. -/
theorem counted {f : Nat → Parse α} {q : Limited α} (hf : ∀ k, Ends limit (min n k) (f k) q) :
    Ends limit n (Bounded.rounds >>= f) q :=
  ⟨.bind .rounds fun k => (hf k).moves, fun r hr hlength =>
    (hf r.tokens.length).run r hr (Nat.le_min.mpr ⟨hlength, Nat.le_refl _⟩)⟩

/-- A loop is given as many rounds as there are tokens, or as the limit says. -/
theorem rounds {f : Nat → Parse α} {g : Nat → Limited α}
    (hf : ∀ k, Ends limit (min n k) (f k) (g limit)) :
    Ends limit n (Bounded.rounds >>= f) (Bounded.rounds >>= g) :=
  counted fun k => ⟨(hf k).moves, (hf k).run⟩

/-- Readings at the end of the tokens need only be known there. -/
theorem atEnd {p o : Parse α} {q : Limited α} (hmoves : Moves p)
    (hp : ∀ r : Reader, r.Sane → r.tokens = [] → p.run r = o.run r)
    (hq : ∀ r : Reader, r.Sane → r.tokens = [] → (q.run limit).run r = some (o.run r)) :
    Ends limit 0 p q := by
  refine ⟨hmoves, fun r hr hlength => ?_⟩
  have hend : r.tokens = [] := List.eq_nil_of_length_eq_zero (Nat.le_zero.mp hlength)
  rw [hp r hr hend, hq r hr hend]

end Ends

section Rules

variable {expr : Precedence → Parse Expr} {expr' : Precedence → Limited Expr}

/-- The rules for expressions inside a rule come to the same end, at every precedence that an end
token does not exceed. -/
structure Knows (limit n : Nat) (expr : Precedence → Parse Expr)
    (expr' : Precedence → Limited Expr) : Prop where
  moves (above : Precedence) : Moves (expr above)
  ends (above : Precedence) : Precedence.lowest ≤ above → Ends limit n (expr above) (expr' above)

/-- Expressions inside a rule that are known with some number of tokens left are known with
fewer. -/
theorem Knows.mono (h : Knows limit n expr expr') (hle : m ≤ n) : Knows limit m expr expr' :=
  ⟨h.moves, fun above habove => (h.ends above habove).mono hle⟩

theorem Knows.lowest (h : Knows limit n expr expr') (hle : m ≤ n) :
    Ends limit m (expr .lowest) (expr' .lowest) :=
  (h.ends _ (Nat.le_refl _)).mono hle

/-- Nothing in a let statement is repeated, so only its value can be cut. -/
theorem ends_letStatement (h : Knows limit n expr expr') :
    Ends limit n (letStatement expr) (letStatement expr') := by
  refine (Ends.lift .current).bind fun start => .require Kind.noConfusion ?_ (.pure none)
  refine (Ends.lift .current).bind fun name => .require Kind.noConfusion ?_ (.pure none)
  refine .advance ((h.lowest (by omega)).bind fun value => (Ends.lift (.skip _)).bind fun _ => ?_)
  exact (Ends.lift (.originFrom start)).bind fun origin => .pure _

/-- Nothing in a return statement is repeated. -/
theorem ends_returnStatement (h : Knows limit n expr expr') :
    Ends limit n (returnStatement expr) (returnStatement expr') := by
  refine (Ends.lift .current).bind fun start => (Ends.lift .upcoming).bind fun next => ?_
  have hlast (value : Expr) : Ends limit n
      (do
        skip .semicolon
        return Stmt.ret (← originFrom start) value)
      (do
        skip .semicolon
        return Stmt.ret (← originFrom start) value) :=
    (Ends.lift (.skip _)).bind fun _ => (Ends.lift (.originFrom start)).bind fun _ => .pure _
  refine .ite (hlast .absent) ?_
  exact .advance ((h.lowest (by omega)).bind fun value => (hlast value).mono (by omega))

theorem ends_expressionStatement (h : Knows limit n expr expr') :
    Ends limit n (expressionStatement expr) (expressionStatement expr') := by
  refine (Ends.lift .current).bind fun start => (h.lowest (Nat.le_refl n)).bind fun value => ?_
  exact (Ends.lift (.skip _)).bind fun _ => (Ends.lift (.originFrom start)).bind fun _ => .pure _

/-- A statement comes to the same end, whichever rule its first token asks for. -/
theorem ends_statement (h : Knows limit n expr expr') :
    Ends limit n (statement expr) (statement expr') := by
  refine (Ends.lift .current).bind fun t => ?_
  generalize t.kind = k
  cases k with
  | letWord => exact ends_letStatement h
  | returnWord => exact (ends_returnStatement h).bind fun s => .pure (some s)
  | _ => exact (ends_expressionStatement h).bind fun s => .pure (some s)

/-- Statements one after the other: each passes a token, so the rounds suffice. The induction is on
the tokens left. -/
theorem ends_statementsUntil (closing : Option Kind) (h : Knows limit n expr expr') {k k' : Nat}
    (hk : n ≤ k) (hk' : n < k') :
    Ends limit n (statementsUntil expr closing k) (statementsUntil expr' closing k') := by
  induction n generalizing k k' with
  -- no token is left: both loops see the end token, and stop
  | zero =>
      obtain ⟨k', rfl⟩ : ∃ j, k' = j + 1 := ⟨k' - 1, by omega⟩
      refine .atEnd (o := pure []) (moves_statementsUntil h.moves closing k) ?_ fun r hr hend => ?_
      · exact fun r hr hend => run_statementsUntil_nil closing k hr hend
      · show ((ite (r.current.kind = .eof ∨ some r.current.kind = closing) _ _ :
          Limited _).run limit).run r = _
        rw [if_pos (.inl (kind_current_nil hr hend))]
        rfl
  | succ n ih =>
      obtain ⟨k, rfl⟩ : ∃ j, k = j + 1 := ⟨k - 1, by omega⟩
      obtain ⟨k', rfl⟩ : ∃ j, k' = j + 1 := ⟨k' - 1, by omega⟩
      refine (Ends.lift .current).bind fun t => .ite (.pure []) ?_
      refine (ends_statement h).bind fun first => .advance ?_
      exact (ih (h.mono (Nat.le_succ n)) (by omega) (by omega)).bind fun rest => .pure _

/-- A block passes its brace before the first statement, and there is the limit for the rest. -/
theorem ends_block (h : Knows limit (n - 1) expr expr') (hn : n < limit) :
    Ends limit n (block expr) (block expr') := by
  refine (Ends.lift .current).bind fun start => .advance (.rounds fun k => ?_)
  -- the rounds are those of the tokens after the brace
  have hlimit : min (n - 1) k < limit := by omega
  have hstatements := ends_statementsUntil (some .rbrace) (h.mono (Nat.min_le_left _ k))
    (Nat.min_le_right _ _) hlimit
  refine hstatements.bind fun statements => (Ends.lift .current).bind fun last => ?_
  have hlast : Ends limit (min (n - 1) k)
      (do return Block.of (← originFrom start) statements)
      (do return Block.of (← originFrom start) statements) :=
    (Ends.lift (.originFrom start)).bind fun _ => .pure _
  exact .ite ((Ends.lift (.note _)).bind fun _ => hlast) hlast

/-- Expressions after commas: each round passes a comma. The induction is on the tokens left. -/
theorem ends_moreExpressions (h : Knows limit n expr expr') {k k' : Nat} (hk : n ≤ k)
    (hk' : n < k') :
    Ends limit n (moreExpressions expr k) (moreExpressions expr' k') := by
  induction n generalizing k k' with
  | zero =>
      obtain ⟨k', rfl⟩ : ∃ j, k' = j + 1 := ⟨k' - 1, by omega⟩
      refine .atEnd (o := pure []) (moves_moreExpressions h.moves k) ?_ fun r hr hend => ?_
      · exact fun r hr hend => run_moreExpressions_nil k hr hend
      · show ((ite (r.upcoming.kind = .comma) _ _ : Limited _).run limit).run r = _
        rw [kind_upcoming_nil hr hend]
        rfl
  | succ n ih =>
      obtain ⟨k, rfl⟩ : ∃ j, k = j + 1 := ⟨k - 1, by omega⟩
      obtain ⟨k', rfl⟩ : ∃ j, k' = j + 1 := ⟨k' - 1, by omega⟩
      refine (Ends.lift .upcoming).bind fun t => .ite ?_ (.pure [])
      -- the comma is one token less, and so is the token before it
      refine .advance (.advance ((h.lowest (by omega)).bind fun first => ?_))
      have hrest := ih (h.mono (Nat.le_succ n)) (Nat.le_of_succ_le_succ hk)
        (Nat.lt_of_succ_lt_succ hk')
      exact (hrest.mono (by omega)).bind fun rest => .pure (first :: rest)

/-- A list of expressions is not cut inside the limit. -/
theorem ends_expressionList (closing : Kind) (hclosing : closing ≠ .eof)
    (h : Knows limit (n - 1) expr expr') (hn : n < limit) :
    Ends limit n (expressionList expr closing) (expressionList expr' closing) := by
  refine (Ends.lift .upcoming).bind fun t => .ite (.advance (.pure (some []))) (.advance ?_)
  refine (h.lowest (Nat.le_refl _)).bind fun first => .rounds fun k => ?_
  have hlimit : min (n - 1) k < limit := by omega
  have hmore := ends_moreExpressions (h.mono (Nat.min_le_left _ k)) (Nat.min_le_right _ _) hlimit
  refine hmore.bind fun rest => ?_
  exact .require hclosing (.pure (some (first :: rest))) (.pure none)

/-- Parameters after commas: each round passes a comma. The induction is on the tokens left. -/
theorem ends_moreParameters {k k' : Nat} (hk : n ≤ k) (hk' : n < k') :
    Ends limit n (moreParameters k) (moreParameters k') := by
  induction n generalizing k k' with
  | zero =>
      obtain ⟨k', rfl⟩ : ∃ j, k' = j + 1 := ⟨k' - 1, by omega⟩
      refine .atEnd (o := pure (some [])) (moves_moreParameters k) ?_ fun r hr hend => ?_
      · exact fun r hr hend => run_moreParameters_nil k hr hend
      · show ((ite (r.upcoming.kind = .comma) _ _ : Limited _).run limit).run r = _
        rw [kind_upcoming_nil hr hend]
        rfl
  | succ n ih =>
      obtain ⟨k, rfl⟩ : ∃ j, k = j + 1 := ⟨k - 1, by omega⟩
      obtain ⟨k', rfl⟩ : ∃ j, k' = j + 1 := ⟨k' - 1, by omega⟩
      refine (Ends.lift .upcoming).bind fun t => .ite (.advance ?_) (.pure (some []))
      refine .require Kind.noConfusion ((Ends.lift .current).bind fun name => ?_) (.pure none)
      have hrest := ih (Nat.le_of_succ_le_succ hk) (Nat.lt_of_succ_lt_succ hk')
      refine (hrest.mono (by omega)).bind fun rest => ?_
      cases rest <;> exact .pure _

theorem ends_parameters (hn : n < limit) : Ends limit n parameters parameters := by
  refine (Ends.lift .upcoming).bind fun t => .ite (.advance (.pure (some []))) ?_
  refine .require Kind.noConfusion ((Ends.lift .current).bind fun name => ?_) (.pure none)
  refine .rounds fun k => ?_
  refine (ends_moreParameters (Nat.min_le_right _ _) (by omega)).bind fun rest => ?_
  cases rest with
  | none => exact .pure none
  | some rest => exact .require Kind.noConfusion (.pure _) (.pure none)

/-- Pairs after a comma are read as those before it. -/
theorem ends_morePairs {k k' : Nat} (h : Ends limit n (hashPairs expr k) (hashPairs expr' k'))
    (key value : Expr) : Ends limit n
      (do
        match ← Monkey.hashPairs expr k with
        | some rest => return some ((key, value) :: rest)
        | none => return none)
      (do
        match ← hashPairs expr' k' with
        | some rest => return some ((key, value) :: rest)
        | none => return none) := by
  refine h.bind fun rest => ?_
  cases rest <;> exact .pure _

/-- Each key is followed by a colon, so there are fewer tokens left for the pairs after it. -/
theorem ends_hashPairs {k k' : Nat} (h : Knows limit (n - 1) expr expr') (hk : n < k)
    (hk' : n < k') :
    Ends limit n (hashPairs expr k) (hashPairs expr' k') := by
  induction k generalizing n k' with
  | zero => exact absurd hk (Nat.not_lt_zero n)
  | succ k ih =>
      obtain ⟨k', rfl⟩ : ∃ j, k' = j + 1 := ⟨k' - 1, by omega⟩
      refine (Ends.lift .upcoming).bind fun t => .ite (.pure (some [])) (.advance ?_)
      refine (h.lowest (by omega)).bind fun key => ?_
      have hpairs {j : Nat} (hj : j < n) : Ends limit j (hashPairs expr k) (hashPairs expr' k') :=
        ih (h.mono (by omega)) (by omega) (by omega)
      have hmoves (value : Expr) := moves_morePairs h.moves k key value
      refine .requireNext Kind.noConfusion (fun j hj => .advance ?_) ?_ (.pure none)
      · refine (h.lowest (by omega)).bind fun value => (Ends.lift .upcoming).bind fun next => ?_
        refine .ite (.requireNext Kind.noConfusion (fun i hi => ?_) (hmoves value) (.pure none)) ?_
        · exact ends_morePairs (hpairs (by omega)) key value
        · exact ends_morePairs (hpairs (by omega)) key value
      · refine .bind .advance fun _ => .bind (h.moves _) fun value => .bind .upcoming fun next => ?_
        exact .ite (.require _ (hmoves value) (.pure none)) (hmoves value)

/-- The operand of a prefix operator starts one token later. -/
theorem ends_unaryExpression (op : UnaryOp) (h : Knows limit (n - 1) expr expr') :
    Ends limit n (unaryExpression expr op) (unaryExpression expr' op) := by
  refine (Ends.lift .current).bind fun start => .advance ?_
  refine (h.ends .unary (Nat.le_add_left 1 5)).bind fun operand => ?_
  exact (Ends.lift (.originFrom start)).bind fun _ => .pure _

/-- What is in parentheses starts one token later. -/
theorem ends_grouped (h : Knows limit (n - 1) expr expr') :
    Ends limit n (grouped expr) (grouped expr') := by
  refine .advance ((h.lowest (Nat.le_refl _)).bind fun inner => ?_)
  exact .require Kind.noConfusion (.pure inner) (.pure Expr.absent)

/-- The parts of a conditional start later than its keyword. -/
theorem ends_conditional (h : Knows limit (n - 1) expr expr') (hn : n < limit) :
    Ends limit n (conditional expr) (conditional expr') := by
  refine (Ends.lift .current).bind fun start =>
    .require Kind.noConfusion (.advance ?_) (.pure Expr.absent)
  refine (h.lowest (by omega)).bind fun test => ?_
  refine .require Kind.noConfusion (.require Kind.noConfusion ?_ (.pure Expr.absent))
    (.pure Expr.absent)
  refine (ends_block (h.mono (by omega)) (by omega)).bind fun consequence => ?_
  refine (Ends.lift .upcoming).bind fun next => .ite (.advance ?_) ?_
  · refine .require Kind.noConfusion ?_ (.pure Expr.absent)
    refine (ends_block (h.mono (by omega)) (by omega)).bind fun alternative => ?_
    exact (Ends.lift (.originFrom start)).bind fun _ => .pure _
  · exact (Ends.lift (.originFrom start)).bind fun _ => .pure _

/-- Parameters and body of a function start later than its keyword. -/
theorem ends_functionLiteral (h : Knows limit (n - 1) expr expr') (hn : n < limit) :
    Ends limit n (functionLiteral expr) (functionLiteral expr') := by
  refine (Ends.lift .current).bind fun start => .require Kind.noConfusion ?_ (.pure Expr.absent)
  refine (ends_parameters (by omega)).bind fun params => ?_
  cases params with
  | none => exact .pure Expr.absent
  | some params =>
      refine .require Kind.noConfusion ?_ (.pure Expr.absent)
      refine (ends_block (h.mono (by omega)) (by omega)).bind fun body => ?_
      exact (Ends.lift (.originFrom start)).bind fun _ => .pure _

theorem ends_arrayLiteral (h : Knows limit (n - 1) expr expr') (hn : n < limit) :
    Ends limit n (arrayLiteral expr) (arrayLiteral expr') := by
  refine (Ends.lift .current).bind fun start => ?_
  refine (ends_expressionList _ Kind.noConfusion h hn).bind fun elements => ?_
  cases elements with
  | none => exact .pure Expr.absent
  | some elements => exact (Ends.lift (.originFrom start)).bind fun _ => .pure _

theorem ends_hashLiteral (h : Knows limit (n - 1) expr expr') (hn : n < limit) :
    Ends limit n (hashLiteral expr) (hashLiteral expr') := by
  refine (Ends.lift .current).bind fun start => .rounds fun k => ?_
  have hle : min n k ≤ k := Nat.min_le_right n k
  have hknows : Knows limit (min n k - 1) expr expr' :=
    h.mono (Nat.sub_le_sub_right (Nat.min_le_left n k) 1)
  refine (ends_hashPairs hknows (by omega) (by omega)).bind fun pairs => ?_
  cases pairs with
  | none => exact .pure Expr.absent
  | some pairs =>
      refine .require Kind.noConfusion ?_ (.pure Expr.absent)
      exact (Ends.lift (.originFrom start)).bind fun _ => .pure _

/-- The same tokens start an operand in both readings, and it comes to the same end. -/
theorem ends_operand (h : Knows limit (n - 1) expr expr') (hn : n < limit) (t : Token) :
    Option.Rel (Ends limit n) (operand expr t) (operand expr' t) := by
  unfold operand
  generalize t.kind = k
  cases k with
  | ident => exact .some (.pure _)
  | int => exact .some (.lift (moves_integer t))
  | str => exact .some (.pure _)
  | trueWord => exact .some (.pure _)
  | falseWord => exact .some (.pure _)
  | bang => exact .some (ends_unaryExpression .not h)
  | minus => exact .some (ends_unaryExpression .neg h)
  | lparen => exact .some (ends_grouped h)
  | ifWord => exact .some (ends_conditional h hn)
  | fnWord => exact .some (ends_functionLiteral h hn)
  | lbracket => exact .some (ends_arrayLiteral h hn)
  | lbrace => exact .some (ends_hashLiteral h hn)
  | _ => exact .none

/-- What follows an operator starts later than the operator. -/
theorem ends_operation (h : Knows limit (n - 1) expr expr') (hn : n < limit) (t : Token)
    (left : Expr) :
    Ends limit n (operation expr t left) (operation expr' t left) := by
  have hbinary (k : Kind) : Ends limit n
      (do
        advance
        let right ← expr k.precedence
        return Expr.binary (← originAfter left t) (.ofToken t) left right)
      (do
        advance
        let right ← expr' k.precedence
        return Expr.binary (← originAfter left t) (.ofToken t) left right) := by
    refine .advance ((h.ends _ (lowest_le_precedence _)).bind fun right => ?_)
    exact (Ends.lift (.originAfter left t)).bind fun _ => .pure _
  unfold operation
  generalize t.kind = k
  -- calls and index expressions end in a token of their own; the others end with their operand
  cases k with
  | lparen =>
      refine (ends_expressionList _ Kind.noConfusion h hn).bind fun args => ?_
      cases args with
      | none => exact .pure Expr.absent
      | some args => exact (Ends.lift (.originAfter left t)).bind fun _ => .pure _
  | lbracket =>
      refine .advance ((h.lowest (Nat.le_refl _)).bind fun index => ?_)
      refine .require Kind.noConfusion ?_ (.pure Expr.absent)
      exact (Ends.lift (.originAfter left t)).bind fun _ => .pure _
  | _ => exact hbinary _

/-- Operators one after the other: each round passes one. The induction is on the tokens left; at
the end token no operator binds tighter than the lowest precedence. -/
theorem ends_operations {above : Precedence} (habove : Precedence.lowest ≤ above)
    (h : Knows limit (n - 1) expr expr') (hn : n < limit) {k k' : Nat} (hk : n ≤ k) (hk' : n < k')
    (left : Expr) :
    Ends limit n (operations expr above k left) (operations expr' above k' left) := by
  induction n generalizing k k' left with
  | zero =>
      obtain ⟨k', rfl⟩ : ∃ j, k' = j + 1 := ⟨k' - 1, by omega⟩
      refine .atEnd (o := pure left) (moves_operations h.moves above k left) ?_ fun r hr hend => ?_
      · exact fun r hr hend => run_operations_nil habove k left hr hend
      · have hloose : ¬ above < Kind.eof.precedence := Nat.not_lt.mpr habove
        show ((ite (above < r.upcoming.kind.precedence) _ _ : Limited _).run limit).run r = _
        rw [kind_upcoming_nil hr hend, if_neg hloose]
        rfl
  | succ n ih =>
      obtain ⟨k, rfl⟩ : ∃ j, k = j + 1 := ⟨k - 1, by omega⟩
      obtain ⟨k', rfl⟩ : ∃ j, k' = j + 1 := ⟨k' - 1, by omega⟩
      refine (Ends.lift .upcoming).bind fun t => .ite (.advance ?_) (.pure left)
      refine (ends_operation (h.mono (by omega)) (by omega) t left).bind fun left' => ?_
      exact ih (h.mono (by omega)) (by omega) (by omega) (by omega) left'

end Rules

/-! ## Expressions and programs -/

/-- What needs no limit is read at once. -/
theorem run_liftM_bind (p : Parse α) (g : α → Limited β) (limit : Nat) (r : Reader) :
    ((liftM p >>= g).run limit).run r = ((g (p.run r).1).run limit).run (p.run r).2 :=
  rfl

/-- At the end no expression starts. -/
theorem run_expression_nil (limit k : Nat) (above : Precedence) {r : Reader} (hr : r.Sane)
    (hend : r.tokens = []) :
    ((expression (k + 1) above).run limit).run r = some (missingOperand.run r) := by
  have hnone : operand (expression k) (current.run r).1 = none := by
    have hkind : (current.run r).1.kind = .eof := kind_current_nil hr hend
    rw [operand, hkind]
  rw [expression, climb, run_liftM_bind, hnone]
  rfl

/-- Expressions come to the same end, however many may be inside one another, if these are as many
as there are tokens. The induction is on the tokens: an expression inside another starts at a later
one. -/
theorem knows_expression {limit k k' : Nat} (hlimit : n < limit) (hk : n ≤ k) (hk' : n < k') :
    Knows limit n (Monkey.expression k) (expression k') := by
  refine ⟨moves_expression k, fun above habove => ?_⟩
  induction n generalizing k k' above with
  | zero =>
      obtain ⟨k', rfl⟩ : ∃ j, k' = j + 1 := ⟨k' - 1, by omega⟩
      refine .atEnd (o := missingOperand) (moves_expression k above) ?_ ?_
      · exact fun r hr hend => Parse.run_expression_nil k above hr hend
      · exact fun r hr hend => run_expression_nil limit k' above hr hend
  | succ n ih =>
      obtain ⟨k, rfl⟩ : ∃ j, k = j + 1 := ⟨k - 1, by omega⟩
      obtain ⟨k', rfl⟩ : ∃ j, k' = j + 1 := ⟨k' - 1, by omega⟩
      have hknows : Knows limit n (Monkey.expression k) (expression k') :=
        ⟨moves_expression k, fun q hq => ih (by omega) (by omega) (by omega) q hq⟩
      refine (Ends.lift .current).bind fun t => ?_
      have hoperand := ends_operand (n := n + 1) hknows hlimit t
      revert hoperand
      generalize operand (Monkey.expression k) t = p, operand (expression k') t = q
      rintro (⟨hfirst⟩ | _)
      · refine .rounds fun j => (hfirst.mono (Nat.min_le_left _ _)).bind fun left => ?_
        exact ends_operations habove (hknows.mono (by omega)) (by omega) (Nat.min_le_right _ _)
          (by omega) left
      · exact .lift moves_missingOperand

/-- A program is not cut, whatever its tokens are, if the limit is greater than their number. -/
theorem ends_program (hlimit : n < limit) :
    Ends limit n Monkey.program (programOver (expression limit)) := by
  refine .counted fun k => (Ends.lift .current).bind fun start => .rounds fun j => ?_
  have hmin : min (min n k) j < limit := by omega
  have hknows : Knows limit (min (min n k) j) (Monkey.expression (k + 1)) (expression limit) :=
    knows_expression hmin (by omega) hmin
  have hstatements := ends_statementsUntil none hknows (Nat.min_le_right _ j) hmin
  refine hstatements.bind fun statements => ?_
  exact (Ends.lift .current).bind fun last => .pure _

example : (program 2).run (.ofTokens (tokenize (text "((1))"))) = none := by
  decide +kernel

/-- Statements that nothing closes are read up to the end. -/
theorem tokens_statementsUntil_none {expr : Precedence → Parse Expr}
    (hmoves : ∀ above, Moves (expr above)) {k : Nat} {r : Reader} (hr : r.Sane)
    (hk : r.tokens.length ≤ k) : ((statementsUntil expr none k).run r).2.tokens = [] := by
  induction k generalizing r with
  | zero => exact List.eq_nil_of_length_eq_zero (Nat.le_zero.mp hk)
  | succ k ih =>
      by_cases hend : r.current.kind = .eof
      · have htokens : r.tokens = [] := List.map_eq_nil_iff.mp (hr.view_eq_nil hend)
        rw [run_statementsUntil_nil none _ hr htokens]
        exact htokens
      · have honward := moves_statement hmoves r
        have hshorter : ((statement expr).run r).2.advance.tokens.length ≤ k := by
          have hlength := honward.tokens.length_le
          show ((statement expr).run r).2.tokens.tail.length ≤ k
          rw [List.length_tail]
          omega
        rw [run_statementsUntil_succ hend rfl]
        exact ih (hr.onward honward).advance hshorter

/-- A program is read up to the end. -/
theorem tokens_program {r : Reader} (hr : r.Sane) : (Monkey.program.run r).2.tokens = [] :=
  tokens_statementsUntil_none (moves_expression _) hr (Nat.le_refl _)

/-- Reading a program stops at the end token. -/
theorem current_program {r : Reader} (hr : r.Sane) : (Monkey.program.run r).2.current = r.eof := by
  have honward := (ends_program (Nat.lt_succ_self 0)).moves r
  rw [Reader.current, tokens_program hr]
  exact honward.eof

end Limited

end Monkey
