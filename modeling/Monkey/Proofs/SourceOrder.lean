import Monkey.Proofs.Nesting

/-!
# Problems are noted in the order of the source

A problem is noted at the current token or at the one that comes next. A construct that misses what
comes next is given up without moving on, and each construct around it may miss something at that
same token. Still no problem is ever noted before an earlier one: a construct looks at the current
token only when it begins, and between the end of one construct and the beginning of the next the
reader moves on.

So two bounds on the problems noted so far take turns. Where a construct begins none of them stands
after the current token (`Reader.Begun`), and where it is done none stands after the next one
(`Reader.Done`). Moving on leads from the second to the first, and every rule of the grammar leads
from the first to the second, whether the source is well formed or not.
-/

namespace Monkey

/-- A problem is found at a token that starts no later than that of another. -/
def Problem.NotAfter (p q : Problem) : Prop :=
  p.token.span.start.offset ≤ q.token.span.start.offset

namespace Reader

/-- The problems noted so far stand in the order of the source, none of them after a token. -/
structure NotedUpTo (t : Token) (r : Reader) : Prop where
  placed : r.Placed
  ordered : r.problems.Pairwise Problem.NotAfter
  bound : ∀ p ∈ r.problems, p.token.span.start.offset ≤ t.span.start.offset

/-- No problem was noted after the current token. -/
def Begun (r : Reader) : Prop :=
  r.NotedUpTo r.current

/-- No problem was noted after the token that comes next. -/
def Done (r : Reader) : Prop :=
  r.NotedUpTo r.upcoming

variable {r : Reader}

/-- At the last token at which a problem may have been noted, another may be. -/
theorem NotedUpTo.note {p : Problem} (h : r.NotedUpTo p.token) : (r.note p).NotedUpTo p.token := by
  refine ⟨h.placed.onward (.note r p), List.pairwise_append.mpr ⟨h.ordered, ?_, ?_⟩, ?_⟩
  · exact List.pairwise_singleton _ _
  · intro q hq p' hp'
    obtain rfl := List.mem_singleton.mp hp'
    exact h.bound q hq
  · refine List.forall_mem_append.mpr ⟨h.bound, fun q hq => ?_⟩
    obtain rfl := List.mem_singleton.mp hq
    exact Int.le_refl _

/-- A problem at the current token stands after all that were noted where a construct begins. -/
theorem Begun.note (h : r.Begun) {p : Problem} (hp : p.token = r.current) : (r.note p).Begun := by
  have hnoted : (r.note p).NotedUpTo p.token := NotedUpTo.note (hp ▸ h)
  rw [hp] at hnoted
  exact hnoted

/-- A problem at the next token stands after all that were noted where a construct is done. -/
theorem Done.note (h : r.Done) {p : Problem} (hp : p.token = r.upcoming) : (r.note p).Done := by
  have hnoted : (r.note p).NotedUpTo p.token := NotedUpTo.note (hp ▸ h)
  rw [hp] at hnoted
  exact hnoted

/-- What comes next does not start before the current token. -/
theorem Begun.done (h : r.Begun) : r.Done := by
  have hnext : r.current.span.start.offset ≤ r.upcoming.span.start.offset :=
    h.placed.start_le (.advance r)
  exact ⟨h.placed, h.ordered, fun p hp => Int.le_trans (h.bound p hp) hnext⟩

/-- Moving on, the next token becomes the current one, and with it the bound. -/
theorem Done.advance (h : r.Done) : r.advance.Begun :=
  ⟨h.placed.onward (.advance r), h.ordered, h.bound⟩

end Reader

namespace Parse

/-! ## Readings -/

namespace Ensures

variable {α : Type} {P : Reader → Prop} {Q : α → Reader → Prop}

/-- What a construct needs when it is done it also has where it begins. -/
theorem begun {x : Parse α} (h : Ensures Reader.Done x Q) : Ensures Reader.Begun x Q :=
  h.weaken fun _ hr => hr.done

theorem atCurrent {f : Token → Parse α} (h : ∀ t, Ensures P (f t) Q) :
    Ensures P (Parse.current >>= f) Q :=
  fun r hr => h r.current r hr

theorem atUpcoming {f : Token → Parse α} (h : ∀ t, Ensures P (f t) Q) :
    Ensures P (Parse.upcoming >>= f) Q :=
  fun r hr => h r.upcoming r hr

/-- Between two constructs the reader moves on. -/
theorem moveOn {f : Unit → Parse α} (h : Ensures Reader.Begun (f ()) Q) :
    Ensures Reader.Done (Parse.advance >>= f) Q :=
  fun r hr => h r.advance hr.advance

/-- A token that must come next, and what is done with and without it. -/
theorem demand (k : Kind) {x y : Parse α} (hx : Ensures Reader.Begun x Q)
    (hy : Ensures Reader.Done y Q) :
    Ensures Reader.Done (Parse.expect k >>= fun there => if there = true then x else y) Q := by
  intro r hr
  have hrun : (Parse.expect k >>= fun there => if there = true then x else y).run r
      = (if ((Parse.expect k).run r).1 = true then x else y).run ((Parse.expect k).run r).2 := rfl
  rw [hrun, run_expect]
  by_cases hk : r.upcoming.kind = k
  · rw [if_pos hk]
    exact hx _ hr.advance
  · rw [if_neg hk]
    exact hy _ (hr.note rfl)

/-- Passing over a token does not lower the bound. -/
theorem passOver (k : Kind) : Ensures Reader.Done (Parse.skip k) fun _ => Reader.Done := by
  intro r hr
  rw [run_skip, Reader.skip]
  split
  · exact hr.advance.done
  · exact hr

theorem originFrom (t : Token) : Ensures P (Parse.originFrom t) fun _ => P :=
  fun _ hr => hr

theorem originAfter (left : Expr) (t : Token) :
    Ensures P (Parse.originAfter left t) fun _ => P := by
  intro r hr
  rw [run_originAfter]
  exact hr

/-- Nothing more is read. -/
theorem done (a : α) : Ensures Reader.Done (Pure.pure a) fun _ => Reader.Done :=
  .pure fun _ hr => hr

/-- A node is made of what was read. -/
theorem build {x : Parse Origin} (h : Ensures Reader.Done x fun _ => Reader.Done) (f : Origin → α) :
    Ensures Reader.Done (x >>= fun o => Pure.pure (f o)) fun _ => Reader.Done :=
  h.bind fun _ => .done _

end Ensures

/-! ## Rules -/

/-- A reading that begins at the current token notes problems in the order of the source. -/
abbrev Orderly {α : Type} (x : Parse α) : Prop :=
  Ensures Reader.Begun x fun _ => Reader.Done

/-- The same for a reading that goes on with the token that comes next. -/
abbrev Continues {α : Type} (x : Parse α) : Prop :=
  Ensures Reader.Done x fun _ => Reader.Done

section Rules

variable {expr : Precedence → Parse Expr}

/-- A let statement begins with its keyword behind it. -/
theorem continues_letStatement (h : ∀ above, Orderly (expr above)) :
    Continues (letStatement expr) := by
  -- what is missing is noted at the next token, without moving on
  refine .atCurrent fun start => .demand _ (.begun ?_) (.done _)
  refine .atCurrent fun name => .demand _ (.begun (.moveOn ?_)) (.done _)
  exact (h _).bind fun value => (Ensures.passOver _).bind fun _ => .build (.originFrom start) _

/-- A return statement may have no value; then nothing begins. -/
theorem continues_returnStatement (h : ∀ above, Orderly (expr above)) :
    Continues (returnStatement expr) := by
  have hlast (start : Token) (value : Expr) : Continues (do
      skip .semicolon
      return Stmt.ret (← originFrom start) value) :=
    (Ensures.passOver _).bind fun _ => .build (.originFrom start) _
  -- without a value the semicolon comes next; with one the reader moves on to it
  refine .atCurrent fun start => .atUpcoming fun next => .ite (fun _ => ?_) fun _ => ?_
  · exact hlast start .absent
  · exact .moveOn ((h _).bind (hlast start))

/-- An expression statement begins where its expression does. -/
theorem orderly_expressionStatement (h : ∀ above, Orderly (expr above)) :
    Orderly (expressionStatement expr) := by
  refine .atCurrent fun start => (h _).bind fun value => ?_
  exact (Ensures.passOver _).bind fun _ => .build (.originFrom start) _

/-- A statement begins at its first token, whichever rule that asks for. -/
theorem orderly_statement (h : ∀ above, Orderly (expr above)) : Orderly (statement expr) := by
  refine .atCurrent fun t => ?_
  split
  · exact (continues_letStatement h).begun
  · exact (continues_returnStatement h).begun.bind fun s => .done _
  · exact (orderly_expressionStatement h).bind fun s => .done _

/-- After each statement the reader moves on, so a problem may be noted at the token that ends them
all. -/
theorem orderly_statementsUntil (h : ∀ above, Orderly (expr above)) (closing : Option Kind)
    (n : Nat) : Ensures Reader.Begun (statementsUntil expr closing n) fun _ => Reader.Begun := by
  induction n with
  | zero => exact .pure fun _ hr => hr
  | succ n ih =>
      refine .atCurrent fun t => .ite (fun _ => .pure fun _ hr => hr) fun _ => ?_
      refine (orderly_statement h).bind fun first => .moveOn (ih.bind fun rest => ?_)
      exact .pure fun _ hr => hr

/-- A block notes a missing brace at the end token, which is the current one there. -/
theorem continues_block (h : ∀ above, Orderly (expr above)) : Continues (block expr) := by
  refine .atCurrent fun start => .moveOn (.rounds fun n => ?_)
  refine (orderly_statementsUntil h _ n).bind fun statements => .current fun last => ?_
  have hlast : Continues (do return Block.of (← originFrom start) statements) :=
    .build (.originFrom start) _
  refine .ite (fun _ => ?_) fun _ => ?_
  · -- the missing brace is noted at the current token, which is the end
    rintro r ⟨hr, rfl⟩
    exact hlast _ (hr.note rfl).done
  · exact hlast.weaken fun _ hr => hr.1.done

/-- After a comma the reader moves on twice before the next expression begins. -/
theorem continues_moreExpressions (h : ∀ above, Orderly (expr above)) (n : Nat) :
    Continues (moreExpressions expr n) := by
  induction n with
  | zero => exact .done _
  | succ n ih =>
      refine .atUpcoming fun t => .ite (fun _ => .moveOn (.begun (.moveOn ?_))) fun _ => .done _
      exact (h _).bind fun first => ih.bind fun rest => .done _

/-- A list of expressions misses its closing token at the next token. -/
theorem continues_expressionList (h : ∀ above, Orderly (expr above)) (closing : Kind) :
    Continues (expressionList expr closing) := by
  refine .atUpcoming fun t => .ite (fun _ => .moveOn (.begun (.done _))) fun _ => .moveOn ?_
  refine (h _).bind fun first => .rounds fun n => ?_
  refine (continues_moreExpressions h n).bind fun rest => ?_
  exact .demand _ (.begun (.done _)) (.done _)

/-- After a comma the reader moves on before the next parameter. -/
theorem continues_moreParameters (n : Nat) : Continues (moreParameters n) := by
  induction n with
  | zero => exact .done _
  | succ n ih =>
      refine .atUpcoming fun t => .ite (fun _ => .moveOn (.begun ?_)) fun _ => .done _
      refine .demand _ (.begun (.atCurrent fun name => ih.bind fun rest => ?_)) (.done _)
      cases rest <;> exact .done _

theorem continues_parameters : Continues parameters := by
  refine .atUpcoming fun t => .ite (fun _ => .moveOn (.begun (.done _))) fun _ => ?_
  refine .demand _ (.begun (.atCurrent fun name => .rounds fun n => ?_)) (.done _)
  refine (continues_moreParameters n).bind fun rest => ?_
  cases rest with
  | none => exact .done _
  | some rest => exact .demand _ (.begun (.done _)) (.done _)

theorem continues_hashPairs (h : ∀ above, Orderly (expr above)) (n : Nat) :
    Continues (hashPairs expr n) := by
  induction n with
  | zero => exact .done _
  | succ n ih =>
      refine .atUpcoming fun t => .ite (fun _ => .done _) fun _ => .moveOn ?_
      refine (h _).bind fun key => .demand _ (.begun (.moveOn ?_)) (.done _)
      refine (h _).bind fun value => .atUpcoming fun next => .ite (fun _ => ?_) fun _ => ?_
      · refine .demand _ (.begun (ih.bind fun rest => ?_)) (.done _)
        cases rest <;> exact .done _
      · refine ih.bind fun rest => ?_
        cases rest <;> exact .done _

/-- The operand begins after its operator. -/
theorem continues_unaryExpression (h : ∀ above, Orderly (expr above)) (op : UnaryOp) :
    Continues (unaryExpression expr op) :=
  .atCurrent fun start => .moveOn ((h _).bind fun _ => .build (.originFrom start) _)

/-- What is in parentheses begins after the parenthesis. -/
theorem continues_grouped (h : ∀ above, Orderly (expr above)) : Continues (grouped expr) :=
  .moveOn ((h _).bind fun _ => .demand _ (.begun (.done _)) (.done _))

/-- Each part of a conditional is done before the next one begins. -/
theorem continues_conditional (h : ∀ above, Orderly (expr above)) :
    Continues (conditional expr) := by
  refine .atCurrent fun start => .demand _ (.begun (.moveOn ?_)) (.done _)
  refine (h _).bind fun test => .demand _ (.begun (.demand _ (.begun ?_) (.done _))) (.done _)
  refine (continues_block h).bind fun consequence => .atUpcoming fun next => ?_
  refine .ite (fun _ => .moveOn (.begun (.demand _ (.begun ?_) (.done _)))) fun _ => ?_
  · exact (continues_block h).bind fun alternative => .build (.originFrom start) _
  · exact .build (.originFrom start) _

/-- The parameters of a function are done before its body begins. -/
theorem continues_functionLiteral (h : ∀ above, Orderly (expr above)) :
    Continues (functionLiteral expr) := by
  refine .atCurrent fun start =>
    .demand _ (.begun (continues_parameters.bind fun params => ?_)) (.done _)
  cases params with
  | none => exact .done _
  | some params =>
      refine .demand _ (.begun ((continues_block h).bind fun body => ?_)) (.done _)
      exact .build (.originFrom start) _

theorem continues_arrayLiteral (h : ∀ above, Orderly (expr above)) :
    Continues (arrayLiteral expr) := by
  refine .atCurrent fun start => (continues_expressionList h _).bind fun elements => ?_
  cases elements with
  | none => exact .done _
  | some elements => exact .build (.originFrom start) _

theorem continues_hashLiteral (h : ∀ above, Orderly (expr above)) :
    Continues (hashLiteral expr) := by
  refine .atCurrent fun start => .rounds fun n => (continues_hashPairs h _).bind fun pairs => ?_
  cases pairs with
  | none => exact .done _
  | some pairs => exact .demand _ (.begun (.build (.originFrom start) _)) (.done _)

/-- An integer that does not fit is noted where it stands. -/
theorem orderly_integer :
    Orderly (Parse.current >>= integer) := by
  refine .current fun t => .ite (fun _ => ?_) fun _ => ?_
  · exact .pure fun _ hr => hr.1.done
  · rintro r ⟨hr, rfl⟩
    exact (hr.note rfl).done

/-- Whatever operand the current token starts. -/
theorem orderly_operand (h : ∀ above, Orderly (expr above)) {r : Reader} (hr : r.Begun)
    {x : Parse Expr} (hx : operand expr r.current = some x) : (x.run r).2.Done := by
  have htoken (e : Expr) : ((pure e : Parse Expr).run r).2.Done := hr.done
  have hrule {y : Parse Expr} (hy : Continues y) : (y.run r).2.Done := hy r hr.done
  unfold operand at hx
  split at hx <;> cases hx
  · exact htoken _
  · exact orderly_integer r hr
  · exact htoken _
  · exact htoken _
  · exact htoken _
  · exact hrule (continues_unaryExpression h _)
  · exact hrule (continues_unaryExpression h _)
  · exact hrule (continues_grouped h)
  · exact hrule (continues_conditional h)
  · exact hrule (continues_functionLiteral h)
  · exact hrule (continues_arrayLiteral h)
  · exact hrule (continues_hashLiteral h)

/-- What follows an operator begins after it. -/
theorem continues_operation (h : ∀ above, Orderly (expr above)) (t : Token) (left : Expr) :
    Continues (operation expr t left) := by
  unfold operation
  split
  · refine (continues_expressionList h _).bind fun args => ?_
    cases args with
    | none => exact .done _
    | some args => exact .build (.originAfter left t) _
  · refine .moveOn ((h _).bind fun index => ?_)
    exact .demand _ (.begun (.build (.originAfter left t) _)) (.done _)
  · exact .moveOn ((h _).bind fun right => .build (.originAfter left t) _)

/-- Operands and operators take turns; the induction is on the rounds. -/
theorem continues_operations (h : ∀ above, Orderly (expr above)) (above : Precedence) (n : Nat)
    (left : Expr) : Continues (operations expr above n left) := by
  induction n generalizing left with
  | zero => exact .done _
  | succ n ih =>
      refine .atUpcoming fun t => .ite (fun _ => .moveOn (.begun ?_)) fun _ => .done _
      exact (continues_operation h t left).bind ih

end Rules

/-- A missing operand is noted at the current token. -/
theorem orderly_missingOperand : Orderly missingOperand :=
  fun _ hr => (hr.note rfl).done

/-- Reading an expression notes problems in the order of the source. The induction is on the
expressions inside one another. -/
theorem orderly_expression (n : Nat) (above : Precedence) : Orderly (expression n above) := by
  induction n generalizing above with
  | zero => exact orderly_missingOperand
  | succ n ih =>
      refine .current fun t => ?_
      split
      · exact .weaken orderly_missingOperand fun _ hr => hr.1
      · rename_i first hfirst
        refine .rounds fun m => ?_
        rintro r ⟨hr, rfl⟩
        exact continues_operations ih above m _ _ (orderly_operand ih hr hfirst)

end Parse

/-! ## Sources -/

/-- The problems of a source stand in the order of its tokens. -/
theorem ordered_problems (source : Text) : (parse source).problems.Pairwise Problem.NotAfter := by
  have hstart : (Reader.ofTokens (tokenize source)).Begun := by
    have hnone := (sane_ofTokens source).2.2
    refine ⟨placed_ofTokens source, hnone ▸ .nil, fun p hp => ?_⟩
    exact absurd (hnone ▸ hp) List.not_mem_nil
  have hread := Parse.orderly_statementsUntil
    (Parse.orderly_expression ((Reader.ofTokens (tokenize source)).tokens.length + 1)) none
    (Reader.ofTokens (tokenize source)).tokens.length _ hstart
  exact hread.ordered

/-- **Diagnostics come in source order.** Whatever the source, each of its diagnostics spans one
of its tokens, and of two diagnostics the one that was reported first does not start after the
other. -/
theorem diagnostics_in_source_order (source : Text) :
    ((parse source).diagnostics.map fun d => d.span.start.offset).Pairwise (· ≤ ·) ∧
    ∀ d ∈ (parse source).diagnostics, ∃ t ∈ tokenize source, d.span = t.span := by
  constructor
  · rw [Parsed.diagnostics, List.map_map, List.pairwise_map]
    exact ordered_problems source
  · intro d hd
    obtain ⟨p, hp, rfl⟩ := List.mem_map.mp hd
    have htoken := (grown_parse (.ofTokens (tokenize source)) fun t ht => ht).2 p hp
    exact ⟨p.token, htoken, rfl⟩

/-- Neither the operand nor the two closing parentheses are there: the operand is missed at the
semicolon, the parentheses are missed at the sign after it, and the operand of that sign at the
end. -/
theorem diagnostics_in_source_order_unclosed :
    let source := text "let x = ((; !"
    (parse source).diagnostics.map (fun d => d.span.start.offset) = [10, 12, 12, 13] ∧
    ([10, 12, 12, 13] : List Int).Pairwise (· ≤ ·) ∧
    ∃ d ∈ (parse source).diagnostics, d.span.start.offset = 13 ∧
      ∃ t ∈ tokenize source, d.span = t.span := by
  intro source
  have hoffsets :
      (parse source).diagnostics.map (fun d => d.span.start.offset) = [10, 12, 12, 13] := by
    decide +kernel
  have hlast : 13 ∈ (parse source).diagnostics.map fun d => d.span.start.offset := by
    rw [hoffsets]
    decide
  obtain ⟨d, hd, hoffset⟩ := List.mem_map.mp hlast
  obtain ⟨hordered, htokens⟩ := diagnostics_in_source_order source
  rw [hoffsets] at hordered
  exact ⟨hoffsets, hordered, d, hd, hoffset, htokens d hd⟩

end Monkey
