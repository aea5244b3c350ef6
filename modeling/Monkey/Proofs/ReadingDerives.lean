import Monkey.Proofs.Rules
import Monkey.Proofs.Strata

/-!
# What is read without problems is derivable

By induction on how deep expressions may be nested, every clean reading of an
expression has a derivation: its terminals are those that the reading passed, and its
tree is the expression read, up to shape.

The loop over operators is the heart of it. Its invariant is a phrase for the left
operand, of some stratum `j`, such that the next token does not bind tighter than the
operators of stratum `j`. So whatever operator the loop takes next, the operand can
be lifted to the stratum of that operator, and the right operand, which is read above
the operator's own precedence, is of the next stratum.
-/

namespace Monkey

open Parse Grammar

namespace Grammar

/-- A phrase accounts for an expression that was read: it stands for the expression, and
it derives the terminals that were passed. -/
structure Phrase.Covers {k : Nat} (c : Phrase k) (e : Expr) (before after : List Terminal) :
    Prop where
  proper : c.Proper
  tree : c.tree = e.shape
  yield : before = c.yield ++ after

/-- What is covered by a phrase is covered by one of every looser stratum. -/
theorem Phrase.Covers.exists_lift {j k : Nat} (hk : k ≤ j) {c : Phrase j} {e : Expr}
    {before after : List Terminal} (hc : c.Covers e before after) :
    ∃ c' : Phrase k, c'.Covers e before after := by
  obtain ⟨c', hyield, htree, hproper⟩ := Phrase.exists_lift hk c
  exact ⟨c', hproper hc.proper, htree.trans hc.tree, by rw [hyield, hc.yield]⟩

end Grammar

/-! ## Lists -/

/-- A rule for expressions derives what it reads: a phrase of every stratum up to the
precedence above which it reads, and it stops before a token that binds no tighter. -/
def Derives (expr : Precedence → Parse Expr) : Prop :=
  ∀ {above : Nat} {r r' : Reader} {e : Expr}, 1 ≤ above → above ≤ 6 → r.Sane →
    Clean (expr above) r e r' → r'.upcoming.kind.precedence ≤ above ∧
    ∀ k, k ≤ above → k ≤ 5 → ∃ c : Phrase k, c.Covers e r.view r'.ahead

section Rules

variable {expr : Precedence → Parse Expr} (h : ∀ q, Moves (expr q)) (hd : Derives expr)
include hd

/-- What is read above the lowest precedence is of the first stratum. -/
theorem derives_lowest {r r' : Reader} {e : Expr} (hs : r.Sane)
    (hc : Clean (expr .lowest) r e r') : r'.upcoming.kind.precedence ≤ 1 ∧
      ∃ c : Phrase 1, c.Covers e r.view r'.ahead := by
  obtain ⟨hstop, hphrase⟩ := hd (Nat.le_refl 1) (by decide) hs hc
  exact ⟨hstop, hphrase 1 (Nat.le_refl 1) (by decide)⟩

include h

/-- Expressions after commas that are read without a problem are derived by the grammar. -/
theorem derives_moreExpressions {n : Nat} {r r' : Reader} {es : List Expr} (hs : r.Sane)
    (hn : r.tokens.length ≤ n) (hc : Clean (moreExpressions expr n) r es r') :
    ∃ cs, ProperList cs ∧ listTree cs = shapeExprs es ∧ r.ahead = yieldMore cs ++ r'.ahead := by
  induction n generalizing r es with
  | zero =>
      obtain ⟨rfl, rfl⟩ := clean_pure.mp hc
      exact ⟨[], trivial, rfl, rfl⟩
  | succ n ih =>
      rcases (clean_moreExpressions h).mp hc with
        ⟨-, rfl, rfl⟩ | ⟨hcomma, e, r₁, rest, he, hrest, rfl⟩
      · exact ⟨[], trivial, rfl, rfl⟩
      · obtain ⟨-, c, hproper, htree, hview⟩ := derives_lowest hd hs.advance.advance he
        have hmove := he.onward (h _)
        have hlen : r₁.tokens.length ≤ n := by
          have h₁ := hmove.tokens.length_le
          simp only [Reader.advance, List.length_tail] at h₁
          omega
        obtain ⟨cs, hcs, htrees, hahead⟩ := ih (hs.advance.advance.onward hmove) hlen hrest
        refine ⟨c :: cs, ⟨hproper, hcs⟩, ?_, ?_⟩
        · rw [listTree, shapeExprs_cons, htree, htrees]
        · rw [hs.ahead_eq_terminal hcomma (by decide), ← Reader.view_advance, hview, hahead,
            yieldMore]
          simp only [List.cons_append, List.append_assoc]

/-- A list of expressions that is read without a problem is derived, and its closing token is
there. -/
theorem derives_expressionList {closing : Kind} (hclosing : closing.spelling ≠ [])
    {r r' : Reader} {es : Option (List Expr)} (hs : r.Sane)
    (hc : Clean (expressionList expr closing) r es r') :
    ∃ cs elements, es = some elements ∧ ProperList cs ∧ listTree cs = shapeExprs elements ∧
      r.ahead = yieldList cs ++ closing.terminal :: r'.ahead := by
  rcases (clean_expressionList h).mp hc with ⟨hend, rfl, rfl⟩ |
    ⟨-, e, r₁, rest, r₂, he, hrest, hend, rfl, rfl⟩
  · refine ⟨[], [], rfl, trivial, rfl, ?_⟩
    exact hs.ahead_eq_terminal hend hclosing
  · obtain ⟨-, c, hproper, htree, hview⟩ := derives_lowest hd hs.advance he
    have hs₁ := hs.advance.onward (he.onward (h _))
    obtain ⟨cs, hcs, htrees, hahead⟩ := derives_moreExpressions h hd hs₁ (Nat.le_refl _) hrest
    have hs₂ := hs₁.onward (hrest.onward (moves_moreExpressions h _))
    refine ⟨c :: cs, e :: rest, rfl, ⟨hproper, hcs⟩, ?_, ?_⟩
    · rw [listTree, shapeExprs_cons, htree, htrees]
    · rw [← Reader.view_advance, hview, hahead, hs₂.ahead_eq_terminal hend hclosing, yieldList,
        List.append_assoc]

omit h hd in
/-- Parameters after commas that are read without a problem are derived. -/
theorem derives_moreParameters {n : Nat} {r r' : Reader} {ps : Option (List Binder)}
    (hs : r.Sane) (hn : r.tokens.length ≤ n) (hc : Clean (moreParameters n) r ps r') :
    ∃ names params, ps = some params ∧
      names.map binder = params.map (Binder.relocate Origin.unplaced) ∧
      r.ahead = yieldMoreNames names ++ r'.ahead := by
  induction n generalizing r ps with
  | zero =>
      obtain ⟨rfl, rfl⟩ := clean_pure.mp hc
      exact ⟨[], [], rfl, rfl, rfl⟩
  | succ n ih =>
      rcases clean_moreParameters.mp hc with ⟨-, rfl, rfl⟩ | ⟨hcomma, hname, rest, hrest, rfl⟩
      · exact ⟨[], [], rfl, rfl, rfl⟩
      -- a name and a comma are behind, so the rounds left suffice for the tokens left
      · have hlen : r.advance.advance.tokens.length ≤ n := by
          simp only [Reader.advance, List.length_tail]
          omega
        obtain ⟨names, params, rfl, hmap, hahead⟩ := ih hs.advance.advance hlen hrest
        have hfirst : r.advance.upcoming.terminal = ⟨.ident, r.advance.upcoming.literal⟩ := by
          rw [← hname]
          rfl
        refine ⟨r.advance.upcoming.literal :: names, _ :: params, rfl, ?_, ?_⟩
        · rw [List.map_cons, List.map_cons, hmap]
          rfl
        · rw [hs.ahead_eq_terminal hcomma (by decide), hs.advance.ahead_eq hname (by decide),
            hahead, hfirst, yieldMoreNames]
          rfl

omit h hd in
/-- Parameters that are read without a problem are derived. -/
theorem derives_parameters {r r' : Reader} {ps : Option (List Binder)} (hs : r.Sane)
    (hc : Clean parameters r ps r') :
    ∃ names params, ps = some params ∧
      names.map binder = params.map (Binder.relocate Origin.unplaced) ∧
      r.ahead = yieldNames names ++ Kind.rparen.terminal :: r'.ahead := by
  rcases clean_parameters.mp hc with ⟨hend, rfl, rfl⟩ | ⟨hname, rest, r₁, hrest, hlast⟩
  · refine ⟨[], [], rfl, rfl, ?_⟩
    exact hs.ahead_eq_terminal hend (by decide)
  · obtain ⟨names, params, rfl, hmap, hahead⟩ :=
      derives_moreParameters hs.advance (Nat.le_refl _) hrest
    rcases hlast with ⟨⟨⟩, -⟩ | ⟨more, ⟨⟩, hend, rfl, rfl⟩
    have hs₁ := hs.advance.onward (hrest.onward (moves_moreParameters _))
    have hfirst : r.upcoming.terminal = ⟨.ident, r.upcoming.literal⟩ := by
      rw [← hname]
      rfl
    refine ⟨r.upcoming.literal :: names, _ :: params, rfl, ?_, ?_⟩
    · rw [List.map_cons, List.map_cons, hmap]
      rfl
    · rw [hs.ahead_eq hname (by decide), hahead, hs₁.ahead_eq_terminal hend (by decide), hfirst,
        yieldNames, List.cons_append]

/-- Pairs that are read without a problem are derived, with or without a comma at their end. -/
theorem derives_hashPairs {n : Nat} {r r' : Reader} {ps : Option (List (Expr × Expr))}
    (hs : r.Sane) (hn : r.tokens.length < n) (hc : Clean (hashPairs expr n) r ps r') :
    ∃ pairs, ps = some pairs ∧ ((r.upcoming.kind = .rbrace ∧ pairs = [] ∧ r' = r) ∨
      (r.upcoming.kind ≠ .rbrace ∧ ∃ (key value : Phrase 1) (more : _) (trailing : Bool),
        (key.Proper ∧ value.Proper ∧ ProperPairs more) ∧
        (key.tree, value.tree) :: pairsTree more = shapePairs pairs ∧
        r.ahead = key.yield ++ Kind.colon.terminal :: (value.yield
          ++ (yieldMorePairs more ++ (optional .comma trailing ++ r'.ahead))))) := by
  induction n generalizing r ps with
  | zero => exact absurd hn (Nat.not_lt_zero _)
  | succ n ih =>
      rcases (clean_hashPairs h).mp hc with ⟨hend, rfl, rfl⟩ |
        ⟨hend, key, r₁, value, r₂, rest, hkey, hcolon, hvalue, hsep, hrest, rfl⟩
      · exact ⟨[], rfl, .inl ⟨hend, rfl, rfl⟩⟩
      · obtain ⟨-, ck, hkproper, hktree, hkview⟩ := derives_lowest hd hs.advance hkey
        have hmove₁ := hkey.onward (h _)
        have hs₁ := hs.advance.onward hmove₁
        obtain ⟨-, cv, hvproper, hvtree, hvview⟩ := derives_lowest hd hs₁.advance.advance hvalue
        have hmove₂ := hvalue.onward (h _)
        have hs₂ := hs₁.advance.advance.onward hmove₂
        -- every pair consumes its colon, so the budget for pairs is not used up before the tokens
        have hlen : r₂.tokens.length < n := by
          have := hs₁.length_advance_lt (by rw [hcolon]; decide)
          have := r.length_advance_le
          have := r₁.advance.length_advance_le
          have := hmove₁.tokens.length_le
          have := hmove₂.tokens.length_le
          omega
        have hlenSkip : (r₂.skip .comma).tokens.length < n :=
          Nat.lt_of_le_of_lt (Reader.Onward.skip r₂ .comma).tokens.length_le hlen
        obtain ⟨pairs, rfl, htail⟩ := ih (hs₂.skip _) hlenSkip hrest
        have hahead : r.ahead = ck.yield ++ Kind.colon.terminal :: (cv.yield ++ r₂.ahead) := by
          rw [← Reader.view_advance, hkview, hs₁.ahead_eq_terminal hcolon (by decide),
            ← Reader.view_advance, hvview]
        refine ⟨(key, value) :: pairs, rfl, .inr ⟨hend, ck, cv, ?_⟩⟩
        -- no pair follows without a comma, but a comma need not be followed by one
        rcases hsep with hbrace | hcomma
        · rw [Reader.skip_of_not_upcoming (by rw [hbrace]; decide)] at htail
          rcases htail with ⟨-, rfl, rfl⟩ | ⟨hnot, -⟩
          · refine ⟨[], false, ⟨hkproper, hvproper, trivial⟩, ?_, hahead⟩
            rw [pairsTree, shapePairs_cons, hktree, hvtree, shapePairs_nil]
          · exact absurd hbrace hnot
        · rw [Reader.skip_of_upcoming hcomma] at htail
          have hcommaAhead := hs₂.ahead_eq_terminal hcomma (by decide)
          rcases htail with ⟨-, rfl, rfl⟩ |
            ⟨-, ck', cv', more, trailing, ⟨hk', hv', hmore⟩, htrees, hmoreAhead⟩
          · refine ⟨[], true, ⟨hkproper, hvproper, trivial⟩, ?_, ?_⟩
            · rw [pairsTree, shapePairs_cons, hktree, hvtree, shapePairs_nil]
            · rw [hahead, hcommaAhead]
              rfl
          · refine ⟨(ck', cv') :: more, trailing, ⟨hkproper, hvproper, hk', hv', hmore⟩, ?_, ?_⟩
            · rw [pairsTree, htrees, shapePairs_cons, hktree, hvtree]
            · rw [hahead, hcommaAhead, hmoreAhead, yieldMorePairs]
              simp only [List.cons_append, List.append_assoc]

/-! ## Statements -/

omit h hd in
/-- A semicolon that may be left out is there or not, and is not there only before
another kind of token. -/
theorem skip_semicolon_cases {r : Reader} (hs : r.Sane) : ∃ closed,
    r.ahead = optional .semicolon closed ++ (r.skip .semicolon).ahead ∧
    (closed = false → r.upcoming.kind ≠ .semicolon ∧ r.skip .semicolon = r) := by
  by_cases hk : r.upcoming.kind = .semicolon
  · rw [Reader.skip_of_upcoming hk]
    refine ⟨true, hs.ahead_eq_terminal hk (by decide), fun hopen => ?_⟩
    exact absurd hopen (by decide)
  · rw [Reader.skip_of_not_upcoming hk]
    exact ⟨false, rfl, fun _ => ⟨hk, rfl⟩⟩

omit h hd in
/-- A statement ends before a token that does not continue its expression. -/
theorem endsBefore_of_skip {r r' : Reader} (hstop : r.upcoming.kind.precedence ≤ 1)
    (hskip : r.upcoming.kind ≠ .semicolon ∧ r' = r) : endsBefore r'.upcoming.kind := by
  obtain ⟨hk, rfl⟩ := hskip
  refine ⟨hk, ?_⟩
  rw [← Bool.not_eq_true, continues_iff]
  exact Nat.not_lt_of_le hstop

/-- A statement that is read without a problem is derived, and what comes next cannot go on with
it. -/
theorem derives_statement {r r' : Reader} {s : Option Stmt} (hs : r.Sane)
    (hc : Clean (statement expr) r s r') :
    ∃ (c : Sentence) (stmt : Stmt), s = some stmt ∧ c.Proper ∧ c.tree = stmt.shape ∧
      r.view = c.yield ++ r'.ahead ∧ c.MayPrecede r'.upcoming.kind := by
  rcases (clean_statement h).mp hc with ⟨hlet, hc'⟩ | ⟨hret, stmt, hc', rfl⟩ |
    ⟨-, -, stmt, hc', rfl⟩
  -- a semicolon that was skipped is part of the sentence; without one, what comes next ends the
  -- value
  · obtain ⟨hname, hassign, value, r₁, hvalue, rfl, rfl⟩ := (clean_letStatement h).mp hc'
    obtain ⟨hstop, c, hproper, htree, hview⟩ := derives_lowest hd hs.advance.advance.advance hvalue
    have hs₁ := hs.advance.advance.advance.onward (hvalue.onward (h _))
    obtain ⟨closed, hend, hopen⟩ := skip_semicolon_cases hs₁
    refine ⟨.bind r.upcoming.literal c closed, _, rfl, hproper, ?_, ?_,
      fun hno => endsBefore_of_skip hstop (hopen hno)⟩
    · rw [Sentence.tree, Stmt.shape_bind, htree, Reader.unplaced_originFrom,
        hs.literal_current hlet (by decide)]
      rfl
    · have hfirst : r.upcoming.terminal = ⟨.ident, r.upcoming.literal⟩ := by
        rw [← hname]
        rfl
      rw [hs.view_eq (by rw [hlet]; decide), hs.terminal_current hlet (by decide),
        hs.ahead_eq hname (by decide), hs.advance.ahead_eq_terminal hassign (by decide),
        ← Reader.view_advance, hview, hend, hfirst, Sentence.yield]
      simp only [List.cons_append, List.append_assoc]
  · have hview := hs.view_eq (by rw [hret]; decide)
    rw [hs.terminal_current hret (by decide)] at hview
    rcases (clean_returnStatement h).mp hc' with ⟨hbare, rfl, rfl⟩ |
      ⟨-, value, r₁, hvalue, rfl, rfl⟩
    · obtain ⟨closed, hend, hopen⟩ := skip_semicolon_cases hs
      refine ⟨.bare closed, _, rfl, trivial, ?_, ?_, fun hno => ?_⟩
      · rw [Sentence.tree, Stmt.shape_ret, Reader.unplaced_originFrom,
          hs.literal_current hret (by decide), Expr.shape_absent]
      · rw [hview, hend, Sentence.yield, List.cons_append]
      · obtain ⟨hk, hskip⟩ := hopen hno
        rw [hskip]
        exact hbare.resolve_left hk
    · obtain ⟨hstop, c, hproper, htree, hvalueView⟩ := derives_lowest hd hs.advance hvalue
      have hs₁ := hs.advance.onward (hvalue.onward (h _))
      obtain ⟨closed, hend, hopen⟩ := skip_semicolon_cases hs₁
      refine ⟨.ret c closed, _, rfl, hproper, ?_, ?_,
        fun hno => endsBefore_of_skip hstop (hopen hno)⟩
      · rw [Sentence.tree, Stmt.shape_ret, Reader.unplaced_originFrom, htree,
          hs.literal_current hret (by decide)]
      · rw [hview, ← Reader.view_advance, hvalueView, hend, Sentence.yield]
        simp only [List.cons_append, List.append_assoc]
  · obtain ⟨value, r₁, hvalue, rfl, rfl⟩ := (clean_expressionStatement h).mp hc'
    obtain ⟨hstop, c, hproper, htree, hview⟩ := derives_lowest hd hs hvalue
    obtain ⟨closed, hend, hopen⟩ := skip_semicolon_cases (hs.onward (hvalue.onward (h _)))
    refine ⟨.expr c closed, _, rfl, hproper, ?_, ?_,
      fun hno => endsBefore_of_skip hstop (hopen hno)⟩
    · rw [Sentence.tree, Stmt.shape_expr, htree]
    · rw [hview, hend, Sentence.yield, List.append_assoc]

/-- Statements that are read without a problem are derived one after the other. The induction is on
the rounds. -/
theorem derives_statementsUntil {closing : Option Kind} {n : Nat} {r r' : Reader}
    {ss : List Stmt} (hs : r.Sane) (hn : r.tokens.length ≤ n)
    (hc : Clean (statementsUntil expr closing n) r ss r') :
    (r'.current.kind = .eof ∨ some r'.current.kind = closing) ∧
    ∃ cs, ProperStatements r'.view cs ∧ statementsTree cs = shapeStatements ss ∧
      r.view = yieldStatements cs ++ r'.view := by
  induction n generalizing r ss with
  | zero =>
      obtain ⟨rfl, rfl⟩ := clean_pure.mp hc
      refine ⟨.inl ?_, [], trivial, rfl, rfl⟩
      rw [Reader.current, List.eq_nil_of_length_eq_zero (Nat.le_zero.mp hn)]
      exact hs.eof
  | succ n ih =>
      rcases (clean_statementsUntil h).mp hc with ⟨hend, rfl, rfl⟩ |
        ⟨hmore, first, r₁, rest, hfirst, hrest, rfl⟩
      · exact ⟨hend, [], trivial, rfl, rfl⟩
      · obtain ⟨c, stmt, rfl, hproper, htree, hview, hnext⟩ := derives_statement h hd hs hfirst
        have hmove := hfirst.onward (moves_statement h)
        have hs₁ := hs.onward hmove
        have hlen : r₁.advance.tokens.length ≤ n := by
          have hle := hmove.tokens.length_le
          -- behind the last statement there is nothing that advancing could consume
          by_cases hk : r₁.upcoming.kind = .eof
          · have hnil := congrArg List.length (hs₁.advance.view_eq_nil hk)
            simp only [Reader.view, List.length_map, List.length_nil] at hnil
            omega
          · have := hs₁.length_advance_lt hk
            omega
        obtain ⟨hend, cs, hcs, htrees, hviews⟩ := ih hs₁.advance hlen hrest
        refine ⟨hend, c :: cs, ⟨hproper, ?_, hcs⟩, ?_, ?_⟩
        · rw [← hviews, hs₁.advance.firstKind_view]
          exact hnext
        · rw [statementsTree, htree, htrees]
          rfl
        · rw [hview, ← Reader.view_advance, hviews, yieldStatements, List.append_assoc]

/-- A block that is read without a problem is derived, and its brace is there. -/
theorem derives_block {r r' : Reader} {b : Block} (hs : r.Sane) (hopen : r.current.kind = .lbrace)
    (hc : Clean (block expr) r b r') :
    ∃ cs, ProperStatements [Kind.rbrace.terminal] cs ∧ blockTree (statementsTree cs) = b.shape ∧
      r.ahead = yieldStatements cs ++ Kind.rbrace.terminal :: r'.ahead := by
  obtain ⟨statements, hstatements, hnotEnd, rfl⟩ := (clean_block h).mp hc
  obtain ⟨hend, cs, hproper, htree, hview⟩ :=
    derives_statementsUntil h hd hs.advance (Nat.le_refl _) hstatements
  have hclose : r'.current.kind = .rbrace := Option.some.inj (hend.resolve_left hnotEnd)
  have hs' := hs.advance.onward (hstatements.onward (moves_statementsUntil h _ _))
  have hlast : r'.view = Kind.rbrace.terminal :: r'.ahead := by
    rw [hs'.view_eq hnotEnd, hs'.terminal_current hclose (by decide)]
  refine ⟨cs, hproper.congr ?_, ?_, ?_⟩
  · rw [hlast]
    rfl
  · rw [Block.shape_of, Reader.unplaced_originFrom, hs.literal_current hopen (by decide), htree]
    rfl
  · rw [← Reader.view_advance, hview, hlast]

/-! ## Operands -/

theorem derives_unaryExpression {r r' : Reader} {e : Expr} (hs : r.Sane) (sign : Sign)
    (hsign : r.current.kind = sign.kind) (hc : Clean (unaryExpression expr sign.op) r e r') :
    r'.upcoming.kind.precedence ≤ 6 ∧ ∃ c : Phrase 5, c.Covers e r.view r'.ahead := by
  have hspell : sign.kind.spelling ≠ [] := by cases sign <;> decide
  have hkind : sign.kind ≠ .eof := by cases sign <;> decide
  obtain ⟨operand, hoperand, rfl⟩ := (clean_unaryExpression h).mp hc
  obtain ⟨hstop, hphrase⟩ := hd (by decide : 1 ≤ Precedence.unary) (by decide) hs.advance hoperand
  obtain ⟨c, hproper, htree, hview⟩ := hphrase 5 (by decide) (by decide)
  refine ⟨hstop, .unary sign c, hproper, ?_, ?_⟩
  · rw [Phrase.tree, Expr.shape_unary, Reader.unplaced_originFrom, htree,
      hs.literal_current hsign hspell]
  · rw [hs.view_eq (hsign ▸ hkind), hs.terminal_current hsign hspell, ← Reader.view_advance, hview,
      Phrase.yield, List.cons_append]

/-- What is in parentheses is derived as an atom. -/
theorem derives_grouped {r r' : Reader} {e : Expr} (hs : r.Sane)
    (hopen : r.current.kind = .lparen) (hc : Clean (grouped expr) r e r') :
    ∃ c : Phrase 7, c.Covers e r.view r'.ahead := by
  obtain ⟨r₁, hinner, hend, rfl⟩ := (clean_grouped h).mp hc
  obtain ⟨-, c, hproper, htree, hview⟩ := derives_lowest hd hs.advance hinner
  have hs₁ := hs.advance.onward (hinner.onward (h _))
  refine ⟨.group c, hproper, htree, ?_⟩
  rw [hs.view_eq (by rw [hopen]; decide), hs.terminal_current hopen (by decide),
    ← Reader.view_advance, hview, hs₁.ahead_eq_terminal hend (by decide), Phrase.yield]
  simp only [List.cons_append, List.append_assoc, List.nil_append]

/-- A conditional is derived as an atom, with an alternative or without. -/
theorem derives_conditional {r r' : Reader} {e : Expr} (hs : r.Sane)
    (hif : r.current.kind = .ifWord) (hc : Clean (conditional expr) r e r') :
    ∃ c : Phrase 7, c.Covers e r.view r'.ahead := by
  obtain ⟨hopen, test, r₁, consequence, r₂, htest, hclose, hbrace, hthen, hrest⟩ :=
    (clean_conditional h).mp hc
  obtain ⟨-, c, hproper, htree, hview⟩ := derives_lowest hd hs.advance.advance htest
  have hs₁ := hs.advance.advance.onward (htest.onward (h _))
  obtain ⟨cs, hcs, hcsTree, hcsAhead⟩ := derives_block h hd hs₁.advance.advance hbrace hthen
  have hs₂ := hs₁.advance.advance.onward (hthen.onward (moves_block h))
  have hstart : r.view = Kind.ifWord.terminal :: Kind.lparen.terminal :: (c.yield
      ++ Kind.rparen.terminal :: Kind.lbrace.terminal :: (yieldStatements cs
      ++ Kind.rbrace.terminal :: r₂.ahead)) := by
    rw [hs.view_eq (by rw [hif]; decide), hs.terminal_current hif (by decide),
      hs.ahead_eq_terminal hopen (by decide), ← Reader.view_advance, hview,
      hs₁.ahead_eq_terminal hclose (by decide), hs₁.advance.ahead_eq_terminal hbrace (by decide),
      hcsAhead]
  -- the same beginning is derived without an alternative and with one
  rcases hrest with ⟨-, rfl, rfl⟩ | ⟨helse, hbrace', alternative, halt, rfl⟩
  · refine ⟨.cond c cs, ⟨hproper, hcs⟩, ?_, ?_⟩
    · rw [Phrase.tree, Expr.shape_cond, Reader.unplaced_originFrom, htree, hcsTree,
        hs.literal_current hif (by decide), Block.shape_absent]
    · rw [hstart, Phrase.yield]
      simp only [List.cons_append, List.append_assoc, List.nil_append]
  · obtain ⟨ds, hds, hdsTree, hdsAhead⟩ := derives_block h hd hs₂.advance.advance hbrace' halt
    refine ⟨.condElse c cs ds, ⟨hproper, hcs, hds⟩, ?_, ?_⟩
    · rw [Phrase.tree, Expr.shape_cond, Reader.unplaced_originFrom, htree, hcsTree, hdsTree,
        hs.literal_current hif (by decide)]
    · rw [hstart, hs₂.ahead_eq_terminal helse (by decide),
        hs₂.advance.ahead_eq_terminal hbrace' (by decide), hdsAhead, Phrase.yield]
      simp only [List.cons_append, List.append_assoc, List.nil_append]

/-- A function is derived as an atom. -/
theorem derives_functionLiteral {r r' : Reader} {e : Expr} (hs : r.Sane)
    (hfn : r.current.kind = .fnWord) (hc : Clean (functionLiteral expr) r e r') :
    ∃ c : Phrase 7, c.Covers e r.view r'.ahead := by
  obtain ⟨hopen, ps, r₁, hparams, hrest⟩ := (clean_functionLiteral h).mp hc
  obtain ⟨names, params, rfl, hmap, hahead⟩ := derives_parameters hs.advance hparams
  rcases hrest with ⟨⟨⟩, -⟩ | ⟨params, body, ⟨⟩, hbrace, hbody, rfl⟩
  have hs₁ := hs.advance.onward (hparams.onward moves_parameters)
  obtain ⟨cs, hcs, hcsTree, hcsAhead⟩ := derives_block h hd hs₁.advance hbrace hbody
  have hnames : names.map (fun name => some (binder name)) =
      (params.map some).map (Option.map (Binder.relocate Origin.unplaced)) := by
    have h := congrArg (List.map some) hmap
    rw [List.map_map, List.map_map] at h
    rw [List.map_map]
    exact h
  refine ⟨.fn names cs, hcs, ?_, ?_⟩
  · rw [Phrase.tree, Expr.shape_fn, Reader.unplaced_originFrom, hnames, hcsTree,
      hs.literal_current hfn (by decide)]
  · rw [hs.view_eq (by rw [hfn]; decide), hs.terminal_current hfn (by decide),
      hs.ahead_eq_terminal hopen (by decide), hahead, hs₁.ahead_eq_terminal hbrace (by decide),
      hcsAhead, Phrase.yield]
    simp only [List.cons_append, List.append_assoc, List.nil_append]

/-- An array is derived as an atom. -/
theorem derives_arrayLiteral {r r' : Reader} {e : Expr} (hs : r.Sane)
    (hopen : r.current.kind = .lbracket) (hc : Clean (arrayLiteral expr) r e r') :
    ∃ c : Phrase 7, c.Covers e r.view r'.ahead := by
  obtain ⟨es, helements, hrest⟩ := (clean_arrayLiteral h).mp hc
  obtain ⟨cs, elements, rfl, hcs, htree, hahead⟩ :=
    derives_expressionList h hd (by decide) hs helements
  rcases hrest with ⟨⟨⟩, -⟩ | ⟨elements, ⟨⟩, rfl⟩
  refine ⟨.array cs, hcs, ?_, ?_⟩
  · rw [Phrase.tree, Expr.shape_array, Reader.unplaced_originFrom, htree,
      hs.literal_current hopen (by decide)]
  · rw [hs.view_eq (by rw [hopen]; decide), hs.terminal_current hopen (by decide), hahead,
      Phrase.yield]
    simp only [List.cons_append, List.append_assoc, List.nil_append]

/-- A hash is derived as an atom; the grammar has a production of its own for the empty one. -/
theorem derives_hashLiteral {r r' : Reader} {e : Expr} (hs : r.Sane)
    (hopen : r.current.kind = .lbrace) (hc : Clean (hashLiteral expr) r e r') :
    ∃ c : Phrase 7, c.Covers e r.view r'.ahead := by
  obtain ⟨ps, r₁, hpairs, hrest⟩ := (clean_hashLiteral h).mp hc
  obtain ⟨pairs, rfl, hcases⟩ := derives_hashPairs h hd hs (Nat.lt_succ_self _) hpairs
  rcases hrest with ⟨⟨⟩, -⟩ | ⟨pairs, ⟨⟩, hend, rfl, rfl⟩
  have hs₁ := hs.onward (hpairs.onward (moves_hashPairs h _))
  have hview := hs.view_eq (by rw [hopen]; decide)
  rw [hs.terminal_current hopen (by decide)] at hview
  have hlast := hs₁.ahead_eq_terminal hend (by decide)
  have hliteral := hs.literal_current hopen (by decide)
  rcases hcases with ⟨-, rfl, rfl⟩ | ⟨-, key, value, more, trailing, hproper, htree, hahead⟩
  · refine ⟨.emptyHash, trivial, ?_, ?_⟩
    · rw [Phrase.tree, Expr.shape_hash, Reader.unplaced_originFrom, hliteral, shapePairs_nil]
    · rw [hview, hlast]
      rfl
  · refine ⟨.hash key value more trailing, hproper, ?_, ?_⟩
    · rw [Phrase.tree, Expr.shape_hash, Reader.unplaced_originFrom, hliteral, htree]
    · rw [hview, hahead, hlast, Phrase.yield]
      simp only [List.cons_append, List.append_assoc, List.nil_append]

omit h hd in
/-- A single token that is a phrase. -/
theorem covers_token {r : Reader} {k : Kind} {e : Expr} {c : Phrase 7} (hs : r.Sane)
    (hk : r.current.kind = k) (hne : k ≠ .eof) (hproper : c.Proper) (htree : c.tree = e.shape)
    (hyield : c.yield = [⟨k, r.current.literal⟩]) : ∃ c : Phrase 7, c.Covers e r.view r.ahead := by
  refine ⟨c, hproper, htree, ?_⟩
  rw [hs.view_eq (hk ▸ hne), hyield, List.singleton_append, ← hk]
  rfl

/-- An operand is a phrase of the sixth stratum, or has a sign before it. -/
theorem derives_operand {r r' : Reader} {first : Parse Expr} {e : Expr} (hs : r.Sane)
    (hfirst : operand expr r.current = some first) (hc : Clean first r e r') :
    (∃ c : Phrase 6, c.Covers e r.view r'.ahead) ∨
      (r'.upcoming.kind.precedence ≤ 6 ∧ ∃ c : Phrase 5, c.Covers e r.view r'.ahead) := by
  have hatom (hatom : ∃ c : Phrase 7, c.Covers e r.view r'.ahead) :
      ∃ c : Phrase 6, c.Covers e r.view r'.ahead :=
    hatom.elim fun _ hcovers => hcovers.exists_lift (by decide)
  unfold operand at hfirst
  -- one case for each token that starts an operand; only signs leave a phrase that is no atom
  split at hfirst <;> cases hfirst
  case h_1 hk =>
      obtain ⟨rfl, rfl⟩ := clean_pure.mp hc
      exact .inl (hatom (covers_token hs hk (by decide) (c := .ident r'.current.literal)
        trivial rfl rfl))
  case h_2 hk =>
      obtain ⟨hfit, rfl, rfl⟩ := clean_integer.mp hc
      exact .inl (hatom (covers_token hs hk (by decide) (c := .int r'.current.literal)
        (Nat.le_pred_of_lt hfit) rfl rfl))
  case h_3 hk =>
      obtain ⟨rfl, rfl⟩ := clean_pure.mp hc
      exact .inl (hatom (covers_token hs hk (by decide) (c := .str r'.current.literal)
        trivial rfl rfl))
  case h_4 hk =>
      obtain ⟨rfl, rfl⟩ := clean_pure.mp hc
      have hliteral := hs.literal_current hk (by decide)
      refine .inl (hatom (covers_token hs hk (by decide) (c := .bool true) trivial ?_ ?_))
      · exact congrArg (fun l => Expr.bool (.ofLiteral l) true) hliteral.symm
      · rw [hliteral]
        rfl
  case h_5 hk =>
      obtain ⟨rfl, rfl⟩ := clean_pure.mp hc
      have hliteral := hs.literal_current hk (by decide)
      refine .inl (hatom (covers_token hs hk (by decide) (c := .bool false) trivial ?_ ?_))
      · exact congrArg (fun l => Expr.bool (.ofLiteral l) false) hliteral.symm
      · rw [hliteral]
        rfl
  case h_6 hk => exact .inr (derives_unaryExpression h hd hs .bang hk hc)
  case h_7 hk => exact .inr (derives_unaryExpression h hd hs .minus hk hc)
  case h_8 hk => exact .inl (hatom (derives_grouped h hd hs hk hc))
  case h_9 hk => exact .inl (hatom (derives_conditional h hd hs hk hc))
  case h_10 hk => exact .inl (hatom (derives_functionLiteral h hd hs hk hc))
  case h_11 hk => exact .inl (hatom (derives_arrayLiteral h hd hs hk hc))
  case h_12 hk => exact .inl (hatom (derives_hashLiteral h hd hs hk hc))

/-! ## Operators -/

/-- One operation on a left operand, of which a phrase of stratum `j` accounts for all that was
read: so does a phrase for the whole, and nothing that comes next binds tighter than the operators
of its stratum. -/
theorem derives_operation {above j : Nat} {r r' : Reader} {left e : Expr} {c : Phrase j}
    {ts : List Terminal} (hlow : 1 ≤ above) (hs : r.Sane) (hc : c.Covers left ts r.ahead)
    (hnext : j = 6 ∨ j ≤ 5 ∧ r.upcoming.kind.precedence ≤ j + 1)
    (hbinds : above < r.upcoming.kind.precedence)
    (hop : Clean (operation expr r.upcoming left) r.advance e r') :
    ∃ j', (∃ d : Phrase j', d.Covers e ts r'.ahead) ∧
      (j' = 6 ∨ j' ≤ 5 ∧ r'.upcoming.kind.precedence ≤ j' + 1) ∧ min above 5 ≤ j' := by
  have hliteral {k : Kind} (hk : r.upcoming.kind = k) (hspell : k.spelling ≠ []) :
      r.upcoming.literal = k.spelling := hs.advance.literal_current hk hspell
  rcases binds_cases (Nat.lt_of_le_of_lt hlow hbinds) with hk | hk | ⟨op, hk, hprec⟩
  · have hj : j = 6 := by
      rw [hk] at hnext
      exact hnext.resolve_right fun hle => absurd (show 7 ≤ j + 1 from hle.2) (by omega)
    subst hj
    obtain ⟨es, hargs, hcall⟩ := (clean_call h hk).mp hop
    obtain ⟨cs, args, rfl, hcs, hargsTree, hahead⟩ :=
      derives_expressionList h hd (by decide) hs.advance hargs
    rcases hcall with ⟨⟨⟩, -⟩ | ⟨args, ⟨⟩, rfl⟩
    refine ⟨6, ⟨.call c cs, ⟨hc.proper, hcs⟩, ?_, ?_⟩, .inl rfl, by omega⟩
    · rw [Phrase.tree, Expr.shape_call, Reader.unplaced_originAfter, hc.tree, hargsTree,
        hliteral hk (by decide)]
    · rw [hc.yield, hs.ahead_eq_terminal hk (by decide), hahead, Phrase.yield]
      simp only [List.cons_append, List.append_assoc, List.nil_append]
  · have hj : j = 6 := by
      rw [hk] at hnext
      exact hnext.resolve_right fun hle => absurd (show 8 ≤ j + 1 from hle.2) (by omega)
    subst hj
    obtain ⟨index, r₂, hindex, hend, rfl, rfl⟩ := (clean_index h hk).mp hop
    obtain ⟨-, ci, hiproper, hitree, hiview⟩ := derives_lowest hd hs.advance.advance hindex
    have hs₂ := hs.advance.advance.onward (hindex.onward (h _))
    refine ⟨6, ⟨.index c ci, ⟨hc.proper, hiproper⟩, ?_, ?_⟩, .inl rfl, by omega⟩
    · rw [Phrase.tree, Expr.shape_index, Reader.unplaced_originAfter, hc.tree, hitree,
        hliteral hk (by decide)]
    · rw [hc.yield, hs.ahead_eq_terminal hk (by decide), ← Reader.view_advance, hiview,
        hs₂.ahead_eq_terminal hend (by decide), Phrase.yield]
      simp only [List.cons_append, List.append_assoc, List.nil_append]
  · -- what is read so far is a phrase of the operator's stratum, since an operator that binds
    -- tighter would have been taken before
    have hstratum := op.stratum_le
    rw [hprec] at hbinds hnext
    have hlower : above ≤ op.stratum := Nat.le_of_lt_succ hbinds
    have hupper : op.stratum ≤ j := by
      rcases hnext with rfl | ⟨-, hle⟩
      · omega
      · exact Nat.le_of_succ_le_succ hle
    obtain ⟨cl, hl⟩ := hc.exists_lift hupper
    obtain ⟨right, hright, rfl⟩ := (clean_binary h (hk ▸ op.kind_ne_lparen)
      (hk ▸ op.kind_ne_lbracket)).mp hop
    rw [hprec] at hright
    obtain ⟨hstop', hphrase⟩ := hd (by omega) (by omega) hs.advance.advance hright
    obtain ⟨cr, hr⟩ := hphrase (op.stratum + 1) (by omega) (by omega)
    refine ⟨op.stratum, ⟨.binary op rfl cl cr, ⟨hl.proper, hr.proper⟩, ?_, ?_⟩,
      .inr ⟨by omega, hstop'⟩, by omega⟩
    · rw [Phrase.tree, Expr.shape_binary, Reader.unplaced_originAfter, hl.tree, hr.tree,
        op.ofToken_eq hk, hliteral hk op.spelling_ne_nil]
    · rw [hl.yield, hs.ahead_eq_terminal hk op.spelling_ne_nil, ← Reader.view_advance, hr.yield,
        Phrase.yield, List.append_assoc, List.cons_append]

/-- The loop over operators. Its invariant is the phrase `c` for what has been read so
far: nothing that comes next binds tighter than the operators of its stratum. -/
theorem derives_operations {above n j : Nat} {r r' : Reader} {left e : Expr}
    {c : Phrase j} {ts : List Terminal} (hlow : 1 ≤ above) (hs : r.Sane)
    (hn : r.tokens.length ≤ n) (hc : c.Covers left ts r.ahead)
    (hnext : j = 6 ∨ j ≤ 5 ∧ r.upcoming.kind.precedence ≤ j + 1) (habove : min above 5 ≤ j)
    (hops : Clean (operations expr above n left) r e r') :
    r'.upcoming.kind.precedence ≤ above ∧
      ∀ k, k ≤ above → k ≤ 5 → ∃ c' : Phrase k, c'.Covers e ts r'.ahead := by
  have hstop (k : Nat) (hk : k ≤ above) (hk' : k ≤ 5) :
      ∃ c' : Phrase k, c'.Covers left ts r.ahead :=
    hc.exists_lift (Nat.le_trans (Nat.le_min.mpr ⟨hk, hk'⟩) habove)
  induction n generalizing r left j with
  | zero =>
      obtain ⟨rfl, rfl⟩ := clean_pure.mp hops
      refine ⟨?_, hstop⟩
      -- no token is left, and the end binds nothing
      have hnil := List.eq_nil_of_length_eq_zero (Nat.le_zero.mp hn)
      have hend : r'.upcoming.kind = .eof := by
        rw [Reader.upcoming, hnil]
        exact hs.eof
      rw [hend]
      exact hlow
  | succ n ih =>
      rcases (clean_operations h).mp hops with ⟨hnot, rfl, rfl⟩ | ⟨hbinds, e₁, r₁, hop, hrest⟩
      · exact ⟨Nat.le_of_not_lt hnot, hstop⟩
      · have hs₁ : r₁.Sane := hs.advance.onward (hop.onward (moves_operation h _ _))
        have hlen : r₁.tokens.length ≤ n := by
          have hkind : r.upcoming.kind ≠ .eof := by
            intro hk
            rw [hk] at hbinds
            exact absurd hbinds (Nat.not_lt_of_le hlow)
          have := hs.length_advance_lt hkind
          have := (hop.onward (moves_operation h _ _)).tokens.length_le
          omega
        obtain ⟨j', ⟨d, hc'⟩, hnext', habove'⟩ := derives_operation h hd hlow hs hc hnext hbinds hop
        exact ih hs₁ hlen hc' hnext' habove' hrest fun k hk hk' =>
          hc'.exists_lift (Nat.le_trans (Nat.le_min.mpr ⟨hk, hk'⟩) habove')

end Rules

/-! ## Tying the knot -/

/-- Expressions derive what they read, however deep they may be nested. -/
theorem derives_expression (n : Nat) : Derives (expression n) := by
  induction n with
  | zero =>
      intro above r r' e hlow hhigh hs hc
      exact absurd hc not_clean_missingOperand
  | succ n ih =>
      intro above r r' e hlow hhigh hs hc
      obtain ⟨first, left, r₁, hfirst, hleft, hops⟩ := clean_expression.mp hc
      have hmove := hleft.onward (moves_operand (moves_expression n) hfirst)
      have hs₁ := hs.onward hmove
      rcases derives_operand (moves_expression n) ih hs hfirst hleft with ⟨c, hcovers⟩ |
        ⟨hnext, c, hcovers⟩
      · exact derives_operations (moves_expression n) ih hlow hs₁ hmove.tokens.length_le hcovers
          (.inl rfl) (by omega) hops
      · exact derives_operations (moves_expression n) ih hlow hs₁ hmove.tokens.length_le hcovers
          (.inr ⟨by omega, hnext⟩) (by omega) hops

end Monkey
