import Monkey.Proofs.Relocation
import Monkey.Proofs.Rules

/-!
# Readings in another place

A reading never looks at where a token stands, and never further ahead than the token after the
current one. So the same tokens give the same tree when they stand elsewhere, and when other tokens
follow them, as long as the reading ends before it could see those. The tree keeps the new places,
and so do the problems.

A transfer says what is different in the second reading: how positions are moved, the tokens that
follow, the end token, and the problems noted before. `Parse.Carries` says of two readings that the
second is the transfer of the first. The readings of a rule may be given different numbers of rounds
or of nested expressions, if both are as many as there are tokens left; so the relation has a bound
on these, which sinks with every token that is passed.
-/

namespace Monkey

/-! ## Moving -/

/-- Move both ends of a span. -/
def Span.move (f : Position → Position) (s : Span) : Span :=
  ⟨f s.start, f s.stop⟩

/-- Move the span of an origin. -/
def Origin.move (f : Position → Position) (o : Origin) : Origin :=
  ⟨o.literal, o.span.move f⟩

/-- Move a token. -/
def Token.move (f : Position → Position) (t : Token) : Token :=
  { t with span := t.span.move f }

/-- Move the token at which a problem was found. -/
def Problem.move (f : Position → Position) : Problem → Problem
  | .expected wanted found => .expected wanted (found.move f)
  | .noOperand found => .noOperand (found.move f)
  | .badInteger found => .badInteger (found.move f)

/-- Move a diagnostic. -/
def Diagnostic.move (f : Position → Position) (d : Diagnostic) : Diagnostic :=
  { d with span := d.span.move f }

/-- What is reported is the same, but for where. -/
theorem Problem.diagnostic_move (f : Position → Position) (p : Problem) :
    (p.move f).diagnostic = p.diagnostic.move f := by
  cases p <;> rfl

/-- What is different in a second reading: where the tokens stand, what follows them, and what was
noted before. -/
structure Transfer where
  move : Position → Position
  rest : List Token
  eof : Token
  noted : List Problem
  join_move (s s' : Span) : (s.move move).join (s'.move move) = (s.join s').move move

namespace Transfer

/-- A token in the second reading. -/
def token (T : Transfer) : Token → Token :=
  Token.move T.move

/-- An origin in the second reading. -/
def origin (T : Transfer) : Origin → Origin :=
  Origin.move T.move

/-- A name in the second reading. -/
def binder (T : Transfer) : Binder → Binder :=
  Binder.relocate T.origin

/-- An expression in the second reading. -/
def expr (T : Transfer) : Expr → Expr :=
  Expr.relocate T.origin T.origin

/-- Expressions in the second reading. -/
def exprs (T : Transfer) : List Expr → List Expr :=
  relocateExprs T.origin T.origin

/-- Keys with their values in the second reading. -/
def pairs (T : Transfer) : List (Expr × Expr) → List (Expr × Expr) :=
  relocatePairs T.origin T.origin

/-- A statement in the second reading. -/
def stmt (T : Transfer) : Stmt → Stmt :=
  Stmt.relocate T.origin T.origin

/-- Statements in the second reading. -/
def statements (T : Transfer) : List Stmt → List Stmt :=
  relocateStatements T.origin T.origin

/-- A block in the second reading. -/
def block (T : Transfer) : Block → Block :=
  Block.relocate T.origin T.origin

/-- The second reader. -/
def reader (T : Transfer) (r : Reader) : Reader :=
  ⟨r.tokens.map T.token ++ T.rest, T.eof, T.noted ++ r.problems.map (Problem.move T.move)⟩

/-- The second reader shows what the first one shows: nothing else follows, or there are still two
tokens to look at. -/
def Covers (T : Transfer) (r : Reader) : Prop :=
  (T.rest = [] ∧ T.eof = T.token r.eof) ∨ 2 ≤ r.tokens.length

variable {T : Transfer} {r r' : Reader}

/-- What covers a reader covers all readers that led to it. -/
theorem Covers.of_onward (h : T.Covers r') (ho : r.Onward r') : T.Covers r := by
  rcases h with ⟨hrest, heof⟩ | hlength
  · exact .inl ⟨hrest, ho.eof ▸ heof⟩
  · exact .inr (Nat.le_trans hlength ho.tokens.length_le)

/-- Carrying a token moves it and leaves its kind. -/
@[simp] theorem kind_token (t : Token) : (T.token t).kind = t.kind :=
  rfl

/-- The current token is carried. -/
theorem current_reader (h : T.Covers r) : (T.reader r).current = T.token r.current := by
  obtain ⟨tokens, eof, problems⟩ := r
  rcases h with ⟨hrest, heof⟩ | hlength
  · rw [reader, hrest, heof]
    cases tokens <;> rfl
  · cases tokens with
    | nil => exact absurd hlength (Nat.not_succ_le_zero 1)
    | cons t rest => rfl

/-- The next token is carried. -/
theorem upcoming_reader (h : T.Covers r) : (T.reader r).upcoming = T.token r.upcoming := by
  obtain ⟨tokens, eof, problems⟩ := r
  rcases h with ⟨hrest, heof⟩ | hlength
  · rw [reader, hrest, heof]
    rcases tokens with _ | ⟨t, _ | ⟨u, rest⟩⟩ <;> rfl
  · rcases tokens with _ | ⟨t, _ | ⟨u, rest⟩⟩
    · exact absurd hlength (Nat.not_succ_le_zero 1)
    · exact absurd hlength (Nat.not_succ_le_self 1)
    · rfl

/-- Moving on and carrying commute, as long as the next reader is covered. -/
theorem advance_reader (h : T.Covers r.advance) :
    (T.reader r).advance = T.reader r.advance := by
  obtain ⟨tokens, eof, problems⟩ := r
  cases tokens with
  | nil =>
      rcases h with ⟨hrest, -⟩ | hlength
      · show Reader.mk ([] ++ T.rest).tail _ _ = Reader.mk ([] ++ T.rest) _ _
        rw [hrest]
        rfl
      · exact absurd hlength (Nat.not_succ_le_zero 1)
  | cons t rest => rfl

/-- A problem that is noted is carried with the token that it names. -/
theorem note_reader (p : Problem) :
    (T.reader r).note (p.move T.move) = T.reader (r.note p) := by
  show Reader.mk _ _ (_ ++ _ ++ [_]) = Reader.mk _ _ (T.noted ++ (r.problems ++ [p]).map _)
  rw [List.map_append, List.append_assoc]
  rfl

/-- Where an expression stands is moved with it. -/
theorem span?_expr (e : Expr) : (T.expr e).span? = e.span?.map (Span.move T.move) := by
  cases e <;> rfl

/-- Where a node starts and ends is moved with the reader that ends it. -/
theorem originFrom_reader (h : T.Covers r) (t : Token) :
    (T.reader r).originFrom (T.token t) = T.origin (r.originFrom t) := by
  rw [Reader.originFrom, T.current_reader h]
  exact congrArg (Origin.mk t.literal) (T.join_move t.span r.current.span)

/-- The same for an operation, which starts where its left operand starts. -/
theorem originAfter_reader (h : T.Covers r) (left : Expr) (t : Token) :
    (T.reader r).originAfter (T.expr left) (T.token t) = T.origin (r.originAfter left t) := by
  rw [Reader.originAfter, Reader.originAfter, T.span?_expr]
  cases left.span? with
  | none => exact T.originFrom_reader h t
  | some span =>
      show Origin.mk t.literal ((span.move T.move).join (T.reader r).current.span) = _
      rw [T.current_reader h]
      exact congrArg (Origin.mk t.literal) (T.join_move span r.current.span)

/-- At the end of its tokens, the second reader is at the end too. -/
theorem atEnd_reader (h : T.Covers r) (hr : r.Sane) (hend : r.tokens = []) :
    (T.reader r).Sane ∧ (T.reader r).tokens = [] := by
  obtain ⟨tokens, eof, problems⟩ := r
  cases hend
  rcases h with ⟨hrest, heof⟩ | hlength
  · have htokens : (T.reader ⟨[], eof, problems⟩).tokens = [] := hrest
    refine ⟨⟨?_, ?_, ?_⟩, htokens⟩
    · show T.eof.kind = .eof
      rw [heof]
      exact hr.eof
    · rw [htokens]
      exact fun _ ht => absurd ht List.not_mem_nil
    · rw [htokens]
      exact fun _ ht => absurd ht List.not_mem_nil
  · exact absurd hlength (Nat.not_succ_le_zero 1)

end Transfer

namespace Parse

variable {T : Transfer} {n m : Nat} {α β γ δ : Type} {act : α → β} {act' : γ → δ}

/-- The second reading is the transfer of the first, if at most `n` tokens are left and the first
reading does not come so near to the end that the second sees what follows. -/
structure Carries (T : Transfer) (n : Nat) (act : α → β) (p : Parse α) (p' : Parse β) : Prop where
  moves : Moves p
  run (r : Reader) : r.Sane → r.tokens.length ≤ n → T.Covers (p.run r).2 →
    p'.run (T.reader r) = (act (p.run r).1, T.reader (p.run r).2)

namespace Carries

/-- What is carried with many tokens left is carried with fewer. -/
theorem mono {p : Parse α} {p' : Parse β} (h : Carries T n act p p') (hle : m ≤ n) :
    Carries T m act p p' :=
  ⟨h.moves, fun r hr hlength => h.run r hr (Nat.le_trans hlength hle)⟩

theorem pure (a : α) : Carries T n act (pure a) (pure (act a)) :=
  ⟨.pure a, fun _ _ _ _ => rfl⟩

/-- Readings in two parts are carried if their parts are, the second from values that are
carried. -/
theorem bind {p : Parse α} {p' : Parse β} {f : α → Parse γ} {f' : β → Parse δ}
    (hp : Carries T n act p p') (hf : ∀ a, Carries T n act' (f a) (f' (act a))) :
    Carries T n act' (p >>= f) (p' >>= f') := by
  refine ⟨.bind hp.moves fun a => (hf a).moves, fun r hr hlength hcovers => ?_⟩
  have honward := hp.moves r
  have hmiddle : T.Covers (p.run r).2 := hcovers.of_onward ((hf (p.run r).1).moves _)
  have hfirst := hp.run r hr hlength hmiddle
  have hsecond := (hf (p.run r).1).run _ (hr.onward honward)
    (Nat.le_trans honward.tokens.length_le hlength) hcovers
  show (f' (p'.run (T.reader r)).1).run (p'.run (T.reader r)).2 = _
  rw [hfirst]
  exact hsecond

/-- Choices are carried if both sides choose alike. -/
theorem ite {c : Prop} [Decidable c] {p q : Parse α} {p' q' : Parse β}
    (hp : Carries T n act p p') (hq : Carries T n act q q') :
    Carries T n act (if c then p else q) (if c then p' else q') := by
  by_cases hc : c
  · rw [if_pos hc, if_pos hc]
    exact hp
  · rw [if_neg hc, if_neg hc]
    exact hq

theorem current : Carries T n T.token current current := by
  refine ⟨.current, fun r _ _ hcovers => ?_⟩
  show ((T.reader r).current, T.reader r) = _
  rw [T.current_reader (r := r) hcovers]
  rfl

theorem upcoming : Carries T n T.token upcoming upcoming := by
  refine ⟨.upcoming, fun r _ _ hcovers => ?_⟩
  show ((T.reader r).upcoming, T.reader r) = _
  rw [T.upcoming_reader (r := r) hcovers]
  rfl

/-- A token that is passed is one less that is left. -/
theorem advance {p : Parse α} {p' : Parse β} (hp : Carries T (n - 1) act p p') :
    Carries T n act (advance >>= fun _ => p) (Parse.advance >>= fun _ => p') := by
  refine ⟨.bind .advance fun _ => hp.moves, fun r hr hlength hcovers => ?_⟩
  have hshorter : r.advance.tokens.length ≤ n - 1 := by
    show r.tokens.tail.length ≤ n - 1
    rw [List.length_tail]
    exact Nat.sub_le_sub_right hlength 1
  show p'.run (T.reader r).advance = _
  rw [T.advance_reader (hcovers.of_onward (hp.moves r.advance))]
  exact hp.run _ hr.advance hshorter hcovers

/-- A problem that is noted is noted on both sides, moved. -/
theorem note {f : Unit → Parse α} {f' : Unit → Parse β} (p : Problem)
    (hf : Carries T n act (f ()) (f' ())) :
    Carries T n act (Parse.note p >>= f) (Parse.note (p.move T.move) >>= f') := by
  refine ⟨.bind (.note p) fun _ => hf.moves, fun r hr hlength hcovers => ?_⟩
  show (f' ()).run ((T.reader r).note (p.move T.move)) = _
  rw [T.note_reader]
  exact hf.run _ (hr.onward (.note r p)) hlength hcovers

/-- A token that must come next: with it there is one token less, and without it a problem. At the
end there is no such token, and nothing is asked of what comes after it. -/
theorem requireNext {k : Kind} (hk : k ≠ .eof) {p q : Parse α} {p' q' : Parse β}
    (hp : ∀ m, n = m + 1 → Carries T m act p p') (hmoves : Moves p) (hq : Carries T n act q q') :
    Carries T n act (expect k >>= fun there => if there = true then p else q)
      (expect k >>= fun there => if there = true then p' else q') := by
  refine ⟨.require k hmoves hq.moves, fun r hr hlength hcovers => ?_⟩
  have hbefore : T.Covers r := hcovers.of_onward (Moves.require k hmoves hq.moves r)
  by_cases hupcoming : r.upcoming.kind = k
  · have hrun :
        (expect k >>= fun there => if there = true then p else q).run r = p.run r.advance := by
      show StateT.run (if ((expect k).run r).1 = true then p else q) ((expect k).run r).2 = _
      rw [run_expect, if_pos hupcoming]
      rfl
    rw [hrun] at hcovers ⊢
    -- the token that was required is passed, so one less is left for what follows
    have hshorter := hr.length_advance_lt (hupcoming ▸ hk)
    obtain ⟨m, rfl⟩ : ∃ m, n = m + 1 := ⟨n - 1, by omega⟩
    show StateT.run (if ((expect k).run (T.reader r)).1 = true then p' else q')
      ((expect k).run (T.reader r)).2 = _
    rw [run_expect, T.upcoming_reader hbefore,
      if_pos (show (T.token r.upcoming).kind = k from hupcoming),
      T.advance_reader (hcovers.of_onward (hmoves r.advance))]
    exact (hp m rfl).run _ hr.advance (by omega) hcovers
  · have hrun : (expect k >>= fun there => if there = true then p else q).run r =
        q.run (r.note (.expected k r.upcoming)) := by
      show StateT.run (if ((expect k).run r).1 = true then p else q) ((expect k).run r).2 = _
      rw [run_expect, if_neg hupcoming]
      rfl
    rw [hrun] at hcovers ⊢
    show StateT.run (if ((expect k).run (T.reader r)).1 = true then p' else q')
      ((expect k).run (T.reader r)).2 = _
    rw [run_expect, T.upcoming_reader hbefore,
      if_neg (show (T.token r.upcoming).kind ≠ k from hupcoming)]
    show q'.run ((T.reader r).note ((Problem.expected k r.upcoming).move T.move)) = _
    rw [T.note_reader]
    exact hq.run _ (hr.onward (.note r _)) hlength hcovers

/-- The same if what comes after the token may have the bound of one token less. -/
theorem require {k : Kind} (hk : k ≠ .eof) {p q : Parse α} {p' q' : Parse β}
    (hp : Carries T (n - 1) act p p') (hq : Carries T n act q q') :
    Carries T n act (expect k >>= fun there => if there = true then p else q)
      (expect k >>= fun there => if there = true then p' else q') :=
  requireNext hk (fun m hm => hp.mono (by omega)) hp.moves hq

/-- A token that is skipped is skipped on both sides. -/
theorem skip (k : Kind) : Carries T n id (skip k) (Parse.skip k) := by
  have hadvance : Carries T n id Parse.advance Parse.advance :=
    ⟨.advance, fun r _ _ hcovers => congrArg ((), ·) (T.advance_reader hcovers)⟩
  exact upcoming.bind fun t => .ite hadvance (.pure ())

/-- The origin of a node is carried. -/
theorem originFrom (t : Token) : Carries T n T.origin (originFrom t) (originFrom (T.token t)) :=
  ⟨.originFrom t, fun r _ _ hcovers =>
    congrArg (·, T.reader r) (T.originFrom_reader hcovers t)⟩

/-- The origin of an operation is carried with its left operand. -/
theorem originAfter (left : Expr) (t : Token) :
    Carries T n T.origin (originAfter left t) (originAfter (T.expr left) (T.token t)) := by
  refine ⟨.originAfter left t, fun r _ _ hcovers => ?_⟩
  rw [run_originAfter] at hcovers
  rw [run_originAfter, run_originAfter, T.originAfter_reader hcovers]

/-- A number of rounds that is taken from the tokens left is at least as large in the second
reading. -/
theorem rounds {f : Nat → Parse α} {f' : Nat → Parse β}
    (hf : ∀ k k', k ≤ k' → Carries T (min n k) act (f k) (f' k')) :
    Carries T n act (Bounded.rounds >>= f) (Bounded.rounds >>= f') := by
  refine ⟨.bind .rounds fun k => (hf k k (Nat.le_refl k)).moves, ?_⟩
  intro r hr hlength hcovers
  have hmore : r.tokens.length ≤ (T.reader r).tokens.length := by
    show r.tokens.length ≤ (r.tokens.map T.token ++ T.rest).length
    rw [List.length_append, List.length_map]
    exact Nat.le_add_right _ _
  exact (hf _ _ hmore).run r hr (Nat.le_min.mpr ⟨hlength, Nat.le_refl _⟩) hcovers

/-- Readings at the end of the tokens need only be compared there. -/
theorem atEnd {p q : Parse α} {p' q' : Parse β} (hq : Carries T 0 act q q') (hmoves : Moves p)
    (hp : ∀ r : Reader, r.Sane → r.tokens = [] → p.run r = q.run r)
    (hp' : ∀ r : Reader, r.Sane → r.tokens = [] → p'.run r = q'.run r) : Carries T 0 act p p' := by
  refine ⟨hmoves, fun r hr hlength hcovers => ?_⟩
  have hend : r.tokens = [] := List.eq_nil_of_length_eq_zero (Nat.le_zero.mp hlength)
  have hbefore : T.Covers r := hcovers.of_onward (hmoves r)
  obtain ⟨hr', hend'⟩ := T.atEnd_reader hbefore hr hend
  rw [hp r hr hend] at hcovers ⊢
  rw [hp' _ hr' hend']
  exact hq.run r hr hlength hcovers

end Carries

/-! ## Rules -/

section Rules

variable {expr expr' : Precedence → Parse Expr}

/-- The rules for expressions inside a rule are carried, at every precedence that an end token does
not exceed. -/
structure Knows (T : Transfer) (n : Nat) (expr expr' : Precedence → Parse Expr) : Prop where
  moves (above : Precedence) : Moves (expr above)
  carries (above : Precedence) :
    Precedence.lowest ≤ above → Carries T n T.expr (expr above) (expr' above)

theorem Knows.mono (h : Knows T n expr expr') (hle : m ≤ n) : Knows T m expr expr' :=
  ⟨h.moves, fun above habove => (h.carries above habove).mono hle⟩

/-- An expression of the lowest precedence inside a rule. -/
theorem Knows.lowest (h : Knows T n expr expr') (hle : m ≤ n) :
    Carries T m T.expr (expr .lowest) (expr' .lowest) :=
  (h.carries _ (Nat.le_refl _)).mono hle

/-- A let statement is carried, with its name and its value. -/
theorem carries_letStatement (h : Knows T n expr expr') :
    Carries T n (Option.map T.stmt) (letStatement expr) (letStatement expr') := by
  refine Carries.current.bind fun start => .require Kind.noConfusion ?_ (.pure none)
  refine Carries.current.bind fun name => .require Kind.noConfusion ?_ (.pure none)
  refine .advance ((h.lowest (by omega)).bind fun value => (Carries.skip _).bind fun _ => ?_)
  exact (Carries.originFrom start).bind fun origin =>
    .pure (some (Stmt.bind origin (some ⟨name.origin, name.literal⟩) value))

/-- A return statement is carried, with its value or without one. -/
theorem carries_returnStatement (h : Knows T n expr expr') :
    Carries T n T.stmt (returnStatement expr) (returnStatement expr') := by
  refine Carries.current.bind fun start => Carries.upcoming.bind fun next => ?_
  have hlast (value : Expr) : Carries T n T.stmt
      (do
        skip .semicolon
        return .ret (← originFrom start) value)
      (do
        skip .semicolon
        return .ret (← originFrom (T.token start)) (T.expr value)) :=
    (Carries.skip _).bind fun _ => (Carries.originFrom start).bind fun origin =>
      .pure (Stmt.ret origin value)
  refine .ite ((Carries.pure Expr.absent).bind hlast) ?_
  exact .advance ((h.lowest (by omega)).bind fun value => (hlast value).mono (by omega))

theorem carries_expressionStatement (h : Knows T n expr expr') :
    Carries T n T.stmt (expressionStatement expr) (expressionStatement expr') := by
  refine Carries.current.bind fun start => (h.lowest (Nat.le_refl n)).bind fun value => ?_
  exact (Carries.skip _).bind fun _ => (Carries.originFrom start).bind fun origin =>
    .pure (Stmt.expr origin value)

/-- A statement is carried, whichever it is: both sides see a token of the same kind. -/
theorem carries_statement (h : Knows T n expr expr') :
    Carries T n (Option.map T.stmt) (statement expr) (statement expr') := by
  refine Carries.current.bind fun t => ?_
  simp only [T.kind_token]
  generalize t.kind = k
  cases k with
  | letWord => exact carries_letStatement h
  | returnWord => exact (carries_returnStatement h).bind fun s => .pure (some s)
  | _ => exact (carries_expressionStatement h).bind fun s => .pure (some s)

/-- Without tokens, the current token is the end. -/
theorem kind_current_nil {r : Reader} (hr : r.Sane) (hend : r.tokens = []) :
    r.current.kind = .eof := by
  rw [Reader.current, hend]
  exact hr.eof

/-- Without tokens, the end comes next as well. -/
theorem kind_upcoming_nil {r : Reader} (hr : r.Sane) (hend : r.tokens = []) :
    r.upcoming.kind = .eof := by
  rw [Reader.upcoming, hend]
  exact hr.eof

/-- At the end there are no statements. -/
theorem run_statementsUntil_nil (closing : Option Kind) (k : Nat) {r : Reader} (hr : r.Sane)
    (hend : r.tokens = []) :
    (statementsUntil expr closing k).run r = ([], r) := by
  cases k with
  | zero => rfl
  | succ k =>
      show (ite (r.current.kind = .eof ∨ some r.current.kind = closing) _ _ : Parse _).run r = _
      rw [if_pos (.inl (kind_current_nil hr hend))]
      rfl

/-- One round of reading statements, before a token that is not the end. -/
theorem run_statementsUntil_succ {k : Nat} {first : Option Stmt} {r r' : Reader}
    (hk : r.current.kind ≠ .eof) (hfirst : (statement expr).run r = (first, r')) :
    (statementsUntil expr none (k + 1)).run r
      = (first.toList ++ ((statementsUntil expr none k).run r'.advance).1,
        ((statementsUntil expr none k).run r'.advance).2) := by
  have hmore : ¬ (r.current.kind = .eof ∨ some r.current.kind = none) := fun hstop =>
    hk (hstop.resolve_right (Option.some_ne_none _))
  show (ite (r.current.kind = .eof ∨ some r.current.kind = none) _ _ : Parse _).run r = _
  rw [if_neg hmore]
  show (do
    advance
    return ((statement expr).run r).1.toList ++ (← statementsUntil expr none k) : Parse _).run
      ((statement expr).run r).2 = _
  rw [hfirst]
  rfl

/-- Statements are carried one by one, also where there is none. -/
theorem statements_toList_append (first : Option Stmt) (rest : List Stmt) :
    T.statements (first.toList ++ rest) = (first.map T.stmt).toList ++ T.statements rest := by
  cases first <;> rfl

/-- Statements are carried, whatever rounds the two loops have, if they have one for each token. The
induction is on the tokens left. -/
theorem carries_statementsUntil (closing : Option Kind) (h : Knows T n expr expr') {k k' : Nat}
    (hk : n ≤ k) (hk' : n ≤ k') :
    Carries T n T.statements (statementsUntil expr closing k)
      (statementsUntil expr' closing k') := by
  induction n generalizing k k' with
  | zero =>
      refine Carries.atEnd (.pure []) (moves_statementsUntil h.moves closing k) ?_ ?_
      · exact fun r hr hend => run_statementsUntil_nil closing k hr hend
      · exact fun r hr hend => run_statementsUntil_nil closing k' hr hend
  | succ n ih =>
      obtain ⟨k, rfl⟩ : ∃ j, k = j + 1 := ⟨k - 1, by omega⟩
      obtain ⟨k', rfl⟩ : ∃ j, k' = j + 1 := ⟨k' - 1, by omega⟩
      refine Carries.current.bind fun t => .ite (.pure []) ?_
      refine (carries_statement h).bind fun first => .advance ?_
      refine (ih (h.mono (Nat.le_succ n)) (by omega) (by omega)).bind fun rest => ?_
      rw [← statements_toList_append]
      exact .pure _

/-- A block is carried. -/
theorem carries_block (h : Knows T (n - 1) expr expr') :
    Carries T n T.block (block expr) (block expr') := by
  refine Carries.current.bind fun start => .advance (.rounds fun k k' hk => ?_)
  have hknows : Knows T (min (n - 1) k) expr expr' := h.mono (Nat.min_le_left _ _)
  have hle : min (n - 1) k ≤ k := Nat.min_le_right _ _
  refine (carries_statementsUntil _ hknows hle (Nat.le_trans hle hk)).bind fun statements => ?_
  refine Carries.current.bind fun last => ?_
  have hlast : Carries T (min (n - 1) k) T.block
      (do return .of (← originFrom start) statements)
      (do return .of (← originFrom (T.token start)) (T.statements statements)) :=
    (Carries.originFrom start).bind fun origin => .pure (Block.of origin statements)
  exact .ite (.note (.expected .rbrace last) hlast) hlast

/-- At the end no list goes on. -/
theorem run_moreExpressions_nil (k : Nat) {r : Reader} (hr : r.Sane) (hend : r.tokens = []) :
    (moreExpressions expr k).run r = ([], r) := by
  cases k with
  | zero => rfl
  | succ k =>
      show (ite (r.upcoming.kind = .comma) _ _ : Parse _).run r = _
      rw [kind_upcoming_nil hr hend]
      rfl

/-- More expressions of a list are carried, by induction on the tokens left: each needs a comma,
which is one token less. -/
theorem carries_moreExpressions (h : Knows T n expr expr') {k k' : Nat} (hk : n ≤ k)
    (hk' : n ≤ k') :
    Carries T n T.exprs (moreExpressions expr k) (moreExpressions expr' k') := by
  induction n generalizing k k' with
  | zero =>
      refine Carries.atEnd (.pure []) (moves_moreExpressions h.moves k) ?_ ?_
      · exact fun r hr hend => run_moreExpressions_nil k hr hend
      · exact fun r hr hend => run_moreExpressions_nil k' hr hend
  | succ n ih =>
      obtain ⟨k, rfl⟩ : ∃ j, k = j + 1 := ⟨k - 1, by omega⟩
      obtain ⟨k', rfl⟩ : ∃ j, k' = j + 1 := ⟨k' - 1, by omega⟩
      refine Carries.upcoming.bind fun t => .ite ?_ (.pure [])
      refine .advance (.advance ((h.lowest (by omega)).bind fun first => ?_))
      have hrest := ih (h.mono (Nat.le_succ n)) (Nat.le_of_succ_le_succ hk)
        (Nat.le_of_succ_le_succ hk')
      exact (hrest.mono (by omega)).bind fun rest => .pure (first :: rest)

/-- A list of expressions is carried up to its closing token. -/
theorem carries_expressionList (closing : Kind) (hclosing : closing ≠ .eof)
    (h : Knows T (n - 1) expr expr') :
    Carries T n (Option.map T.exprs) (expressionList expr closing)
      (expressionList expr' closing) := by
  refine Carries.upcoming.bind fun t => .ite (.advance (.pure (some []))) (.advance ?_)
  refine (h.lowest (Nat.le_refl _)).bind fun first => .rounds fun k k' hk => ?_
  have hknows : Knows T (min (n - 1) k) expr expr' := h.mono (Nat.min_le_left _ _)
  have hle : min (n - 1) k ≤ k := Nat.min_le_right _ _
  refine (carries_moreExpressions hknows hle (Nat.le_trans hle hk)).bind fun rest => ?_
  exact .require hclosing (.pure (some (first :: rest))) (.pure none)

/-- At the end no parameters go on. -/
theorem run_moreParameters_nil (k : Nat) {r : Reader} (hr : r.Sane) (hend : r.tokens = []) :
    (moreParameters k : Parse _).run r = (some [], r) := by
  cases k with
  | zero => rfl
  | succ k =>
      show (ite (r.upcoming.kind = .comma) _ _ : Parse _).run r = _
      rw [kind_upcoming_nil hr hend]
      rfl

/-- More parameters are carried, by induction on the tokens left. -/
theorem carries_moreParameters {k k' : Nat} (hk : n ≤ k) (hk' : n ≤ k') :
    Carries T n (Option.map (List.map T.binder)) (moreParameters k) (moreParameters k') := by
  induction n generalizing k k' with
  | zero =>
      refine Carries.atEnd (.pure (some [])) (moves_moreParameters k) ?_ ?_
      · exact fun r hr hend => run_moreParameters_nil k hr hend
      · exact fun r hr hend => run_moreParameters_nil k' hr hend
  | succ n ih =>
      obtain ⟨k, rfl⟩ : ∃ j, k = j + 1 := ⟨k - 1, by omega⟩
      obtain ⟨k', rfl⟩ : ∃ j, k' = j + 1 := ⟨k' - 1, by omega⟩
      refine Carries.upcoming.bind fun t => .ite (.advance ?_) (.pure (some []))
      refine .require Kind.noConfusion (Carries.current.bind fun name => ?_) (.pure none)
      have hrest := ih (Nat.le_of_succ_le_succ hk) (Nat.le_of_succ_le_succ hk')
      refine (hrest.mono (by omega)).bind fun rest => ?_
      cases rest with
      | none => exact .pure none
      | some rest => exact .pure (some (⟨name.origin, name.literal⟩ :: rest))

/-- The parameters of a function are carried. -/
theorem carries_parameters :
    Carries T n (Option.map (List.map T.binder)) parameters parameters := by
  refine Carries.upcoming.bind fun t => .ite (.advance (.pure (some []))) ?_
  refine .require Kind.noConfusion (Carries.current.bind fun name => ?_) (.pure none)
  refine .rounds fun k k' hk => ?_
  have hle : min (n - 1) k ≤ k := Nat.min_le_right _ _
  refine (carries_moreParameters hle (Nat.le_trans hle hk)).bind fun rest => ?_
  cases rest with
  | none => exact .pure none
  | some rest =>
      exact .require Kind.noConfusion (.pure (some (⟨name.origin, name.literal⟩ :: rest)))
        (.pure none)

/-- The rest of the pairs is carried, once a pair was. -/
theorem carries_morePairs {k k' : Nat}
    (h : Carries T n (Option.map T.pairs) (hashPairs expr k) (hashPairs expr' k'))
    (key value : Expr) : Carries T n (Option.map T.pairs)
      (do
        match ← hashPairs expr k with
        | some rest => return some ((key, value) :: rest)
        | none => return none)
      (do
        match ← hashPairs expr' k' with
        | some rest => return some ((T.expr key, T.expr value) :: rest)
        | none => return none) := by
  refine h.bind fun rest => ?_
  cases rest with
  | none => exact .pure none
  | some rest => exact .pure (some ((key, value) :: rest))

/-- Each key is followed by a colon, so there are fewer tokens left for the pairs after it. -/
theorem carries_hashPairs {k k' : Nat} (h : Knows T (n - 1) expr expr') (hk : n + 1 ≤ k)
    (hk' : n + 1 ≤ k') :
    Carries T n (Option.map T.pairs) (hashPairs expr k) (hashPairs expr' k') := by
  induction k generalizing n k' with
  | zero => exact absurd hk (Nat.not_succ_le_zero n)
  | succ k ih =>
      obtain ⟨k', rfl⟩ : ∃ j, k' = j + 1 := ⟨k' - 1, by omega⟩
      refine Carries.upcoming.bind fun t => .ite (.pure (some [])) (.advance ?_)
      refine (h.lowest (by omega)).bind fun key => ?_
      have hpairs {j : Nat} (hj : j < n) :
          Carries T j (Option.map T.pairs) (hashPairs expr k) (hashPairs expr' k') :=
        ih (h.mono (by omega)) (by omega) (by omega)
      have hmoves (value : Expr) := moves_morePairs h.moves k key value
      refine .requireNext Kind.noConfusion (fun j hj => .advance ?_) ?_ (.pure none)
      · refine (h.lowest (by omega)).bind fun value => Carries.upcoming.bind fun next => ?_
        refine .ite (.requireNext Kind.noConfusion (fun i hi => ?_) (hmoves value) (.pure none)) ?_
        · exact carries_morePairs (hpairs (by omega)) key value
        · exact carries_morePairs (hpairs (by omega)) key value
      · refine .bind .advance fun _ => .bind (h.moves _) fun value => .bind .upcoming fun next => ?_
        exact .ite (.require _ (hmoves value) (.pure none)) (hmoves value)

/-- A numeral is carried, and so is the problem that it is too large. -/
theorem carries_integer (t : Token) : Carries T n T.expr (integer t) (integer (T.token t)) :=
  .ite (.pure (Expr.int t.origin (Int64.ofNat (Text.decimal t.literal))))
    (.note (.badInteger t) (.pure Expr.absent))

theorem carries_unaryExpression (op : UnaryOp) (h : Knows T (n - 1) expr expr') :
    Carries T n T.expr (unaryExpression expr op) (unaryExpression expr' op) := by
  refine Carries.current.bind fun start => .advance ?_
  refine (h.carries .unary (Nat.le_add_left 1 5)).bind fun operand => ?_
  exact (Carries.originFrom start).bind fun origin => .pure (Expr.unary origin op operand)

/-- What is in parentheses is carried. -/
theorem carries_grouped (h : Knows T (n - 1) expr expr') :
    Carries T n T.expr (grouped expr) (grouped expr') :=
  .advance <| (h.lowest (Nat.le_refl _)).bind fun inner =>
    .require Kind.noConfusion (.pure inner) (.pure Expr.absent)

/-- A conditional is carried, with or without `else`, and wherever it gives up. -/
theorem carries_conditional (h : Knows T (n - 1) expr expr') :
    Carries T n T.expr (conditional expr) (conditional expr') := by
  refine Carries.current.bind fun start =>
    .require Kind.noConfusion (.advance ?_) (.pure Expr.absent)
  refine (h.lowest (by omega)).bind fun test => ?_
  refine .require Kind.noConfusion (.require Kind.noConfusion ?_ (.pure Expr.absent))
    (.pure Expr.absent)
  refine (carries_block (h.mono (by omega))).bind fun consequence => ?_
  refine Carries.upcoming.bind fun next => .ite (.advance ?_) ?_
  · refine .require Kind.noConfusion ?_ (.pure Expr.absent)
    refine (carries_block (h.mono (by omega))).bind fun alternative => ?_
    exact (Carries.originFrom start).bind fun origin =>
      .pure (Expr.cond origin test consequence alternative)
  · exact (Carries.originFrom start).bind fun origin =>
      .pure (Expr.cond origin test consequence .absent)

/-- A function is carried, with its parameters and its body. -/
theorem carries_functionLiteral (h : Knows T (n - 1) expr expr') :
    Carries T n T.expr (functionLiteral expr) (functionLiteral expr') := by
  refine Carries.current.bind fun start => .require Kind.noConfusion ?_ (.pure Expr.absent)
  refine carries_parameters.bind fun params => ?_
  cases params with
  | none => exact .pure Expr.absent
  | some params =>
      refine .require Kind.noConfusion ?_ (.pure Expr.absent)
      refine (carries_block (h.mono (by omega))).bind fun body => ?_
      refine (Carries.originFrom start).bind fun origin => ?_
      have hparams :
          (params.map T.binder).map some = (params.map some).map (Option.map T.binder) := by
        rw [List.map_map, List.map_map]
        rfl
      rw [hparams]
      exact .pure (Expr.fn origin (params.map some) body)

/-- An array is carried. -/
theorem carries_arrayLiteral (h : Knows T (n - 1) expr expr') :
    Carries T n T.expr (arrayLiteral expr) (arrayLiteral expr') := by
  refine Carries.current.bind fun start => ?_
  refine (carries_expressionList _ Kind.noConfusion h).bind fun elements => ?_
  cases elements with
  | none => exact .pure Expr.absent
  | some elements =>
      exact (Carries.originFrom start).bind fun origin => .pure (Expr.array origin elements)

/-- A hash is carried. -/
theorem carries_hashLiteral (h : Knows T (n - 1) expr expr') :
    Carries T n T.expr (hashLiteral expr) (hashLiteral expr') := by
  refine Carries.current.bind fun start => .rounds fun k k' hk => ?_
  have hle : min n k ≤ k := Nat.min_le_right n k
  have hknows : Knows T (min n k - 1) expr expr' :=
    h.mono (Nat.sub_le_sub_right (Nat.min_le_left n k) 1)
  refine (carries_hashPairs hknows (by omega) (by omega)).bind fun pairs => ?_
  cases pairs with
  | none => exact .pure Expr.absent
  | some pairs =>
      refine .require Kind.noConfusion ?_ (.pure Expr.absent)
      exact (Carries.originFrom start).bind fun origin => .pure (Expr.hash origin pairs)

/-- What starts an operand in one reading starts the same operand in the other. -/
theorem carries_operand (h : Knows T (n - 1) expr expr') (t : Token) :
    Option.Rel (Carries T n T.expr) (operand expr t) (operand expr' (T.token t)) := by
  have hkind : (T.token t).kind = t.kind := rfl
  unfold operand
  rw [hkind]
  generalize t.kind = k
  cases k with
  | ident => exact .some (.pure (Expr.ident t.origin t.literal))
  | int => exact .some (carries_integer t)
  | str => exact .some (.pure (Expr.str t.origin t.literal))
  | trueWord => exact .some (.pure (Expr.bool t.origin true))
  | falseWord => exact .some (.pure (Expr.bool t.origin false))
  | bang => exact .some (carries_unaryExpression .not h)
  | minus => exact .some (carries_unaryExpression .neg h)
  | lparen => exact .some (carries_grouped h)
  | ifWord => exact .some (carries_conditional h)
  | fnWord => exact .some (carries_functionLiteral h)
  | lbracket => exact .some (carries_arrayLiteral h)
  | lbrace => exact .some (carries_hashLiteral h)
  | _ => exact .none

/-- No operator binds looser than what is no operator. -/
theorem lowest_le_precedence (k : Kind) : Precedence.lowest ≤ k.precedence := by
  cases k <;> decide

/-- An operation is carried: a call, an indexing, or an operator with its right operand. -/
theorem carries_operation (h : Knows T (n - 1) expr expr') (t : Token) (left : Expr) :
    Carries T n T.expr (operation expr t left) (operation expr' (T.token t) (T.expr left)) := by
  have hkind : (T.token t).kind = t.kind := rfl
  have hop : BinaryOp.ofToken (T.token t) = .ofToken t := rfl
  have hbinary : Carries T n T.expr
      (do
        advance
        let right ← expr t.kind.precedence
        return .binary (← originAfter left t) (.ofToken t) left right)
      (do
        advance
        let right ← expr' t.kind.precedence
        return .binary (← originAfter (T.expr left) (T.token t)) (.ofToken (T.token t))
          (T.expr left) right) := by
    refine .advance ((h.carries _ (lowest_le_precedence _)).bind fun right => ?_)
    rw [hop]
    exact (Carries.originAfter left t).bind fun origin =>
      .pure (Expr.binary origin (.ofToken t) left right)
  unfold operation
  rw [hkind]
  generalize t.kind = k at hbinary ⊢
  -- calls and index expressions have tokens of their own; all other operators are alike
  cases k with
  | lparen =>
      refine (carries_expressionList _ Kind.noConfusion h).bind fun args => ?_
      cases args with
      | none => exact .pure Expr.absent
      | some args =>
          exact (Carries.originAfter left t).bind fun origin => .pure (Expr.call origin left args)
  | lbracket =>
      refine .advance ((h.lowest (Nat.le_refl _)).bind fun index => ?_)
      refine .require Kind.noConfusion ?_ (.pure Expr.absent)
      exact (Carries.originAfter left t).bind fun origin => .pure (Expr.index origin left index)
  | _ => exact hbinary

/-- At the end no operation goes on. -/
theorem run_operations_nil {above : Precedence} (habove : Precedence.lowest ≤ above) (k : Nat)
    (left : Expr) {r : Reader} (hr : r.Sane) (hend : r.tokens = []) :
    (operations expr above k left).run r = (left, r) := by
  cases k with
  | zero => rfl
  | succ k =>
      have hloose : ¬ above < Kind.eof.precedence := Nat.not_lt.mpr habove
      show (ite (above < r.upcoming.kind.precedence) _ _ : Parse _).run r = _
      rw [kind_upcoming_nil hr hend, if_neg hloose]
      rfl

/-- Operations are carried, by induction on the tokens left: each has an operator, which is one
token less. -/
theorem carries_operations {above : Precedence} (habove : Precedence.lowest ≤ above)
    (h : Knows T (n - 1) expr expr') {k k' : Nat} (hk : n ≤ k) (hk' : n ≤ k') (left : Expr) :
    Carries T n T.expr (operations expr above k left)
      (operations expr' above k' (T.expr left)) := by
  induction n generalizing k k' left with
  | zero =>
      refine Carries.atEnd (.pure left) (moves_operations h.moves above k left) ?_ ?_
      · exact fun r hr hend => run_operations_nil habove k left hr hend
      · exact fun r hr hend => run_operations_nil habove k' _ hr hend
  | succ n ih =>
      obtain ⟨k, rfl⟩ : ∃ j, k = j + 1 := ⟨k - 1, by omega⟩
      obtain ⟨k', rfl⟩ : ∃ j, k' = j + 1 := ⟨k' - 1, by omega⟩
      refine Carries.upcoming.bind fun t => .ite (.advance ?_) (.pure left)
      refine (carries_operation (h.mono (by omega)) t left).bind fun left' => ?_
      exact ih (h.mono (by omega)) (Nat.le_of_succ_le_succ hk) (Nat.le_of_succ_le_succ hk') left'

end Rules

/-! ## Expressions and programs -/

theorem carries_missingOperand : Carries T n T.expr missingOperand missingOperand :=
  Carries.current.bind fun t => .note (.noOperand t) (.pure Expr.absent)

theorem run_current_bind {α : Type} (f : Token → Parse α) (r : Reader) :
    (current >>= f).run r = (f r.current).run r :=
  rfl

/-- At the end no expression starts. -/
theorem run_expression_nil (k : Nat) (above : Precedence) {r : Reader} (hr : r.Sane)
    (hend : r.tokens = []) : (expression k above).run r = missingOperand.run r := by
  cases k with
  | zero => rfl
  | succ k =>
      have hnone : operand (expression k) r.current = none := by
        rw [operand, kind_current_nil hr hend]
      simp only [expression, climb, monadLift_self, run_current_bind, hnone]

/-- Expressions are carried, however many may be inside one another, if these are as many as there
are tokens. The induction is on the tokens: an expression inside another starts at a later one. -/
theorem knows_expression {k k' : Nat} (hk : n ≤ k) (hk' : n ≤ k') :
    Knows T n (expression k) (expression k') := by
  refine ⟨moves_expression k, fun above habove => ?_⟩
  induction n generalizing k k' above with
  | zero =>
      refine Carries.atEnd carries_missingOperand (moves_expression k above) ?_ ?_
      · exact fun r hr hend => run_expression_nil k above hr hend
      · exact fun r hr hend => run_expression_nil k' above hr hend
  | succ n ih =>
      obtain ⟨k, rfl⟩ : ∃ j, k = j + 1 := ⟨k - 1, by omega⟩
      obtain ⟨k', rfl⟩ : ∃ j, k' = j + 1 := ⟨k' - 1, by omega⟩
      have hknows : Knows T n (expression k) (expression k') :=
        ⟨moves_expression k, fun q hq => ih (by omega) (by omega) q hq⟩
      refine Carries.current.bind fun t => ?_
      have hoperand := carries_operand (n := n + 1) hknows t
      revert hoperand
      generalize operand (expression k) t = p, operand (expression k') (T.token t) = p'
      rintro (⟨hfirst⟩ | _)
      · refine .rounds fun j j' hj => ?_
        have hle : min (n + 1) j ≤ j := Nat.min_le_right _ _
        refine (hfirst.mono (Nat.min_le_left _ _)).bind fun left => ?_
        exact carries_operations habove (hknows.mono (by omega)) hle (Nat.le_trans hle hj) left
      · exact carries_missingOperand

/-- A program is carried. -/
theorem carries_program : Carries T n (Program.relocate T.origin T.origin) program program := by
  refine .rounds fun k k' hk => Carries.current.bind fun start => .rounds fun j j' hj => ?_
  have hle : min (min n k) j ≤ j := Nat.min_le_right _ j
  have hknows : Knows T (min (min n k) j) (expression (k + 1)) (expression (k' + 1)) :=
    knows_expression (by omega) (by omega)
  refine (carries_statementsUntil none hknows hle (Nat.le_trans hle hj)).bind fun statements => ?_
  refine Carries.current.bind fun last => ?_
  exact .pure (⟨⟨start.literal, ⟨start.span.start, last.span.stop⟩⟩, statements⟩ : Program)

end Parse

end Monkey
