import Monkey.Proofs.Reading

/-!
# The rules, inverted

For each rule of the parser, what its clean readings are, in terms of the clean
readings of the expressions inside it. Both directions are kept: from left to right
a clean reading is taken apart, from right to left it is put together. Later proofs
about the parser use these statements, and none of them opens a rule again.
-/

namespace Monkey.Parse

/-- What always yields something is read without problems exactly if what it makes it of is. -/
theorem clean_some_bind {α : Type} {p : Parse α} (hp : Moves p) {r r' : Reader} {s : Option α} :
    Clean (p >>= fun a => pure (some a)) r s r' ↔ ∃ a, Clean p r a r' ∧ s = some a := by
  rw [clean_bind hp fun _ => .pure _]
  simp only [clean_pure]
  constructor
  · rintro ⟨a, r₁, ha, rfl, rfl⟩
    exact ⟨a, ha, rfl⟩
  · rintro ⟨a, ha, rfl⟩
    exact ⟨a, r', ha, rfl, rfl⟩

section Rules

variable {expr : Precedence → Parse Expr} (h : ∀ q, Moves (expr q)) {r r' : Reader}
include h

/-! ## Statements -/

/-- A let statement without problems: a name, an equals sign, an expression without problems, and a
semicolon that may be left out. -/
theorem clean_letStatement {s : Option Stmt} :
    Clean (letStatement expr) r s r' ↔
      r.upcoming.kind = .ident ∧ r.advance.upcoming.kind = .assign ∧ ∃ value r₁,
        Clean (expr .lowest) r.advance.advance.advance value r₁ ∧ r' = r₁.skip .semicolon ∧
        s = some (.bind (r'.originFrom r.current)
          (some ⟨r.advance.current.origin, r.advance.current.literal⟩) value) := by
  unfold letStatement
  simp only [monadLift_self, clean_current_bind, clean_require, clean_advance_bind]
  rw [clean_bind (h _) fun _ => .bind (.skip _) fun _ => .bind (.originFrom _) fun _ => .pure _]
  simp only [clean_skip_bind, clean_originFrom_bind, clean_pure]
  refine and_congr_right fun _ => and_congr_right fun _ => ?_
  constructor
  · rintro ⟨value, r₁, hvalue, rfl, rfl⟩
    exact ⟨value, r₁, hvalue, rfl, rfl⟩
  · rintro ⟨value, r₁, hvalue, rfl, rfl⟩
    exact ⟨value, r₁, hvalue, rfl, rfl⟩

/-- Whether the value of a return statement may be left out before a token. -/
def endsReturn (k : Kind) : Prop :=
  k = .semicolon ∨ k = .rbrace ∨ k = .eof

/-- A return statement without problems: either its value is left out, because what comes next ends
it, or an expression without problems follows. -/
theorem clean_returnStatement {s : Stmt} :
    Clean (returnStatement expr) r s r' ↔
      (endsReturn r.upcoming.kind ∧ r' = r.skip .semicolon ∧
        s = .ret (r'.originFrom r.current) .absent) ∨
      (¬ endsReturn r.upcoming.kind ∧ ∃ value r₁, Clean (expr .lowest) r.advance value r₁ ∧
        r' = r₁.skip .semicolon ∧ s = .ret (r'.originFrom r.current) value) := by
  have hlast (value : Expr) : Moves (do
      skip .semicolon
      return Stmt.ret (← originFrom r.current) value) :=
    .bind (.skip _) fun _ => .bind (.originFrom _) fun _ => .pure _
  unfold returnStatement endsReturn
  simp only [monadLift_self, clean_current_bind, clean_upcoming_bind]
  by_cases hend : r.upcoming.kind = .semicolon ∨ r.upcoming.kind = .rbrace ∨ r.upcoming.kind = .eof
  · rw [if_pos hend]
    simp only [pure_bind, clean_skip_bind, clean_originFrom_bind, clean_pure, hend, true_and,
      not_true_eq_false, false_and, or_false]
    constructor
    · rintro ⟨rfl, rfl⟩
      exact ⟨rfl, rfl⟩
    · rintro ⟨rfl, rfl⟩
      exact ⟨rfl, rfl⟩
  · rw [if_neg hend]
    simp only [clean_advance_bind, hend, false_and, not_false_eq_true, true_and, false_or]
    rw [clean_bind (h _) hlast]
    simp only [clean_skip_bind, clean_originFrom_bind, clean_pure]
    constructor
    · rintro ⟨value, r₁, hvalue, rfl, rfl⟩
      exact ⟨value, r₁, hvalue, rfl, rfl⟩
    · rintro ⟨value, r₁, hvalue, rfl, rfl⟩
      exact ⟨value, r₁, hvalue, rfl, rfl⟩

/-- An expression as a statement without problems, with a semicolon that may be left out. -/
theorem clean_expressionStatement {s : Stmt} :
    Clean (expressionStatement expr) r s r' ↔ ∃ value r₁, Clean (expr .lowest) r value r₁ ∧
      r' = r₁.skip .semicolon ∧ s = .expr (r'.originFrom r.current) value := by
  unfold expressionStatement
  simp only [monadLift_self, clean_current_bind]
  rw [clean_bind (h _) fun _ => .bind (.skip _) fun _ => .bind (.originFrom _) fun _ => .pure _]
  simp only [clean_skip_bind, clean_originFrom_bind, clean_pure]
  constructor
  · rintro ⟨value, r₁, hvalue, rfl, rfl⟩
    exact ⟨value, r₁, hvalue, rfl, rfl⟩
  · rintro ⟨value, r₁, hvalue, rfl, rfl⟩
    exact ⟨value, r₁, hvalue, rfl, rfl⟩

/-- Which statement is read without problems is decided by the current token. -/
theorem clean_statement {s : Option Stmt} :
    Clean (statement expr) r s r' ↔
      (r.current.kind = .letWord ∧ Clean (letStatement expr) r s r') ∨
      (r.current.kind = .returnWord ∧ ∃ s₁, Clean (returnStatement expr) r s₁ r' ∧ s = some s₁) ∨
      (r.current.kind ≠ .letWord ∧ r.current.kind ≠ .returnWord ∧
        ∃ s₁, Clean (expressionStatement expr) r s₁ r' ∧ s = some s₁) := by
  unfold statement
  simp only [monadLift_self, clean_current_bind]
  split
  · rename_i hk
    simp [hk]
  · rename_i hk
    rw [clean_some_bind (moves_returnStatement h)]
    simp [hk]
  · rename_i hlet hret
    have hlet' : r.current.kind ≠ .letWord := hlet
    have hret' : r.current.kind ≠ .returnWord := hret
    rw [clean_some_bind (moves_expressionStatement h)]
    simp [hlet', hret']

/-- Statements without problems, one round of the loop: it ends at a closing token or at the end, or
a statement is read and the rest after it. -/
theorem clean_statementsUntil {closing : Option Kind} {n : Nat} {ss : List Stmt} :
    Clean (statementsUntil expr closing (n + 1)) r ss r' ↔
      ((r.current.kind = .eof ∨ some r.current.kind = closing) ∧ ss = [] ∧ r' = r) ∨
      (¬ (r.current.kind = .eof ∨ some r.current.kind = closing) ∧ ∃ first r₁ rest,
        Clean (statement expr) r first r₁ ∧
        Clean (statementsUntil expr closing n) r₁.advance rest r' ∧
        ss = first.toList ++ rest) := by
  rw [statementsUntil]
  simp only [monadLift_self, clean_current_bind]
  -- the loop stops at a closing token or at the end; a statement that failed adds nothing
  by_cases hstop : r.current.kind = .eof ∨ some r.current.kind = closing
  · rw [if_pos hstop]
    simp [hstop]
  · rw [if_neg hstop, clean_bind (moves_statement h) fun _ => .bind .advance fun _ =>
      .bind (moves_statementsUntil h closing n) fun _ => .pure _]
    simp only [hstop, false_and, not_false_eq_true, true_and, false_or]
    constructor
    · rintro ⟨first, r₁, hfirst, hrest⟩
      rw [clean_advance_bind,
        clean_bind (moves_statementsUntil h closing n) fun _ => .pure _] at hrest
      obtain ⟨rest, r₂, hrest, hss⟩ := hrest
      obtain ⟨rfl, rfl⟩ := clean_pure.mp hss
      exact ⟨first, r₁, rest, hfirst, hrest, rfl⟩
    · rintro ⟨first, r₁, rest, hfirst, hrest, rfl⟩
      refine ⟨first, r₁, hfirst, ?_⟩
      rw [clean_advance_bind, clean_bind (moves_statementsUntil h closing n) fun _ => .pure _]
      exact ⟨rest, r', hrest, clean_pure.mpr ⟨rfl, rfl⟩⟩

/-- A block without problems is closed: only then does its reading not come to the end. -/
theorem clean_block {b : Block} :
    Clean (block expr) r b r' ↔ ∃ statements,
      Clean (statementsUntil expr (some .rbrace) r.advance.tokens.length) r.advance statements r' ∧
      r'.current.kind ≠ .eof ∧ b = .of (r'.originFrom r.current) statements := by
  have hend (statements : List Stmt) (r₁ : Reader) :
      Clean (current >>= fun last => if last.kind = .eof
          then note (.expected .rbrace last) >>= fun _ => originFrom r.current >>= fun o =>
            pure (Block.of o statements)
          else originFrom r.current >>= fun o => pure (Block.of o statements)) r₁ b r'
        ↔ r' = r₁ ∧ r'.current.kind ≠ .eof ∧ b = .of (r'.originFrom r.current) statements := by
    rw [clean_current_bind]
    by_cases hk : r₁.current.kind = .eof
    · rw [if_pos hk]
      -- at the end token a brace is missing, which is a problem
      refine ⟨fun hc => absurd hc (not_clean_note_bind _ fun _ => ?_), ?_⟩
      · exact .bind (.originFrom _) fun _ => .pure _
      · rintro ⟨rfl, hne, -⟩
        exact absurd hk hne
    · rw [if_neg hk]
      simp only [clean_originFrom_bind, clean_pure]
      constructor
      · rintro ⟨rfl, rfl⟩
        exact ⟨rfl, hk, rfl⟩
      · rintro ⟨rfl, -, rfl⟩
        exact ⟨rfl, rfl⟩
  unfold block
  simp only [monadLift_self, clean_current_bind, clean_advance_bind, clean_rounds_bind]
  rw [clean_bind (moves_statementsUntil h _ _) fun _ => .bind .current fun _ => ?_]
  · constructor
    · rintro ⟨statements, r₁, hss, hlast⟩
      obtain ⟨rfl, hne, rfl⟩ := (hend statements r₁).mp hlast
      exact ⟨statements, hss, hne, rfl⟩
    · rintro ⟨statements, hss, hne, rfl⟩
      exact ⟨statements, r', hss, (hend statements r').mpr ⟨rfl, hne, rfl⟩⟩
  · exact .ite (.bind (.note _) fun _ => .bind (.originFrom _) fun _ => .pure _)
      (.bind (.originFrom _) fun _ => .pure _)

/-! ## Lists -/

/-- More expressions without problems, one round of the loop: a comma goes on with it, and
everything else ends it. -/
theorem clean_moreExpressions {n : Nat} {es : List Expr} :
    Clean (moreExpressions expr (n + 1)) r es r' ↔
      (r.upcoming.kind ≠ .comma ∧ es = [] ∧ r' = r) ∨
      (r.upcoming.kind = .comma ∧ ∃ first r₁ rest,
        Clean (expr .lowest) r.advance.advance first r₁ ∧
        Clean (moreExpressions expr n) r₁ rest r' ∧ es = first :: rest) := by
  rw [moreExpressions]
  simp only [monadLift_self, clean_upcoming_bind]
  -- the loop goes on at a comma, and stops at any other token without a problem
  by_cases hk : r.upcoming.kind = .comma
  · rw [if_pos hk]
    simp only [clean_advance_bind, hk, ne_eq, not_true_eq_false, false_and, true_and, false_or]
    rw [clean_bind (h _) fun _ => .bind (moves_moreExpressions h n) fun _ => .pure _]
    constructor
    · rintro ⟨first, r₁, hfirst, hrest⟩
      rw [clean_bind (moves_moreExpressions h n) fun _ => .pure _] at hrest
      obtain ⟨rest, r₂, hrest, hes⟩ := hrest
      obtain ⟨rfl, rfl⟩ := clean_pure.mp hes
      exact ⟨first, r₁, rest, hfirst, hrest, rfl⟩
    · rintro ⟨first, r₁, rest, hfirst, hrest, rfl⟩
      refine ⟨first, r₁, hfirst, ?_⟩
      rw [clean_bind (moves_moreExpressions h n) fun _ => .pure _]
      exact ⟨rest, r', hrest, clean_pure.mpr ⟨rfl, rfl⟩⟩
  · rw [if_neg hk]
    simp [hk]

/-- A list without problems is closed. It is closed at once, or has a first expression and then more
of them. -/
theorem clean_expressionList {closing : Kind} {es : Option (List Expr)} :
    Clean (expressionList expr closing) r es r' ↔
      (r.upcoming.kind = closing ∧ r' = r.advance ∧ es = some []) ∨
      (r.upcoming.kind ≠ closing ∧ ∃ first r₁ rest r₂, Clean (expr .lowest) r.advance first r₁ ∧
        Clean (moreExpressions expr r₁.tokens.length) r₁ rest r₂ ∧ r₂.upcoming.kind = closing ∧
        r' = r₂.advance ∧ es = some (first :: rest)) := by
  unfold expressionList
  simp only [monadLift_self, clean_upcoming_bind]
  -- the closing token may come at once, and then there is no expression
  by_cases hk : r.upcoming.kind = closing
  · rw [if_pos hk]
    simp only [clean_advance_bind, clean_pure, hk, ne_eq, not_true_eq_false, false_and,
      true_and, or_false]
    exact and_comm
  · rw [if_neg hk]
    simp only [clean_advance_bind, hk, ne_eq, not_false_eq_true, true_and, false_and, false_or]
    rw [clean_bind (h _) fun _ => .bind .rounds fun _ =>
      .bind (moves_moreExpressions h _) fun _ => .require _ (.pure _) (.pure _)]
    constructor
    · rintro ⟨first, r₁, hfirst, hrest⟩
      rw [clean_rounds_bind,
        clean_bind (moves_moreExpressions h _) fun _ => .require _ (.pure _) (.pure _)] at hrest
      obtain ⟨rest, r₂, hrest, hes⟩ := hrest
      simp only [clean_require, clean_pure] at hes
      obtain ⟨hend, rfl, rfl⟩ := hes
      exact ⟨first, r₁, rest, r₂, hfirst, hrest, hend, rfl, rfl⟩
    · rintro ⟨first, r₁, rest, r₂, hfirst, hrest, hend, rfl, rfl⟩
      refine ⟨first, r₁, hfirst, ?_⟩
      rw [clean_rounds_bind,
        clean_bind (moves_moreExpressions h _) fun _ => .require _ (.pure _) (.pure _)]
      exact ⟨rest, r₂, hrest, clean_require.mpr ⟨hend, clean_pure.mpr ⟨rfl, rfl⟩⟩⟩

omit h in
/-- More parameters without problems, one round of the loop: after each comma there is a name. -/
theorem clean_moreParameters {n : Nat} {ps : Option (List Binder)} :
    Clean (moreParameters (n + 1)) r ps r' ↔
      (r.upcoming.kind ≠ .comma ∧ ps = some [] ∧ r' = r) ∨
      (r.upcoming.kind = .comma ∧ r.advance.upcoming.kind = .ident ∧ ∃ rest,
        Clean (moreParameters n) r.advance.advance rest r' ∧
        ps = rest.map
          (⟨r.advance.advance.current.origin, r.advance.advance.current.literal⟩ :: ·)) := by
  rw [moreParameters]
  simp only [monadLift_self, clean_upcoming_bind]
  by_cases hk : r.upcoming.kind = .comma
  · rw [if_pos hk]
    simp only [clean_advance_bind, clean_require, clean_current_bind, hk, ne_eq,
      not_true_eq_false, false_and, true_and, false_or]
    refine and_congr_right fun _ => ?_
    rw [clean_bind (moves_moreParameters n) fun rest => by split <;> exact .pure _]
    constructor
    · rintro ⟨rest, r₁, hrest, hps⟩
      refine ⟨rest, ?_⟩
      cases rest with
      | none =>
          obtain ⟨rfl, rfl⟩ := clean_pure.mp hps
          exact ⟨hrest, rfl⟩
      | some rest =>
          obtain ⟨rfl, rfl⟩ := clean_pure.mp hps
          exact ⟨hrest, rfl⟩
    · rintro ⟨rest, hrest, rfl⟩
      refine ⟨rest, r', hrest, ?_⟩
      cases rest with
      | none => exact clean_pure.mpr ⟨rfl, rfl⟩
      | some rest => exact clean_pure.mpr ⟨rfl, rfl⟩
  · rw [if_neg hk]
    simp [hk]

omit h in
/-- Parameters without problems: they are closed at once, or have a first name and then more of
them, up to the closing parenthesis. -/
theorem clean_parameters {ps : Option (List Binder)} :
    Clean parameters r ps r' ↔
      (r.upcoming.kind = .rparen ∧ r' = r.advance ∧ ps = some []) ∨
      (r.upcoming.kind = .ident ∧ ∃ rest r₁,
        Clean (moreParameters r.advance.tokens.length) r.advance rest r₁ ∧
        ((rest = none ∧ r' = r₁ ∧ ps = none) ∨ ∃ more, rest = some more ∧
          r₁.upcoming.kind = .rparen ∧ r' = r₁.advance ∧
          ps = some (⟨r.advance.current.origin, r.advance.current.literal⟩ :: more))) := by
  unfold parameters
  simp only [monadLift_self, clean_upcoming_bind]
  by_cases hk : r.upcoming.kind = .rparen
  · rw [if_pos hk]
    simp only [clean_advance_bind, clean_pure, hk, reduceCtorEq, false_and, true_and, or_false]
    exact and_comm
  · rw [if_neg hk]
    simp only [clean_require, clean_current_bind, clean_rounds_bind, hk, false_and, false_or]
    refine and_congr_right fun _ => ?_
    -- the loop may give up without a problem of its own, and then nothing is left to require
    rw [clean_bind (moves_moreParameters _) fun rest => by
      cases rest with
      | none => exact .pure _
      | some rest => exact .require _ (.pure _) (.pure _)]
    constructor
    · rintro ⟨rest, r₁, hrest, hps⟩
      refine ⟨rest, r₁, hrest, ?_⟩
      cases rest with
      | none =>
          obtain ⟨rfl, rfl⟩ := clean_pure.mp hps
          exact .inl ⟨rfl, rfl, rfl⟩
      | some more =>
          obtain ⟨hend, hps⟩ := clean_require.mp hps
          obtain ⟨rfl, rfl⟩ := clean_pure.mp hps
          exact .inr ⟨more, rfl, hend, rfl, rfl⟩
    · rintro ⟨rest, r₁, hrest, ⟨rfl, rfl, rfl⟩ | ⟨more, rfl, hend, rfl, rfl⟩⟩
      · exact ⟨none, r', hrest, clean_pure.mpr ⟨rfl, rfl⟩⟩
      · exact ⟨some more, r₁, hrest, clean_require.mpr ⟨hend, clean_pure.mpr ⟨rfl, rfl⟩⟩⟩

/-- What comes after a pair of a hash reads on. -/
theorem moves_morePairs (n : Nat) (key value : Expr) : Moves (do
    match ← hashPairs expr n with
    | some rest => return some ((key, value) :: rest)
    | none => return none) :=
  .bind (moves_hashPairs h n) fun rest => by split <;> exact .pure _

/-- The rest of the pairs, once a pair and the comma after it are read. -/
theorem clean_morePairs {n : Nat} (key value : Expr) {ps : Option (List (Expr × Expr))} :
    Clean (do
      match ← hashPairs expr n with
      | some rest => return some ((key, value) :: rest)
      | none => return none) r ps r'
      ↔ ∃ rest, Clean (hashPairs expr n) r rest r' ∧ ps = rest.map ((key, value) :: ·) := by
  rw [clean_bind (moves_hashPairs h n) fun rest => by split <;> exact .pure _]
  constructor
  · rintro ⟨rest, r₃, hrest, hps⟩
    refine ⟨rest, ?_⟩
    cases rest with
    | none =>
        obtain ⟨rfl, rfl⟩ := clean_pure.mp hps
        exact ⟨hrest, rfl⟩
    | some rest =>
        obtain ⟨rfl, rfl⟩ := clean_pure.mp hps
        exact ⟨hrest, rfl⟩
  · rintro ⟨rest, hrest, rfl⟩
    refine ⟨rest, r', hrest, ?_⟩
    cases rest with
    | none => exact clean_pure.mpr ⟨rfl, rfl⟩
    | some rest => exact clean_pure.mpr ⟨rfl, rfl⟩

/-- Pairs without problems, one round of the loop: the closing brace ends it, and each pair has a
colon, and behind it a comma or the closing brace. -/
theorem clean_hashPairs {n : Nat} {ps : Option (List (Expr × Expr))} :
    Clean (hashPairs expr (n + 1)) r ps r' ↔
      (r.upcoming.kind = .rbrace ∧ ps = some [] ∧ r' = r) ∨
      (r.upcoming.kind ≠ .rbrace ∧ ∃ key r₁ value r₂ rest,
        Clean (expr .lowest) r.advance key r₁ ∧ r₁.upcoming.kind = .colon ∧
        Clean (expr .lowest) r₁.advance.advance value r₂ ∧
        (r₂.upcoming.kind = .rbrace ∨ r₂.upcoming.kind = .comma) ∧
        Clean (hashPairs expr n) (r₂.skip .comma) rest r' ∧
        ps = rest.map ((key, value) :: ·)) := by
  rw [hashPairs]
  simp only [monadLift_self, clean_upcoming_bind]
  by_cases hk : r.upcoming.kind = .rbrace
  · rw [if_pos hk]
    simp [hk]
  · rw [if_neg hk]
    simp only [clean_advance_bind, hk, ne_eq, not_false_eq_true, true_and, false_and, false_or]
    have hvalue (key : Expr) (value : Expr) (k : Kind) := Moves.ite (c := ¬ k = .rbrace)
      (.require .comma (moves_morePairs h n key value) (.pure none))
      (moves_morePairs h n key value)
    rw [clean_bind (h _) ?reads]
    case reads => exact fun key => .require _ (.bind .advance fun _ => .bind (h _) fun value =>
      .bind .upcoming fun t => hvalue key value t.kind) (.pure _)
    simp only [clean_require, clean_advance_bind]
    constructor
    · rintro ⟨key, r₁, hkey, hcolon, hrest⟩
      rw [clean_bind (h _) ?reads] at hrest
      case reads => exact fun value => .bind .upcoming fun t => hvalue key value t.kind
      obtain ⟨value, r₂, hval, hlast⟩ := hrest
      rw [clean_upcoming_bind] at hlast
      -- before the brace no comma is asked for, and skipping one does nothing
      by_cases hr : r₂.upcoming.kind = .rbrace
      · rw [if_neg fun hn => hn hr] at hlast
        obtain ⟨rest, hrest, rfl⟩ := (clean_morePairs h key value).mp hlast
        have hskip : r₂.skip .comma = r₂ := if_neg (by rw [hr]; decide)
        exact ⟨key, r₁, value, r₂, rest, hkey, hcolon, hval, .inl hr, by rwa [hskip], rfl⟩
      · rw [if_pos hr, clean_require] at hlast
        obtain ⟨hcomma, hlast⟩ := hlast
        obtain ⟨rest, hrest, rfl⟩ := (clean_morePairs h key value).mp hlast
        have hskip : r₂.skip .comma = r₂.advance := if_pos hcomma
        exact ⟨key, r₁, value, r₂, rest, hkey, hcolon, hval, .inr hcomma, by rwa [hskip], rfl⟩
    · rintro ⟨key, r₁, value, r₂, rest, hkey, hcolon, hval, hend, hrest, rfl⟩
      refine ⟨key, r₁, hkey, hcolon, ?_⟩
      rw [clean_bind (h _) ?reads]
      case reads => exact fun value => .bind .upcoming fun t => hvalue key value t.kind
      refine ⟨value, r₂, hval, ?_⟩
      rw [clean_upcoming_bind]
      by_cases hr : r₂.upcoming.kind = .rbrace
      · have hskip : r₂.skip .comma = r₂ := if_neg (by rw [hr]; decide)
        rw [if_neg fun hn => hn hr]
        exact (clean_morePairs h key value).mpr ⟨rest, by rwa [← hskip], rfl⟩
      · have hcomma := hend.resolve_left hr
        have hskip : r₂.skip .comma = r₂.advance := if_pos hcomma
        rw [if_pos hr, clean_require]
        exact ⟨hcomma, (clean_morePairs h key value).mpr ⟨rest, by rwa [← hskip], rfl⟩⟩

/-! ## Operands -/

omit h in
/-- A numeral without problems is small enough for an integer. -/
theorem clean_integer {t : Token} {e : Expr} :
    Clean (integer t) r e r' ↔
      Text.decimal t.literal < 1 <<< 63 ∧ r' = r ∧
        e = .int t.origin (Int64.ofNat (Text.decimal t.literal)) := by
  unfold integer
  by_cases hfit : Text.decimal t.literal < 1 <<< 63
  · rw [if_pos hfit, clean_pure]
    exact ⟨fun ⟨he, hr⟩ => ⟨hfit, hr, he⟩, fun ⟨_, hr, he⟩ => ⟨he, hr⟩⟩
  · rw [if_neg hfit]
    exact ⟨fun hc => absurd hc (not_clean_note_bind _ fun _ => .pure _), fun hc => absurd hc.1 hfit⟩

/-- A unary operator without problems has an operand without problems that binds tighter than every
binary operator. -/
theorem clean_unaryExpression {op : UnaryOp} {e : Expr} :
    Clean (unaryExpression expr op) r e r' ↔ ∃ operand,
      Clean (expr .unary) r.advance operand r' ∧
      e = .unary (r'.originFrom r.current) op operand := by
  unfold unaryExpression
  simp only [monadLift_self, clean_current_bind, clean_advance_bind]
  rw [clean_bind (h _) fun _ => .bind (.originFrom _) fun _ => .pure _]
  simp only [clean_originFrom_bind, clean_pure]
  constructor
  · rintro ⟨operand, r₁, hoperand, rfl, rfl⟩
    exact ⟨operand, hoperand, rfl⟩
  · rintro ⟨operand, hoperand, rfl⟩
    exact ⟨operand, r', hoperand, rfl, rfl⟩

/-- An expression in parentheses is read without problems if it is closed, and is the expression
inside. -/
theorem clean_grouped {e : Expr} :
    Clean (grouped expr) r e r' ↔ ∃ r₁, Clean (expr .lowest) r.advance e r₁ ∧
      r₁.upcoming.kind = .rparen ∧ r' = r₁.advance := by
  unfold grouped
  simp only [monadLift_self]
  rw [clean_advance_bind, clean_bind (h _) fun _ => .require _ (.pure _) (.pure _)]
  simp only [clean_require, clean_pure]
  constructor
  · rintro ⟨inner, r₁, hinner, hend, rfl, rfl⟩
    exact ⟨r₁, hinner, hend, rfl⟩
  · rintro ⟨r₁, hinner, hend, rfl⟩
    exact ⟨e, r₁, hinner, hend, rfl, rfl⟩

/-- A conditional without problems: a test in parentheses, a block, and another block just if `else`
comes next. -/
theorem clean_conditional {e : Expr} :
    Clean (conditional expr) r e r' ↔
      r.upcoming.kind = .lparen ∧ ∃ test r₁ consequence r₂,
        Clean (expr .lowest) r.advance.advance test r₁ ∧ r₁.upcoming.kind = .rparen ∧
        r₁.advance.upcoming.kind = .lbrace ∧
        Clean (block expr) r₁.advance.advance consequence r₂ ∧
        ((r₂.upcoming.kind ≠ .elseWord ∧ r' = r₂ ∧
            e = .cond (r'.originFrom r.current) test consequence .absent) ∨
          (r₂.upcoming.kind = .elseWord ∧ r₂.advance.upcoming.kind = .lbrace ∧ ∃ alternative,
            Clean (block expr) r₂.advance.advance alternative r' ∧
            e = .cond (r'.originFrom r.current) test consequence alternative)) := by
  have helse (test : Expr) (consequence : Block) : Moves (do
      if (← upcoming).kind = .elseWord then
        advance
        unless ← expect .lbrace do return Expr.absent
        let alternative ← block expr
        return Expr.cond (← originFrom r.current) test consequence alternative
      else return Expr.cond (← originFrom r.current) test consequence .absent) :=
    .bind .upcoming fun _ => .ite
      (.bind .advance fun _ => .require _
        (.bind (moves_block h) fun _ => .bind (.originFrom _) fun _ => .pure _) (.pure _))
      (.bind (.originFrom _) fun _ => .pure _)
  -- what comes after the first block
  have hlast (test : Expr) (consequence : Block) (r₂ : Reader) : Clean (do
      if (← upcoming).kind = .elseWord then
        advance
        unless ← expect .lbrace do return Expr.absent
        let alternative ← block expr
        return Expr.cond (← originFrom r.current) test consequence alternative
      else return Expr.cond (← originFrom r.current) test consequence .absent) r₂ e r' ↔
        ((r₂.upcoming.kind ≠ .elseWord ∧ r' = r₂ ∧
            e = .cond (r'.originFrom r.current) test consequence .absent) ∨
          (r₂.upcoming.kind = .elseWord ∧ r₂.advance.upcoming.kind = .lbrace ∧ ∃ alternative,
            Clean (block expr) r₂.advance.advance alternative r' ∧
            e = .cond (r'.originFrom r.current) test consequence alternative)) := by
    rw [clean_upcoming_bind]
    by_cases hk : r₂.upcoming.kind = .elseWord
    · rw [if_pos hk]
      simp only [clean_advance_bind, clean_require, hk, ne_eq, not_true_eq_false, false_and,
        true_and, false_or]
      refine and_congr_right fun _ => ?_
      rw [clean_bind (moves_block h) fun _ => .bind (.originFrom _) fun _ => .pure _]
      simp only [clean_originFrom_bind, clean_pure]
      constructor
      · rintro ⟨alternative, r₃, halt, rfl, rfl⟩
        exact ⟨alternative, halt, rfl⟩
      · rintro ⟨alternative, halt, rfl⟩
        exact ⟨alternative, r', halt, rfl, rfl⟩
    · rw [if_neg hk]
      simp only [clean_originFrom_bind, clean_pure, hk, ne_eq, not_false_eq_true, true_and,
        false_and, or_false]
      constructor
      · rintro ⟨rfl, rfl⟩
        exact ⟨rfl, rfl⟩
      · rintro ⟨rfl, rfl⟩
        exact ⟨rfl, rfl⟩
  unfold conditional
  simp only [monadLift_self, clean_current_bind, clean_require, clean_advance_bind]
  refine and_congr_right fun _ => ?_
  rw [clean_bind (h _) fun test => .require _ (.require _ (.bind (moves_block h) fun consequence =>
    helse test consequence) (.pure _)) (.pure _)]
  simp only [clean_require]
  constructor
  · rintro ⟨test, r₁, htest, hclose, hopen, hrest⟩
    rw [clean_bind (moves_block h) fun consequence => helse test consequence] at hrest
    obtain ⟨consequence, r₂, hcons, hrest⟩ := hrest
    exact ⟨test, r₁, consequence, r₂, htest, hclose, hopen, hcons,
      (hlast test consequence r₂).mp hrest⟩
  · rintro ⟨test, r₁, consequence, r₂, htest, hclose, hopen, hcons, hrest⟩
    refine ⟨test, r₁, htest, hclose, hopen, ?_⟩
    rw [clean_bind (moves_block h) fun consequence => helse test consequence]
    exact ⟨consequence, r₂, hcons, (hlast test consequence r₂).mpr hrest⟩

/-- A function without problems: parameters and a body. Parameters that are no list would leave the
function absent, which is kept here as a case of its own. -/
theorem clean_functionLiteral {e : Expr} :
    Clean (functionLiteral expr) r e r' ↔
      r.upcoming.kind = .lparen ∧ ∃ ps r₁, Clean parameters r.advance ps r₁ ∧
        ((ps = none ∧ r' = r₁ ∧ e = .absent) ∨ ∃ params body, ps = some params ∧
          r₁.upcoming.kind = .lbrace ∧ Clean (block expr) r₁.advance body r' ∧
          e = .fn (r'.originFrom r.current) (params.map some) body) := by
  unfold functionLiteral
  simp only [monadLift_self, clean_current_bind, clean_require]
  refine and_congr_right fun _ => ?_
  rw [clean_bind moves_parameters ?reads]
  case reads =>
    intro ps
    -- parameters that could not be read leave an absent function, but not without a problem
    cases ps with
    | none => exact .pure _
    | some params =>
        exact .require _ (.bind (moves_block h) fun _ => .bind (.originFrom _) fun _ => .pure _)
          (.pure _)
  refine exists_congr fun ps => exists_congr fun r₁ => and_congr_right fun _ => ?_
  cases ps with
  | none => simp [and_comm]
  | some params =>
      simp only [clean_require, reduceCtorEq, false_and, false_or]
      rw [clean_bind (moves_block h) fun _ => .bind (.originFrom _) fun _ => .pure _]
      simp only [clean_originFrom_bind, clean_pure]
      constructor
      · rintro ⟨hopen, body, r₂, hbody, rfl, rfl⟩
        exact ⟨params, body, rfl, hopen, hbody, rfl⟩
      · rintro ⟨params, body, ⟨⟩, hopen, hbody, rfl⟩
        exact ⟨hopen, body, r', hbody, rfl, rfl⟩

/-- An array without problems has a list of expressions without problems up to a closing bracket. -/
theorem clean_arrayLiteral {e : Expr} :
    Clean (arrayLiteral expr) r e r' ↔ ∃ es, Clean (expressionList expr .rbracket) r es r' ∧
      ((es = none ∧ e = .absent) ∨
        ∃ elements, es = some elements ∧ e = .array (r'.originFrom r.current) elements) := by
  unfold arrayLiteral
  simp only [monadLift_self]
  rw [clean_current_bind, clean_bind (moves_expressionList h _) ?reads]
  case reads =>
    intro es
    cases es with
    | none => exact .pure _
    | some elements => exact .bind (.originFrom _) fun _ => .pure _
  refine exists_congr fun es => ?_
  cases es with
  | none =>
      simp only [clean_pure]
      constructor
      · rintro ⟨r₁, hes, rfl, rfl⟩
        exact ⟨hes, .inl ⟨trivial, rfl⟩⟩
      · rintro ⟨hes, ⟨-, rfl⟩ | ⟨_, ⟨⟩, -⟩⟩
        exact ⟨r', hes, rfl, rfl⟩
  | some elements =>
      simp only [clean_originFrom_bind, clean_pure]
      constructor
      · rintro ⟨r₁, hes, rfl, rfl⟩
        exact ⟨hes, .inr ⟨elements, rfl, rfl⟩⟩
      · rintro ⟨hes, ⟨⟨⟩, -⟩ | ⟨_, ⟨⟩, rfl⟩⟩
        exact ⟨r', hes, rfl, rfl⟩

/-- A hash without problems has pairs without problems up to a closing brace. -/
theorem clean_hashLiteral {e : Expr} :
    Clean (hashLiteral expr) r e r' ↔ ∃ ps r₁,
      Clean (hashPairs expr (r.tokens.length + 1)) r ps r₁ ∧
      ((ps = none ∧ r' = r₁ ∧ e = .absent) ∨ ∃ pairs, ps = some pairs ∧
        r₁.upcoming.kind = .rbrace ∧ r' = r₁.advance ∧
        e = .hash (r'.originFrom r.current) pairs) := by
  unfold hashLiteral
  simp only [monadLift_self]
  rw [clean_current_bind, clean_rounds_bind, clean_bind (moves_hashPairs h _) ?reads]
  case reads =>
    intro ps
    cases ps with
    | none => exact .pure _
    | some pairs => exact .require _ (.bind (.originFrom _) fun _ => .pure _) (.pure _)
  refine exists_congr fun ps => exists_congr fun r₁ => and_congr_right fun _ => ?_
  cases ps with
  | none => simp [and_comm]
  | some pairs =>
      simp only [clean_require, clean_originFrom_bind, clean_pure]
      constructor
      · rintro ⟨hend, rfl, rfl⟩
        exact .inr ⟨pairs, rfl, hend, rfl, rfl⟩
      · rintro (⟨⟨⟩, -⟩ | ⟨_, ⟨⟩, hend, rfl, rfl⟩)
        exact ⟨hend, rfl, rfl⟩

/-! ## Operations -/

/-- A call without problems has a list of arguments without problems up to a closing parenthesis. -/
theorem clean_call {t : Token} (ht : t.kind = .lparen) {left e : Expr} :
    Clean (operation expr t left) r e r' ↔ ∃ es, Clean (expressionList expr .rparen) r es r' ∧
      ((es = none ∧ e = .absent) ∨
        ∃ args, es = some args ∧ e = .call (r'.originAfter left t) left args) := by
  unfold operation
  simp only [monadLift_self, ht]
  rw [clean_bind (moves_expressionList h _) ?reads]
  case reads =>
    intro es
    cases es with
    | none => exact .pure _
    | some args => exact .bind (.originAfter _ _) fun _ => .pure _
  refine exists_congr fun es => ?_
  cases es with
  | none =>
      simp only [clean_pure]
      constructor
      · rintro ⟨r₁, hes, rfl, rfl⟩
        exact ⟨hes, .inl ⟨trivial, rfl⟩⟩
      · rintro ⟨hes, ⟨-, rfl⟩ | ⟨_, ⟨⟩, -⟩⟩
        exact ⟨r', hes, rfl, rfl⟩
  | some args =>
      simp only [clean_originAfter_bind, clean_pure]
      constructor
      · rintro ⟨r₁, hes, rfl, rfl⟩
        exact ⟨hes, .inr ⟨args, rfl, rfl⟩⟩
      · rintro ⟨hes, ⟨⟨⟩, -⟩ | ⟨_, ⟨⟩, rfl⟩⟩
        exact ⟨r', hes, rfl, rfl⟩

/-- An indexing without problems has an index without problems and a closing bracket. -/
theorem clean_index {t : Token} (ht : t.kind = .lbracket) {left e : Expr} :
    Clean (operation expr t left) r e r' ↔ ∃ index r₁, Clean (expr .lowest) r.advance index r₁ ∧
      r₁.upcoming.kind = .rbracket ∧ r' = r₁.advance ∧
      e = .index (r'.originAfter left t) left index := by
  unfold operation
  simp only [monadLift_self, ht]
  rw [clean_advance_bind, clean_bind (h _) fun _ =>
    .require _ (.bind (.originAfter _ _) fun _ => .pure _) (.pure _)]
  simp only [clean_require, clean_originAfter_bind, clean_pure]
  constructor
  · rintro ⟨index, r₁, hindex, hend, rfl, rfl⟩
    exact ⟨index, r₁, hindex, hend, rfl, rfl⟩
  · rintro ⟨index, r₁, hindex, hend, rfl, rfl⟩
    exact ⟨index, r₁, hindex, hend, rfl, rfl⟩

/-- A binary operator without problems has a right operand without problems that binds tighter than
itself. -/
theorem clean_binary {t : Token} (hcall : t.kind ≠ .lparen) (hindex : t.kind ≠ .lbracket)
    {left e : Expr} :
    Clean (operation expr t left) r e r' ↔ ∃ right,
      Clean (expr t.kind.precedence) r.advance right r' ∧
      e = .binary (r'.originAfter left t) (.ofToken t) left right := by
  unfold operation
  simp only [monadLift_self]
  rw [clean_advance_bind, clean_bind (h _) fun _ => .bind (.originAfter _ _) fun _ => .pure _]
  simp only [clean_originAfter_bind, clean_pure]
  constructor
  · rintro ⟨right, r₁, hright, rfl, rfl⟩
    exact ⟨right, hright, rfl⟩
  · rintro ⟨right, hright, rfl⟩
    exact ⟨right, r', hright, rfl, rfl⟩

/-- Operations without problems, one round of the loop: an operator that binds tighter than the
given precedence goes on with it, and everything else ends it. -/
theorem clean_operations {above : Precedence} {n : Nat} {left e : Expr} :
    Clean (operations expr above (n + 1) left) r e r' ↔
      (¬ above < r.upcoming.kind.precedence ∧ e = left ∧ r' = r) ∨
      (above < r.upcoming.kind.precedence ∧ ∃ e₁ r₁,
        Clean (operation expr r.upcoming left) r.advance e₁ r₁ ∧
        Clean (operations expr above n e₁) r₁ e r') := by
  rw [operations]
  simp only [monadLift_self, clean_upcoming_bind]
  by_cases hk : above < r.upcoming.kind.precedence
  · rw [if_pos hk, clean_advance_bind,
      clean_bind (moves_operation h _ _) fun e₁ => moves_operations h above n e₁]
    simp [hk]
  · rw [if_neg hk]
    simp [hk]

end Rules

/-! ## Expressions -/

/-- That there is no operand is a problem. -/
theorem not_clean_missingOperand {r r' : Reader} {e : Expr} : ¬ Clean missingOperand r e r' := by
  unfold missingOperand
  rw [clean_current_bind]
  exact not_clean_note_bind _ fun _ => .pure _

/-- An expression without problems has an operand, and then operations on it. -/
theorem clean_expression {n : Nat} {above : Precedence} {r r' : Reader} {e : Expr} :
    Clean (expression (n + 1) above) r e r' ↔ ∃ first left r₁,
      operand (expression n) r.current = some first ∧ Clean first r left r₁ ∧
      Clean (operations (expression n) above r.tokens.length left) r₁ e r' := by
  rw [expression, climb]
  simp only [monadLift_self, clean_current_bind]
  cases hfirst : operand (expression n) r.current with
  | none =>
      refine ⟨fun hc => absurd hc not_clean_missingOperand, ?_⟩
      rintro ⟨first, left, r₁, ⟨⟩, -⟩
  | some first =>
      simp only [clean_rounds_bind]
      rw [clean_bind (moves_operand (moves_expression n) hfirst) fun left =>
        moves_operations (moves_expression n) above _ left]
      constructor
      · rintro ⟨left, r₁, hleft, hrest⟩
        exact ⟨first, left, r₁, rfl, hleft, hrest⟩
      · rintro ⟨first', left, r₁, ⟨⟩, hleft, hrest⟩
        exact ⟨left, r₁, hleft, hrest⟩

end Monkey.Parse
