import Monkey.Proofs.Rules
import Monkey.Proofs.Unambiguous

/-!
# What is derivable is read without problems

Where the terminals in view start with those of a phrase, and what follows stops it,
the rule for expressions reads just that phrase and notes nothing. Which expression it
yields need not be tracked: what is read without problems is derivable, and the
derivation is the only one.

A phrase of a left recursive stratum is read inside out: its leftmost operand first,
then, by the loop over operators, one suffix after another. So the statement about a
phrase says what remains to be done once it is read (`Reaches`): the reading of the
whole expression goes on with the loop behind the phrase.
-/

namespace Monkey

open Parse Grammar

/-- The greatest precedence above which a phrase of a stratum can be read. -/
def Grammar.limit (k : Nat) : Nat :=
  if k < 5 then k else 6

/-- A rule reads every phrase at a reader with at most `n` tokens left. -/
def ReadsPhrases (expr : Precedence → Parse Expr) (n : Nat) : Prop :=
  ∀ {k : Nat} (above : Nat) (c : Phrase k) {r : Reader} {rest : List Terminal}, c.Proper →
    above ≤ limit k → r.Sane → r.tokens.length ≤ n → r.view = c.yield ++ rest →
    firstKind rest ≠ .elseWord → (firstKind rest).precedence ≤ above →
    ∃ e r', Clean (expr above) r e r' ∧ r'.ahead = rest

section Rules

variable {expr : Precedence → Parse Expr} (h : ∀ q, Moves (expr q)) {n : Nat}
  (hd : ReadsPhrases expr n)
include hd

/-- A phrase of the first stratum, up to what stops it. -/
theorem reads_lowest {c : Phrase 1} {r : Reader} {rest : List Terminal} (hproper : c.Proper)
    (hs : r.Sane) (hn : r.tokens.length ≤ n) (hview : r.view = c.yield ++ rest)
    (hstop : Stops 1 rest) : ∃ e r', Clean (expr .lowest) r e r' ∧ r'.ahead = rest :=
  hd 1 c hproper (by decide) hs hn hview hstop.1 (hstop.2.resolve_left (by decide))

include h

/-- Derived expressions after commas are read, up to the closing token. -/
theorem reads_moreExpressions {m : Nat} {r : Reader} {cs : List (Phrase 1)} {k : Kind}
    {rest : List Terminal} (hk : closes k) (hproper : ProperList cs) (hs : r.Sane)
    (hn : r.tokens.length ≤ n + 1) (hm : r.tokens.length ≤ m)
    (hahead : r.ahead = yieldMore cs ++ k.terminal :: rest) :
    ∃ es r', Clean (moreExpressions expr m) r es r' ∧ r'.ahead = k.terminal :: rest := by
  induction cs generalizing r m with
  | nil =>
      refine ⟨[], r, ?_, hahead⟩
      cases m with
      | zero => exact clean_pure.mpr ⟨rfl, rfl⟩
      | succ m =>
          refine (clean_moreExpressions h).mpr (.inl ⟨?_, rfl, rfl⟩)
          rw [(hs.upcoming_of_ahead hahead).1]
          rcases hk with rfl | rfl <;> decide
  | cons c cs ih =>
      rw [yieldMore, List.cons_append, List.append_assoc] at hahead
      obtain ⟨hcomma, hview⟩ := hs.upcoming_of_ahead hahead
      have hlt := hs.length_advance_lt (by rw [hcomma]; decide)
      have hle := r.advance.length_advance_le
      -- a comma is ahead, so the loop has a round left
      obtain ⟨m, rfl⟩ : ∃ m', m = m' + 1 := ⟨m - 1, by omega⟩
      obtain ⟨e, r₁, he, hrest⟩ := reads_lowest hd hproper.1 hs.advance.advance (by omega) hview
        (stops_yieldMore cs hk rest)
      have hlen := (he.onward (h _)).tokens.length_le
      obtain ⟨es, r', hes, hlast⟩ := ih (m := m) hproper.2
        (hs.advance.advance.onward (he.onward (h _))) (by omega) (by omega) hrest
      exact ⟨e :: es, r', (clean_moreExpressions h).mpr (.inr ⟨hcomma, e, r₁, es, he, hes, rfl⟩),
        hlast⟩

/-- A derived list of expressions is read, with its closing token. -/
theorem reads_expressionList {r : Reader} {cs : List (Phrase 1)} {k : Kind}
    {rest : List Terminal} (hk : closes k) (hproper : ProperList cs) (hs : r.Sane)
    (hn : r.tokens.length ≤ n + 1) (hahead : r.ahead = yieldList cs ++ k.terminal :: rest) :
    ∃ es r', Clean (expressionList expr k) r (some es) r' ∧ r'.ahead = rest := by
  cases cs with
  | nil =>
      obtain ⟨hend, hrest⟩ := hs.upcoming_of_ahead hahead
      exact ⟨[], r.advance, (clean_expressionList h).mpr (.inl ⟨hend, rfl, rfl⟩), hrest⟩
  | cons c cs =>
      rw [yieldList, List.append_assoc] at hahead
      have hfirst : r.upcoming.kind = firstKind c.yield := by
        rw [← hs.firstKind_ahead, hahead, c.firstKind_yield_append]
      have hstarts := c.starts
      rw [← hfirst] at hstarts
      -- an expression does not start with the closing token, so the list is not taken for empty
      have hnot : r.upcoming.kind ≠ k := by
        intro heq
        rw [heq] at hstarts
        rcases hk with rfl | rfl <;> exact absurd hstarts (by decide)
      have hlt := hs.length_advance_lt (ne_eof_of_starts hstarts)
      obtain ⟨e, r₁, he, hmore⟩ := reads_lowest hd hproper.1 hs.advance (by omega) hahead
        (stops_yieldMore cs hk rest)
      have hs₁ := hs.advance.onward (he.onward (h _))
      have hlen := (he.onward (h _)).tokens.length_le
      obtain ⟨es, r₂, hes, hlast⟩ := reads_moreExpressions h hd hk hproper.2 hs₁ (by omega)
        (Nat.le_refl _) hmore
      have hs₂ := hs₁.onward (hes.onward (moves_moreExpressions h _))
      obtain ⟨hend, hrest⟩ := hs₂.upcoming_of_ahead hlast
      exact ⟨e :: es, r₂.advance, (clean_expressionList h).mpr
        (.inr ⟨hnot, e, r₁, es, r₂, he, hes, hend, rfl, rfl⟩), hrest⟩

omit h hd in
/-- Derived parameters after commas are read. -/
theorem reads_moreParameters {m : Nat} {r : Reader} {names : List Text} {rest : List Terminal}
    (hs : r.Sane) (hm : r.tokens.length ≤ m)
    (hahead : r.ahead = yieldMoreNames names ++ Kind.rparen.terminal :: rest) :
    ∃ ps r', Clean (moreParameters m) r (some ps) r' ∧ r'.ahead = Kind.rparen.terminal :: rest := by
  induction names generalizing r m with
  | nil =>
      refine ⟨[], r, ?_, hahead⟩
      cases m with
      | zero => exact clean_pure.mpr ⟨rfl, rfl⟩
      | succ m =>
          refine clean_moreParameters.mpr (.inl ⟨?_, rfl, rfl⟩)
          rw [(hs.upcoming_of_ahead hahead).1]
          decide
  | cons name names ih =>
      obtain ⟨hcomma, hname⟩ := hs.upcoming_of_ahead hahead
      obtain ⟨hident, hrest⟩ := hs.advance.upcoming_of_ahead hname
      have hlt := hs.length_advance_lt (by rw [hcomma]; decide)
      have hle := r.advance.length_advance_le
      obtain ⟨m, rfl⟩ : ∃ m', m = m' + 1 := ⟨m - 1, by omega⟩
      obtain ⟨ps, r', hps, hlast⟩ := ih (m := m) hs.advance.advance (by omega) hrest
      have hmore := clean_moreParameters.mpr (.inr ⟨hcomma, hident, some ps, hps, rfl⟩)
      exact ⟨_ :: ps, r', hmore, hlast⟩

omit h hd in
/-- Derived parameters are read. -/
theorem reads_parameters {r : Reader} {names : List Text} {rest : List Terminal} (hs : r.Sane)
    (hahead : r.ahead = yieldNames names ++ Kind.rparen.terminal :: rest) :
    ∃ ps r', Clean parameters r (some ps) r' ∧ r'.ahead = rest := by
  cases names with
  | nil =>
      obtain ⟨hend, hrest⟩ := hs.upcoming_of_ahead hahead
      exact ⟨[], r.advance, clean_parameters.mpr (.inl ⟨hend, rfl, rfl⟩), hrest⟩
  | cons name names =>
      obtain ⟨hident, hmore⟩ := hs.upcoming_of_ahead hahead
      obtain ⟨ps, r₁, hps, hlast⟩ := reads_moreParameters hs.advance (Nat.le_refl _) hmore
      have hs₁ := hs.advance.onward (hps.onward (moves_moreParameters _))
      obtain ⟨hend, hrest⟩ := hs₁.upcoming_of_ahead hlast
      exact ⟨_ :: ps, r₁.advance, clean_parameters.mpr
        (.inr ⟨hident, some ps, r₁, hps, .inr ⟨ps, rfl, hend, rfl, rfl⟩⟩), hrest⟩

/-- A key with its value, up to what stops the value. -/
theorem reads_pair {r : Reader} {key value : Phrase 1} {rest : List Terminal}
    (hkey : key.Proper) (hvalue : value.Proper) (hs : r.Sane) (hn : r.tokens.length ≤ n + 1)
    (hahead : r.ahead = key.yield ++ Kind.colon.terminal :: (value.yield ++ rest))
    (hstop : Stops 1 rest) :
    r.upcoming.kind ≠ .rbrace ∧ ∃ ek r₁, Clean (expr .lowest) r.advance ek r₁ ∧
      r₁.upcoming.kind = .colon ∧ ∃ ev r₂, Clean (expr .lowest) r₁.advance.advance ev r₂ ∧
      r₂.ahead = rest ∧ r₂.Sane ∧ 0 < r.tokens.length ∧ r₂.tokens.length < r.tokens.length := by
  have hstarts := key.starts_append (Kind.colon.terminal :: (value.yield ++ rest))
  rw [← hahead, hs.firstKind_ahead] at hstarts
  have hnot : r.upcoming.kind ≠ .rbrace := by
    intro heq
    rw [heq] at hstarts
    exact absurd hstarts (by decide)
  -- the tokens get fewer by the first of the key, and so the expressions inside may be read
  have hlt := hs.length_advance_lt (ne_eof_of_starts hstarts)
  obtain ⟨ek, r₁, hek, hcolonAhead⟩ := reads_lowest hd hkey hs.advance (by omega) hahead
    (.of_kind (Nat.le_refl 1) (by decide) (by decide))
  have hs₁ := hs.advance.onward (hek.onward (h _))
  have hlen₁ := (hek.onward (h _)).tokens.length_le
  obtain ⟨hcolon, hvalueView⟩ := hs₁.upcoming_of_ahead hcolonAhead
  have hle := r₁.length_advance_le
  have hle' := r₁.advance.length_advance_le
  obtain ⟨ev, r₂, hev, hrest⟩ := reads_lowest hd hvalue hs₁.advance.advance (by omega) hvalueView
    hstop
  have hlen₂ := (hev.onward (h _)).tokens.length_le
  exact ⟨hnot, ek, r₁, hek, hcolon, ev, r₂, hev, hrest,
    hs₁.advance.advance.onward (hev.onward (h _)), by omega, by omega⟩

omit hd in
/-- No pairs before a closing brace. -/
theorem reads_noPairs {m : Nat} (hm : 0 < m) {r : Reader} {rest : List Terminal} (hs : r.Sane)
    (hahead : r.ahead = Kind.rbrace.terminal :: rest) :
    Clean (hashPairs expr m) r (some []) r := by
  obtain ⟨m, rfl⟩ : ∃ m', m = m' + 1 := ⟨m - 1, by omega⟩
  exact (clean_hashPairs h).mpr (.inl ⟨(hs.upcoming_of_ahead hahead).1, rfl, rfl⟩)

/-- Derived pairs are read, with or without a comma at their end. -/
theorem reads_hashPairs {m : Nat} {r : Reader} {key value : Phrase 1}
    {more : List (Phrase 1 × Phrase 1)} {trailing : Bool} {rest : List Terminal}
    (hproper : key.Proper ∧ value.Proper ∧ ProperPairs more) (hs : r.Sane)
    (hn : r.tokens.length ≤ n + 1) (hm : r.tokens.length < m)
    (hahead : r.ahead = key.yield ++ Kind.colon.terminal :: (value.yield
      ++ (yieldMorePairs more ++ (optional .comma trailing ++ Kind.rbrace.terminal :: rest)))) :
    ∃ ps r', Clean (hashPairs expr m) r (some ps) r' ∧ r'.ahead = Kind.rbrace.terminal :: rest := by
  induction more generalizing r m key value with
  | nil =>
      obtain ⟨m, rfl⟩ : ∃ m', m = m' + 1 := ⟨m - 1, by omega⟩
      obtain ⟨hkey, ek, r₁, hek, hcolon, ev, r₂, hev, htail, hs₂, hlt, hlen⟩ :=
        reads_pair h hd hproper.1 hproper.2.1 hs hn hahead (stops_yieldMorePairs [] trailing rest)
      -- the loop asks for a closing brace or a comma, so the last comma is passed in its turn
      cases trailing with
      | false =>
          have hend := (hs₂.upcoming_of_ahead htail).1
          refine ⟨[(ek, ev)], r₂, (clean_hashPairs h).mpr
            (.inr ⟨hkey, ek, r₁, ev, r₂, some [], hek, hcolon, hev, .inl hend, ?_, rfl⟩), htail⟩
          rw [Reader.skip_of_not_upcoming (by rw [hend]; decide)]
          exact reads_noPairs h (by omega) hs₂ htail
      | true =>
          obtain ⟨hcomma, hrest⟩ := hs₂.upcoming_of_ahead htail
          refine ⟨[(ek, ev)], r₂.advance, (clean_hashPairs h).mpr
            (.inr ⟨hkey, ek, r₁, ev, r₂, some [], hek, hcolon, hev, .inr hcomma, ?_, rfl⟩), hrest⟩
          rw [Reader.skip_of_upcoming (k := .comma) hcomma]
          exact reads_noPairs h (by omega) hs₂.advance hrest
  | cons pair more ih =>
      obtain ⟨key', value'⟩ := pair
      obtain ⟨m, rfl⟩ : ∃ m', m = m' + 1 := ⟨m - 1, by omega⟩
      obtain ⟨hkey, ek, r₁, hek, hcolon, ev, r₂, hev, htail, hs₂, hlt, hlen⟩ :=
        reads_pair h hd hproper.1 hproper.2.1 hs hn hahead
          (stops_yieldMorePairs ((key', value') :: more) trailing rest)
      simp only [yieldMorePairs, List.cons_append, List.append_assoc] at htail
      obtain ⟨hcomma, hmore⟩ := hs₂.upcoming_of_ahead htail
      have hle := r₂.length_advance_le
      obtain ⟨ps, r', hps, hlast⟩ := ih (m := m) hproper.2.2 hs₂.advance (by omega) (by omega) hmore
      refine ⟨(ek, ev) :: ps, r', (clean_hashPairs h).mpr
        (.inr ⟨hkey, ek, r₁, ev, r₂, some ps, hek, hcolon, hev, .inr hcomma, ?_, rfl⟩), hlast⟩
      rw [Reader.skip_of_upcoming (k := .comma) hcomma]
      exact hps

/-! ## Statements -/

omit h hd in
/-- The end of a statement is read, with its semicolon if it has one. -/
theorem ahead_skip_semicolon {r : Reader} {closed : Bool} {rest : List Terminal} (hs : r.Sane)
    (hahead : r.ahead = optional .semicolon closed ++ rest)
    (hnext : closed = false → firstKind rest ≠ .semicolon) : (r.skip .semicolon).ahead = rest := by
  cases closed with
  | true =>
      obtain ⟨hk, hrest⟩ := hs.upcoming_of_ahead hahead
      rw [Reader.skip_of_upcoming (k := .semicolon) hk, hrest]
      rfl
  | false =>
      have hk : r.upcoming.kind ≠ .semicolon := by
        rw [← hs.firstKind_ahead, hahead]
        exact hnext rfl
      rw [Reader.skip_of_not_upcoming hk, hahead]
      rfl

/-- A derived statement is read, if what follows cannot go on with it. -/
theorem reads_statement {r : Reader} {c : Sentence} {rest : List Terminal} (hproper : c.Proper)
    (hs : r.Sane) (hn : r.tokens.length ≤ n) (hview : r.view = c.yield ++ rest)
    (hnext : c.MayPrecede (firstKind rest)) (helse : firstKind rest ≠ .elseWord) :
    ∃ s r', Clean (statement expr) r s r' ∧ r'.ahead = rest := by
  have hcurrent : r.current.kind = firstKind (c.yield ++ rest) := by
    rw [← hs.firstKind_view, hview]
  have hle := r.length_advance_le
  have hle' := r.advance.length_advance_le
  have hle'' := r.advance.advance.length_advance_le
  cases c with
  | bind name value closed =>
      simp only [Sentence.yield, List.cons_append, List.append_assoc] at hview
      obtain ⟨-, hname⟩ := hs.current_of_view hview
      obtain ⟨hident, hassign⟩ := hs.upcoming_of_ahead hname
      obtain ⟨heq, hvalue⟩ := hs.advance.upcoming_of_ahead hassign
      obtain ⟨e, r₁, he, hend⟩ := reads_lowest hd hproper hs.advance.advance.advance (by omega)
        hvalue (stops_optional helse hnext)
      have hs₁ := hs.advance.advance.advance.onward (he.onward (h _))
      exact ⟨_, r₁.skip .semicolon, (clean_statement h).mpr (.inl ⟨hcurrent,
        (clean_letStatement h).mpr ⟨hident, heq, e, r₁, he, rfl, rfl⟩⟩),
        ahead_skip_semicolon hs₁ hend fun hno => (hnext hno).1⟩
  | ret value closed =>
      simp only [Sentence.yield, List.cons_append, List.append_assoc] at hview
      obtain ⟨-, hvalue⟩ := hs.current_of_view hview
      have hstarts := value.starts_append (optional .semicolon closed ++ rest)
      rw [← hvalue, hs.firstKind_ahead] at hstarts
      -- what starts a value does not end a bare return
      have hnotEnd : ¬ endsReturn r.upcoming.kind := by
        rintro (hk | hk | hk) <;> rw [hk] at hstarts <;> exact absurd hstarts (by decide)
      obtain ⟨e, r₁, he, hend⟩ := reads_lowest hd hproper hs.advance (by omega) hvalue
        (stops_optional helse hnext)
      have hs₁ := hs.advance.onward (he.onward (h _))
      exact ⟨_, r₁.skip .semicolon, (clean_statement h).mpr (.inr (.inl ⟨hcurrent, _,
        (clean_returnStatement h).mpr (.inr ⟨hnotEnd, e, r₁, he, rfl, rfl⟩), rfl⟩)),
        ahead_skip_semicolon hs₁ hend fun hno => (hnext hno).1⟩
  | bare closed =>
      obtain ⟨-, hend⟩ := hs.current_of_view hview
      have hends : endsReturn r.upcoming.kind := by
        rw [← hs.firstKind_ahead, hend]
        cases closed with
        | true => exact .inl rfl
        | false => exact .inr (hnext rfl)
      refine ⟨_, r.skip .semicolon, (clean_statement h).mpr (.inr (.inl ⟨hcurrent, _,
        (clean_returnStatement h).mpr (.inl ⟨hends, rfl, rfl⟩), rfl⟩)),
        ahead_skip_semicolon hs hend fun hno heq => ?_⟩
      have hlast := hnext hno
      rw [heq] at hlast
      exact absurd hlast (by decide)
  | expr value closed =>
      simp only [Sentence.yield, List.append_assoc] at hview hcurrent
      have hstarts := value.starts_append (optional .semicolon closed ++ rest)
      rw [← hcurrent] at hstarts
      have hword {k : Kind} (hk : starts k = false) : r.current.kind ≠ k := by
        rintro rfl
        exact absurd (hk.symm.trans hstarts) (by decide)
      obtain ⟨e, r₁, he, hend⟩ := reads_lowest hd hproper hs hn hview (stops_optional helse hnext)
      have hs₁ := hs.onward (he.onward (h _))
      exact ⟨_, r₁.skip .semicolon, (clean_statement h).mpr (.inr (.inr ⟨hword rfl, hword rfl, _,
        (clean_expressionStatement h).mpr ⟨e, r₁, he, rfl, rfl⟩, rfl⟩)),
        ahead_skip_semicolon hs₁ hend fun hno => (hnext hno).1⟩

/-- Derived statements are read one after the other, up to what ends them. -/
theorem reads_statementsUntil {closing : Option Kind} {m : Nat} {r : Reader} {cs : List Sentence}
    {rest : List Terminal} (hclosing : closing = none ∨ closing = some .rbrace)
    (hproper : ProperStatements rest cs) (hs : r.Sane) (hn : r.tokens.length ≤ n)
    (hm : r.tokens.length ≤ m) (hview : r.view = yieldStatements cs ++ rest)
    (hend : firstKind rest = .eof ∨ some (firstKind rest) = closing) :
    ∃ ss r', Clean (statementsUntil expr closing m) r ss r' ∧ r'.view = rest := by
  have hends : endsStatements rest := by
    rcases hclosing with rfl | rfl
    · exact .inr (hend.resolve_right nofun)
    · exact hend.symm.imp_left Option.some.inj
  induction cs generalizing r m with
  | nil =>
      refine ⟨[], r, ?_, hview⟩
      cases m with
      | zero => exact clean_pure.mpr ⟨rfl, rfl⟩
      | succ m =>
          refine (clean_statementsUntil h).mpr (.inl ⟨?_, rfl, rfl⟩)
          rw [← hs.firstKind_view, hview]
          exact hend
  | cons c cs ih =>
      obtain ⟨hc, hnext, hcs⟩ := hproper
      rw [yieldStatements, List.append_assoc] at hview
      -- no statement starts with a token at which the loop would end
      have hgo : ¬ (r.current.kind = .eof ∨ some r.current.kind = closing) := by
        rw [← hs.firstKind_view, hview]
        rintro (hk | hk)
        · exact c.firstKind_ne (.inr (.inl rfl)) _ hk
        · rcases hclosing with rfl | rfl
          · cases hk
          · exact c.firstKind_ne (.inl rfl) _ (Option.some.inj hk)
      obtain ⟨s, r₁, hfirst, hrest⟩ := reads_statement h hd hc hs hn hview hnext
        (firstKind_yieldStatements_ne cs hends)
      have hs₁ := hs.onward (hfirst.onward (moves_statement h))
      have hlen : r₁.advance.tokens.length < r.tokens.length := by
        have hpos := c.length_yield_pos
        rw [← Reader.length_view, ← Reader.length_view, Reader.view_advance, hview, hrest]
        simp only [List.length_append]
        omega
      obtain ⟨m, rfl⟩ : ∃ m', m = m' + 1 := ⟨m - 1, by omega⟩
      obtain ⟨ss, r', hss, hlast⟩ := ih (m := m) hcs hs₁.advance (by omega) (by omega) hrest
      exact ⟨s.toList ++ ss, r', (clean_statementsUntil h).mpr
        (.inr ⟨hgo, s, r₁, ss, hfirst, hss, rfl⟩), hlast⟩

/-- A derived block is read, with its brace. -/
theorem reads_block {r : Reader} {cs : List Sentence} {rest : List Terminal}
    (hproper : ProperStatements [Kind.rbrace.terminal] cs) (hs : r.Sane)
    (hn : r.advance.tokens.length ≤ n)
    (hahead : r.ahead = yieldStatements cs ++ Kind.rbrace.terminal :: rest) :
    ∃ b r', Clean (block expr) r b r' ∧ r'.ahead = rest := by
  have hproper' : ProperStatements (Kind.rbrace.terminal :: rest) cs :=
    hproper.congr (show firstKind [Kind.rbrace.terminal] = firstKind (_ :: rest) from rfl)
  obtain ⟨ss, r', hss, hview⟩ := reads_statementsUntil h hd (.inr rfl) hproper' hs.advance hn
    (Nat.le_refl _) hahead (.inr rfl)
  have hs' := hs.advance.onward (hss.onward (moves_statementsUntil h _ _))
  have hlast : r'.current.kind ≠ .eof := by
    rw [← hs'.firstKind_view, hview]
    exact (by decide : Kind.rbrace ≠ .eof)
  exact ⟨_, r', (clean_block h).mpr ⟨ss, hss, hlast, rfl⟩, (hs'.current_of_view hview).2⟩

/-! ## Operands -/

/-- The test and the first block of a conditional. -/
theorem reads_test {r : Reader} {test : Phrase 1} {cs : List Sentence} {rest : List Terminal}
    (htest : test.Proper) (hcs : ProperStatements [Kind.rbrace.terminal] cs) (hs : r.Sane)
    (hn : r.advance.tokens.length ≤ n)
    (hahead : r.ahead = Kind.lparen.terminal :: (test.yield ++ Kind.rparen.terminal
      :: Kind.lbrace.terminal :: (yieldStatements cs ++ Kind.rbrace.terminal :: rest))) :
    r.upcoming.kind = .lparen ∧ ∃ e r₁, Clean (expr .lowest) r.advance.advance e r₁ ∧
      r₁.upcoming.kind = .rparen ∧ r₁.advance.upcoming.kind = .lbrace ∧
      ∃ b r₂, Clean (block expr) r₁.advance.advance b r₂ ∧ r₂.ahead = rest ∧ r₂.Sane ∧
        r₂.tokens.length ≤ n := by
  have hle := r.advance.length_advance_le
  obtain ⟨hopen, hview⟩ := hs.upcoming_of_ahead hahead
  obtain ⟨e, r₁, he, hclose⟩ := reads_lowest hd htest hs.advance.advance (by omega) hview
    (.of_kind (Nat.le_refl 1) (by decide) (by decide))
  have hs₁ := hs.advance.advance.onward (he.onward (h _))
  have hlen₁ := (he.onward (h _)).tokens.length_le
  obtain ⟨hend, hbraceAhead⟩ := hs₁.upcoming_of_ahead hclose
  obtain ⟨hbrace, hblock⟩ := hs₁.advance.upcoming_of_ahead hbraceAhead
  have hle₁ := r₁.length_advance_le
  have hle₂ := r₁.advance.length_advance_le
  have hle₃ := r₁.advance.advance.length_advance_le
  obtain ⟨b, r₂, hb, hrest⟩ := reads_block h hd hcs hs₁.advance.advance (by omega) hblock
  have hlen₂ := (hb.onward (moves_block h)).tokens.length_le
  exact ⟨hopen, e, r₁, he, hend, hbrace, b, r₂, hb, hrest,
    hs₁.advance.advance.onward (hb.onward (moves_block h)), by omega⟩

/-- An operand without a sign. -/
theorem reads_atom {r : Reader} (c : Phrase 7) {rest : List Terminal} (hproper : c.Proper)
    (hs : r.Sane) (hn : r.tokens.length ≤ n + 1) (hview : r.view = c.yield ++ rest)
    (helse : firstKind rest ≠ .elseWord) :
    ∃ first e r', operand expr r.current = some first ∧ Clean first r e r' ∧ r'.ahead = rest := by
  have hcurrent : r.current.kind = firstKind (c.yield ++ rest) := by
    rw [← hs.firstKind_view, hview]
  have hstarts : r.current.kind ≠ .eof := by
    rw [hcurrent]
    exact ne_eof_of_starts (c.starts_append rest)
  have hlt := hs.length_advance_of_current hstarts
  have hle := r.advance.length_advance_le
  have hparen {ts : List Terminal} : Stops 1 (Kind.rparen.terminal :: ts) :=
    .of_kind (Nat.le_refl 1) (by decide) (by decide)
  -- the first terminal of an atom says which rule reads it, and what the rule needs lies ahead
  cases c using Phrase.atomCases with
  | ident name =>
      exact ⟨_, _, r, by rw [operand, hcurrent]; rfl, clean_pure.mpr ⟨rfl, rfl⟩,
        (hs.current_of_view hview).2⟩
  | int digits =>
      obtain ⟨hterminal, hrest⟩ := hs.current_of_view hview
      have hdigits : r.current.literal = digits := congrArg Terminal.literal hterminal
      -- a proper numeral is in the range of integers
      have hfit : Text.decimal r.current.literal < 1 <<< 63 := by
        rw [hdigits]
        exact Nat.lt_of_le_pred (by decide) hproper
      exact ⟨_, _, r, by rw [operand, hcurrent]; rfl, clean_integer.mpr ⟨hfit, rfl, rfl⟩, hrest⟩
  | str content =>
      exact ⟨_, _, r, by rw [operand, hcurrent]; rfl, clean_pure.mpr ⟨rfl, rfl⟩,
        (hs.current_of_view hview).2⟩
  | bool value =>
      cases value with
      | true =>
          exact ⟨_, _, r, by rw [operand, hcurrent]; rfl, clean_pure.mpr ⟨rfl, rfl⟩,
            (hs.current_of_view hview).2⟩
      | false =>
          exact ⟨_, _, r, by rw [operand, hcurrent]; rfl, clean_pure.mpr ⟨rfl, rfl⟩,
            (hs.current_of_view hview).2⟩
  | group inner =>
      simp only [Phrase.yield, List.cons_append, List.append_assoc, List.nil_append] at hview
      obtain ⟨-, hinner⟩ := hs.current_of_view hview
      obtain ⟨e, r₁, he, hclose⟩ := reads_lowest hd hproper hs.advance (by omega) hinner hparen
      have hs₁ := hs.advance.onward (he.onward (h _))
      obtain ⟨hend, hrest⟩ := hs₁.upcoming_of_ahead hclose
      exact ⟨_, e, r₁.advance, by rw [operand, hcurrent]; rfl,
        (clean_grouped h).mpr ⟨r₁, he, hend, rfl⟩, hrest⟩
  | cond test consequence =>
      simp only [Phrase.yield, List.cons_append, List.append_assoc, List.nil_append] at hview
      obtain ⟨-, hstart⟩ := hs.current_of_view hview
      obtain ⟨hopen, test', r₁, htest, hclose, hbrace, b, r₂, hb, hrest, hs₂, -⟩ :=
        reads_test h hd hproper.1 hproper.2 hs (by omega) hstart
      -- without an alternative, what follows must not be taken for one
      have hnoElse : r₂.upcoming.kind ≠ .elseWord := by
        rw [← hs₂.firstKind_ahead, hrest]
        exact helse
      exact ⟨_, _, r₂, by rw [operand, hcurrent]; rfl, (clean_conditional h).mpr
        ⟨hopen, test', r₁, b, r₂, htest, hclose, hbrace, hb, .inl ⟨hnoElse, rfl, rfl⟩⟩, hrest⟩
  | condElse test consequence alternative =>
      simp only [Phrase.yield, List.cons_append, List.append_assoc, List.nil_append] at hview
      obtain ⟨-, hstart⟩ := hs.current_of_view hview
      obtain ⟨hopen, test', r₁, htest, hclose, hbrace, b, r₂, hb, helse, hs₂, hlen⟩ :=
        reads_test h hd hproper.1 hproper.2.1 hs (by omega) hstart
      obtain ⟨helseKind, hbrace'⟩ := hs₂.upcoming_of_ahead helse
      obtain ⟨hbraceKind, halt⟩ := hs₂.advance.upcoming_of_ahead hbrace'
      have hle₁ := r₂.length_advance_le
      have hle₂ := r₂.advance.length_advance_le
      have hle₃ := r₂.advance.advance.length_advance_le
      obtain ⟨b', r', hb', hrest⟩ :=
        reads_block h hd hproper.2.2 hs₂.advance.advance (by omega) halt
      exact ⟨_, _, r', by rw [operand, hcurrent]; rfl, (clean_conditional h).mpr
        ⟨hopen, test', r₁, b, r₂, htest, hclose, hbrace, hb,
          .inr ⟨helseKind, hbraceKind, b', hb', rfl⟩⟩, hrest⟩
  | fn params body =>
      simp only [Phrase.yield, List.cons_append, List.append_assoc, List.nil_append] at hview
      obtain ⟨-, hstart⟩ := hs.current_of_view hview
      obtain ⟨hopen, hnames⟩ := hs.upcoming_of_ahead hstart
      obtain ⟨ps, r₁, hps, hbrace⟩ := reads_parameters hs.advance hnames
      have hs₁ := hs.advance.onward (hps.onward moves_parameters)
      have hlen := (hps.onward moves_parameters).tokens.length_le
      obtain ⟨hbraceKind, hbody⟩ := hs₁.upcoming_of_ahead hbrace
      have hle₁ := r₁.length_advance_le
      have hle₂ := r₁.advance.length_advance_le
      obtain ⟨b, r', hb, hrest⟩ := reads_block h hd hproper hs₁.advance (by omega) hbody
      exact ⟨_, _, r', by rw [operand, hcurrent]; rfl, (clean_functionLiteral h).mpr
        ⟨hopen, some ps, r₁, hps, .inr ⟨ps, b, rfl, hbraceKind, hb, rfl⟩⟩, hrest⟩
  | array elements =>
      simp only [Phrase.yield, List.cons_append, List.append_assoc, List.nil_append] at hview
      obtain ⟨-, hstart⟩ := hs.current_of_view hview
      obtain ⟨es, r', hes, hrest⟩ := reads_expressionList h hd (.inr rfl) hproper hs hn hstart
      exact ⟨_, _, r', by rw [operand, hcurrent]; rfl, (clean_arrayLiteral h).mpr
        ⟨some es, hes, .inr ⟨es, rfl, rfl⟩⟩, hrest⟩
  | emptyHash =>
      obtain ⟨-, hstart⟩ := hs.current_of_view hview
      obtain ⟨hend, hrest⟩ := hs.upcoming_of_ahead hstart
      exact ⟨_, _, r.advance, by rw [operand, hcurrent]; rfl, (clean_hashLiteral h).mpr
        ⟨some [], r, reads_noPairs h (Nat.succ_pos _) hs hstart,
          .inr ⟨[], rfl, hend, rfl, rfl⟩⟩, hrest⟩
  | hash key value more trailing =>
      simp only [Phrase.yield, List.cons_append, List.append_assoc, List.nil_append] at hview
      obtain ⟨-, hstart⟩ := hs.current_of_view hview
      obtain ⟨ps, r₁, hps, hclose⟩ := reads_hashPairs h hd hproper hs hn (Nat.lt_succ_self _) hstart
      have hs₁ := hs.onward (hps.onward (moves_hashPairs h _))
      obtain ⟨hend, hrest⟩ := hs₁.upcoming_of_ahead hclose
      exact ⟨_, _, r₁.advance, by rw [operand, hcurrent]; rfl, (clean_hashLiteral h).mpr
        ⟨some ps, r₁, hps, .inr ⟨ps, rfl, hend, rfl, rfl⟩⟩, hrest⟩

end Rules

/-! ## Strata -/

/-- The reading of an expression that starts with a phrase reaches the loop over operators
behind that phrase. -/
def Reaches (n : Nat) {k : Nat} (c : Phrase k) : Prop :=
  ∀ (r : Reader) (rest : List Terminal), r.Sane → r.tokens.length ≤ n + 1 →
    r.view = c.yield ++ rest → Stops (k + 1) rest → ∃ e r₁ m, r₁.ahead = rest ∧ r₁.Sane ∧
      r₁.tokens.length ≤ r.tokens.length ∧ r₁.tokens.length ≤ m ∧
      ∀ (above : Nat) (e' : Expr) (r' : Reader), above ≤ limit k →
        Clean (operations (expression n) above m e) r₁ e' r' →
        Clean (expression (n + 1) above) r e' r'

section Strata

variable {n : Nat} (hd : ReadsPhrases (expression n) n)

/-- The loop ends before a token that does not bind tighter. -/
theorem clean_operations_stop {expr : Precedence → Parse Expr} (h : ∀ q, Moves (expr q))
    {above m : Nat} {r : Reader} {e : Expr} (hstop : r.upcoming.kind.precedence ≤ above) :
    Clean (operations expr above m e) r e r := by
  cases m with
  | zero => exact clean_pure.mpr ⟨rfl, rfl⟩
  | succ m => exact (clean_operations h).mpr (.inl ⟨Nat.not_lt_of_le hstop, rfl, rfl⟩)

/-- When the loop is reached, what stops the phrase ends it. -/
theorem Reaches.reads {k above : Nat} {c : Phrase k} (hc : Reaches n c) {r : Reader}
    {rest : List Terminal} (habove : above ≤ limit k) (hs : r.Sane)
    (hn : r.tokens.length ≤ n + 1) (hview : r.view = c.yield ++ rest)
    (helse : firstKind rest ≠ .elseWord) (hstop : (firstKind rest).precedence ≤ above) :
    ∃ e r', Clean (expression (n + 1) above) r e r' ∧ r'.ahead = rest := by
  have hlimit : limit k ≤ k + 1 := by
    unfold limit
    split <;> omega
  obtain ⟨e, r₁, m, hahead, hs₁, -, -, hgo⟩ := hc r _ hs hn hview
    ⟨helse, .inr (Nat.le_trans hstop (Nat.le_trans habove hlimit))⟩
  refine ⟨e, r₁, hgo _ _ _ habove (clean_operations_stop (moves_expression n) ?_), hahead⟩
  rw [← hs₁.firstKind_ahead, hahead]
  exact hstop

theorem Reaches.lift {k : Nat} {c : Phrase (k + 1)} (hc : Reaches n c) : Reaches n c.lift := by
  intro r rest hs hn hview hstop
  obtain ⟨e, r₁, m, hahead, hs₁, hle, hm, hgo⟩ := hc r _ hs hn hview hstop.succ
  refine ⟨e, r₁, m, hahead, hs₁, hle, hm, fun _ _ _ habove => hgo _ _ _ (Nat.le_trans habove ?_)⟩
  unfold limit
  split <;> split <;> omega

include hd

/-- Every derived atom is read as an operand. -/
theorem reaches_atom (c : Phrase 7) (hproper : c.Proper) : Reaches n c := by
  intro r rest hs hn hview hstop
  obtain ⟨first, e, r₁, hfirst, he, hahead⟩ :=
    reads_atom (moves_expression n) hd c hproper hs hn hview hstop.1
  have hmove := he.onward (moves_operand (moves_expression n) hfirst)
  exact ⟨e, r₁, r.tokens.length, hahead, hs.onward hmove, hmove.tokens.length_le,
    hmove.tokens.length_le,
    fun _ _ _ _ hops => clean_expression.mpr ⟨first, e, r₁, hfirst, he, hops⟩⟩

omit hd in
/-- One round of the loop: an operation that is read behind a phrase is behind the longer one. -/
theorem exists_round {k m : Nat} {r r₁ r₂ : Reader} {rest : List Terminal} {left e₁ : Expr}
    (hs₁ : r₁.Sane) (hle : r₁.tokens.length ≤ r.tokens.length) (hm : r₁.tokens.length ≤ m)
    (hk : r₁.upcoming.kind ≠ .eof)
    (hbinds : ∀ above, above ≤ limit k → above < r₁.upcoming.kind.precedence)
    (hop : Clean (operation (expression n) r₁.upcoming left) r₁.advance e₁ r₂)
    (hrest : r₂.ahead = rest)
    (hgo : ∀ (above : Nat) (e' : Expr) (r' : Reader), above ≤ limit k →
      Clean (operations (expression n) above m left) r₁ e' r' →
      Clean (expression (n + 1) above) r e' r') :
    ∃ e r₂ m, r₂.ahead = rest ∧ r₂.Sane ∧ r₂.tokens.length ≤ r.tokens.length ∧
      r₂.tokens.length ≤ m ∧ ∀ (above : Nat) (e' : Expr) (r' : Reader), above ≤ limit k →
        Clean (operations (expression n) above m e) r₂ e' r' →
        Clean (expression (n + 1) above) r e' r' := by
  have hmoves := moves_expression n
  have hlt := hs₁.length_advance_lt hk
  have hmove := hop.onward (moves_operation hmoves _ _)
  have hlen := hmove.tokens.length_le
  obtain ⟨m, rfl⟩ : ∃ m', m = m' + 1 := ⟨m - 1, by omega⟩
  refine ⟨e₁, r₂, m, hrest, hs₁.advance.onward hmove, by omega, by omega, ?_⟩
  intro above e' r' habove hops
  exact hgo above e' r' habove
    ((clean_operations hmoves).mpr (.inr ⟨hbinds above habove, e₁, r₂, hop, hops⟩))

/-- One more suffix is one more round of the loop. -/
theorem Reaches.attach {k : Nat} {c : Phrase k} (hc : Reaches n c) {x : Suffix k}
    (hx : x.Proper) : Reaches n (x.attach c) := by
  intro r rest hs hn hview hstop
  rw [Suffix.yield_attach, List.append_assoc] at hview
  obtain ⟨left, r₁, m, hahead, hs₁, hle, hm, hgo⟩ := hc r _ hs hn hview (x.stops_append rest).1
  have hmoves := moves_expression n
  have hle' := r₁.advance.length_advance_le
  cases x with
  | operator op stratum right =>
      obtain ⟨hk, hright⟩ := hs₁.upcoming_of_ahead hahead
      have hk : r₁.upcoming.kind = op.kind := hk
      have hne : r₁.upcoming.kind ≠ .eof := by
        rw [hk]
        cases op <;> decide
      have hstratum := op.stratum_le
      have hprec : r₁.upcoming.kind.precedence = k + 1 := by
        rw [hk, ← stratum]
        cases op <;> rfl
      have hlt := hs₁.length_advance_lt hne
      -- the right operand is read one stratum higher, so an operator of this one ends it
      obtain ⟨e₂, r₂, he₂, hrest⟩ := hd (k + 1) right hx
        (by unfold limit; split <;> omega) hs₁.advance.advance (by omega) hright hstop.1
        (hstop.2.resolve_left (by omega))
      rw [← hprec] at he₂
      refine exists_round hs₁ hle hm hne (fun above habove => ?_) ((clean_binary hmoves
        (hk ▸ op.kind_ne_lparen) (hk ▸ op.kind_ne_lbracket)).mpr ⟨e₂, he₂, rfl⟩) hrest hgo
      rw [hprec]
      unfold limit at habove
      split at habove
      · exact Nat.lt_succ_of_le habove
      · omega
  | call args =>
      simp only [Suffix.yield, List.cons_append, List.append_assoc, List.nil_append] at hahead
      obtain ⟨hk, hargs⟩ := hs₁.upcoming_of_ahead hahead
      have hne : r₁.upcoming.kind ≠ .eof := by
        rw [hk]
        decide
      have hlt := hs₁.length_advance_lt hne
      obtain ⟨es, r₂, hes, hrest⟩ := reads_expressionList hmoves hd (.inl rfl) hx hs₁.advance
        (by omega) hargs
      refine exists_round hs₁ hle hm hne (fun above habove => ?_) ((clean_call hmoves hk).mpr
        ⟨some es, hes, .inr ⟨es, rfl, rfl⟩⟩) hrest hgo
      rw [hk]
      exact Nat.lt_of_le_of_lt habove (by decide)
  | index inner =>
      simp only [Suffix.yield, List.cons_append, List.append_assoc, List.nil_append] at hahead
      obtain ⟨hk, hinner⟩ := hs₁.upcoming_of_ahead hahead
      have hne : r₁.upcoming.kind ≠ .eof := by
        rw [hk]
        decide
      have hlt := hs₁.length_advance_lt hne
      obtain ⟨e₂, r₂, he₂, hclose⟩ := reads_lowest hd hx hs₁.advance.advance (by omega) hinner
        (.of_kind (Nat.le_refl 1) (by decide) (by decide))
      obtain ⟨hend, hrest⟩ :=
        (hs₁.advance.advance.onward (he₂.onward (hmoves _))).upcoming_of_ahead hclose
      refine exists_round hs₁ hle hm hne (fun above habove => ?_) ((clean_index hmoves hk).mpr
        ⟨e₂, r₂, he₂, hend, rfl, rfl⟩) hrest hgo
      rw [hk]
      exact Nat.lt_of_le_of_lt habove (by decide)

/-- A left recursive stratum, given the next one. -/
theorem reaches_suffixes {k : Nat} (hk : k ≠ 5) (hk' : k ≠ 7)
    (hnext : ∀ c : Phrase (k + 1), c.Proper → Reaches n c) (c : Phrase k) (hproper : c.Proper) :
    Reaches n c := by
  obtain ⟨first, xs, rfl⟩ := c.exists_suffixes hk hk'
  rw [Suffix.proper_foldl_attach] at hproper
  obtain ⟨hfirst, hxs⟩ := hproper
  have hstart : Reaches n first.lift := (hnext first hfirst).lift
  generalize first.lift = c at hstart
  induction xs generalizing c with
  | nil => exact hstart
  | cons x xs ih =>
      rw [List.forall_mem_cons] at hxs
      exact ih hxs.2 (x.attach c) (hstart.attach hd hxs.1)

/-- The stratum of signs, given the next one. -/
theorem reaches_signs (hnext : ∀ c : Phrase 6, c.Proper → Reaches n c) (c : Phrase 5)
    (hproper : c.Proper) : Reaches n c := by
  cases c with
  | binary op stratum left right => exact absurd stratum (by cases op <;> decide)
  | lift inner => exact (hnext inner hproper).lift
  | unary sign operand =>
      intro r rest hs hn hview hstop
      have hmoves := moves_expression n
      obtain ⟨hterminal, hoperand⟩ := hs.current_of_view hview
      have hk : r.current.kind = sign.kind := congrArg Terminal.kind hterminal
      have hlt := hs.length_advance_of_current (by rw [hk]; cases sign <;> decide)
      obtain ⟨e, r₁, he, hahead⟩ := hd 6 operand hproper (by decide) hs.advance (by omega)
        hoperand hstop.1 (hstop.2.resolve_left (by decide))
      have hfirst : Monkey.operand (expression n) r.current
          = some (unaryExpression (expression n) sign.op) := by
        rw [Monkey.operand, hk]
        cases sign <;> rfl
      have hmove := (he.onward (hmoves _)).tokens.length_le
      refine ⟨_, r₁, r.tokens.length, hahead, hs.advance.onward (he.onward (hmoves _)), by omega,
        by omega, fun _ _ _ _ hops => clean_expression.mpr ⟨_, _, r₁, hfirst,
          (clean_unaryExpression hmoves).mpr ⟨e, he, rfl⟩, hops⟩⟩

/-- Every stratum, from the last one down. -/
theorem reaches_phrase {k : Nat} (c : Phrase k) (hk : 1 ≤ k) (hproper : c.Proper) :
    Reaches n c := by
  have h₇ : ∀ c : Phrase 7, c.Proper → Reaches n c := reaches_atom hd
  have h₆ := reaches_suffixes hd (k := 6) (by decide) (by decide) h₇
  have h₅ := reaches_signs hd h₆
  have h₄ := reaches_suffixes hd (k := 4) (by decide) (by decide) h₅
  have h₃ := reaches_suffixes hd (k := 3) (by decide) (by decide) h₄
  have h₂ := reaches_suffixes hd (k := 2) (by decide) (by decide) h₃
  have h₁ := reaches_suffixes hd (k := 1) (by decide) (by decide) h₂
  have hle := c.stratum_le
  match k, hk, hle with
  | 1, _, _ => exact h₁ c hproper
  | 2, _, _ => exact h₂ c hproper
  | 3, _, _ => exact h₃ c hproper
  | 4, _, _ => exact h₄ c hproper
  | 5, _, _ => exact h₅ c hproper
  | 6, _, _ => exact h₆ c hproper
  | 7, _, _ => exact h₇ c hproper

end Strata

/-! ## Tying the knot -/

/-- Expressions read every phrase, if they may be nested as deep as there are tokens. -/
theorem reads_expression (n : Nat) : ReadsPhrases (expression n) n := by
  induction n with
  | zero =>
      intro k above c r rest hproper habove hs hn hview
      -- a phrase is not empty, but no token is left
      have hlen := congrArg List.length hview
      rw [Reader.length_view, List.length_append] at hlen
      have := c.length_yield_pos
      omega
  | succ n ih =>
      intro k above c r rest hproper habove hs hn hview helse hstop
      rcases Nat.eq_zero_or_pos k with rfl | hk
      · -- a phrase below the first stratum is one of the first, but nothing stops it
        have hzero : (firstKind rest).precedence ≤ 0 := Nat.le_trans hstop habove
        exact absurd hzero (by cases firstKind rest <;> decide)
      · exact (reaches_phrase ih c hk hproper).reads habove hs hn hview helse hstop

end Monkey
