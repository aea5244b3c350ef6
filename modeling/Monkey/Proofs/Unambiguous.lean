import Monkey.Proofs.Strata

/-!
# The grammar is unambiguous

Two phrases of one stratum that derive the same terminals, up to what follows them,
are the same phrase, as long as neither is followed by a token that could continue it
(`Stops`). The proof is by induction on how many terminals a phrase derives and, for
phrases of one length, from the tightest stratum down to the loosest.

The strata of operators and of calls are left recursive. A phrase of such a stratum
is one of the next stratum with suffixes attached to it one after another
(`Phrase.exists_suffixes`), and each suffix starts with a token that the phrases before
it stop at, so the suffixes are found one by one.
-/

namespace Monkey

namespace Grammar

/-! ## Where a phrase stops -/

/-- Terminals that cannot continue a phrase of the given stratum: they start with no
operator, call or index of that stratum or a tighter one, and with no `else`. -/
def Stops (k : Nat) (ts : List Terminal) : Prop :=
  firstKind ts ≠ .elseWord ∧ (k = 7 ∨ (firstKind ts).precedence ≤ k)

/-- A token that is no operator stops every phrase. -/
theorem Stops.of_kind {k : Nat} (hk : 1 ≤ k) {t : Terminal} {ts : List Terminal}
    (ht : t.kind ≠ .elseWord) (hp : t.kind.precedence = 1) : Stops k (t :: ts) :=
  ⟨ht, .inr (hp ▸ hk)⟩

/-- What stops a phrase stops one of a tighter stratum. -/
theorem Stops.succ {k : Nat} {ts : List Terminal} (h : Stops k ts) : Stops (k + 1) ts :=
  ⟨h.1, h.2.elim (fun hk => .inr (by subst hk; cases firstKind ts <;> decide))
    fun hp => .inr (Nat.le_succ_of_le hp)⟩

/-- A phrase is the only one that derives its terminals, up to what stops it. -/
def Phrase.Settled {k : Nat} (c : Phrase k) : Prop :=
  ∀ (d : Phrase k) {r s : List Terminal}, c.Proper → d.Proper → Stops k r → Stops k s →
    c.yield ++ r = d.yield ++ s → c = d ∧ r = s

/-! ## Suffixes -/

/-- What stands after the left operand in a left recursive production. -/
inductive Suffix : Nat → Type where
  | operator {k : Nat} (op : Operator) (stratum : op.stratum = k) (right : Phrase (k + 1)) :
    Suffix k
  | call (args : List (Phrase 1)) : Suffix 6
  | index (inner : Phrase 1) : Suffix 6

namespace Suffix

/-- The phrase of a left operand with a suffix. -/
def attach : {k : Nat} → Phrase k → Suffix k → Phrase k
  | _, left, .operator op stratum right => .binary op stratum left right
  | _, callee, .call args => .call callee args
  | _, left, .index inner => .index left inner

/-- The terminals of a suffix. -/
def yield : {k : Nat} → Suffix k → List Terminal
  | _, .operator op _ right => op.kind.terminal :: right.yield
  | _, .call args => Kind.lparen.terminal :: (yieldList args ++ [Kind.rparen.terminal])
  | _, .index inner => Kind.lbracket.terminal :: (inner.yield ++ [Kind.rbracket.terminal])

/-- The conditions on a suffix. -/
def Proper : {k : Nat} → Suffix k → Prop
  | _, .operator _ _ right => right.Proper
  | _, .call args => ProperList args
  | _, .index inner => inner.Proper

/-- A phrase with a suffix derives what the two derive one after the other. -/
theorem yield_attach {k : Nat} (c : Phrase k) (x : Suffix k) :
    (x.attach c).yield = c.yield ++ x.yield := by
  cases x <;> rfl

/-- A phrase with a suffix is proper exactly if both are. -/
theorem proper_attach {k : Nat} (c : Phrase k) (x : Suffix k) :
    (x.attach c).Proper ↔ c.Proper ∧ x.Proper := by
  cases x <;> exact Iff.rfl

/-- A phrase with suffixes derives what they derive one after the other. -/
theorem yield_foldl_attach {k : Nat} (c : Phrase k) (xs : List (Suffix k)) :
    (xs.foldl (fun c x => x.attach c) c).yield = c.yield ++ xs.flatMap yield := by
  induction xs generalizing c with
  | nil => exact (List.append_nil _).symm
  | cons x xs ih =>
      rw [List.foldl_cons, ih, yield_attach, List.flatMap_cons, List.append_assoc]

/-- A phrase with suffixes is proper exactly if all of them are. -/
theorem proper_foldl_attach {k : Nat} (c : Phrase k) (xs : List (Suffix k)) :
    (xs.foldl (fun c x => x.attach c) c).Proper ↔ c.Proper ∧ ∀ x ∈ xs, x.Proper := by
  induction xs generalizing c with
  | nil => simp
  | cons x xs ih =>
      rw [List.foldl_cons, ih, proper_attach, List.forall_mem_cons, and_assoc]

/-- A suffix binds tighter than its stratum stops at, but stops the next one. -/
theorem stops_append {k : Nat} (x : Suffix k) (rest : List Terminal) :
    Stops (k + 1) (x.yield ++ rest) ∧ ¬ Stops k (x.yield ++ rest) := by
  cases x with
  | operator op stratum right =>
      subst stratum
      have hfirst : firstKind ((operator op rfl right).yield ++ rest) = op.kind := rfl
      rw [Stops, Stops, hfirst]
      cases op <;> decide
  | call args =>
      have hfirst : firstKind ((call args).yield ++ rest) = .lparen := rfl
      rw [Stops, Stops, hfirst]
      decide
  | index inner =>
      have hfirst : firstKind ((index inner).yield ++ rest) = .lbracket := rfl
      rw [Stops, Stops, hfirst]
      decide

end Suffix

/-- A phrase of a left recursive stratum is one of the next with suffixes. -/
theorem Phrase.exists_suffixes : {k : Nat} → (c : Phrase k) → k ≠ 5 → k ≠ 7 →
    ∃ (first : Phrase (k + 1)) (xs : List (Suffix k)),
      c = xs.foldl (fun c x => x.attach c) first.lift
  | _, .call callee args, h, h' => by
      obtain ⟨first, xs, rfl⟩ := callee.exists_suffixes h h'
      exact ⟨first, xs ++ [.call args], by rw [List.foldl_append]; rfl⟩
  | _, .index left inner, h, h' => by
      obtain ⟨first, xs, rfl⟩ := left.exists_suffixes h h'
      exact ⟨first, xs ++ [.index inner], by rw [List.foldl_append]; rfl⟩
  | _, .binary op stratum left right, h, h' => by
      obtain ⟨first, xs, rfl⟩ := left.exists_suffixes h h'
      exact ⟨first, xs ++ [.operator op stratum right], by rw [List.foldl_append]; rfl⟩
  | _, .lift inner, _, _ => ⟨inner, [], rfl⟩
  | _, .unary _ _, h, _ => absurd rfl h
  | _, .ident _, _, h | _, .int _, _, h | _, .str _, _, h | _, .bool _, _, h | _, .group _, _, h
  | _, .cond _ _, _, h | _, .condElse _ _ _, _, h | _, .fn _ _, _, h | _, .array _, _, h
  | _, .emptyHash, _, h | _, .hash _ _ _ _, _, h => absurd rfl h

/-! ## Lists

In what follows, shorter phrases are known to be settled. -/

/-- Names after commas can be told from what they derive, up to the closing parenthesis. -/
theorem yieldMoreNames_inj {ns ms : List Text} {r s : List Terminal}
    (heq : yieldMoreNames ns ++ Kind.rparen.terminal :: r
      = yieldMoreNames ms ++ Kind.rparen.terminal :: s) : ns = ms ∧ r = s := by
  induction ns generalizing ms with
  | nil =>
      cases ms with
      | nil => exact ⟨rfl, (List.cons.inj heq).2⟩
      | cons m ms =>
          exact absurd (congrArg firstKind heq) (show Kind.rparen ≠ .comma by decide)
  | cons n ns ih =>
      cases ms with
      | nil => exact absurd (congrArg firstKind heq) (show Kind.comma ≠ .rparen by decide)
      | cons m ms =>
          obtain ⟨-, heq⟩ := List.cons.inj heq
          obtain ⟨hname, heq⟩ := List.cons.inj heq
          obtain ⟨rfl, rfl⟩ := ih heq
          cases hname
          exact ⟨rfl, rfl⟩

/-- Names between parentheses can be told from what they derive. -/
theorem yieldNames_inj {ns ms : List Text} {r s : List Terminal}
    (heq : yieldNames ns ++ Kind.rparen.terminal :: r
      = yieldNames ms ++ Kind.rparen.terminal :: s) : ns = ms ∧ r = s := by
  cases ns with
  | nil =>
      cases ms with
      | nil => exact ⟨rfl, (List.cons.inj heq).2⟩
      | cons m ms =>
          exact absurd (congrArg firstKind heq) (show Kind.rparen ≠ .ident by decide)
  | cons n ns =>
      cases ms with
      | nil => exact absurd (congrArg firstKind heq) (show Kind.ident ≠ .rparen by decide)
      | cons m ms =>
          obtain ⟨hname, heq⟩ := List.cons.inj heq
          obtain ⟨rfl, rfl⟩ := yieldMoreNames_inj heq
          cases hname
          exact ⟨rfl, rfl⟩

section Shorter

variable {n : Nat} (H : ∀ {k : Nat} (c : Phrase k), 1 ≤ k → c.yield.length < n → c.Settled)

/-- The two closing tokens of lists. -/
def closes (k : Kind) : Prop :=
  k = .rparen ∨ k = .rbracket

/-- A closing token ends any expression. -/
theorem closes.stops {k : Kind} (hk : closes k) (r : List Terminal) :
    Stops 1 (k.terminal :: r) := by
  rcases hk with rfl | rfl <;> exact .of_kind (Nat.le_refl 1) (by decide) (by decide)

/-- The end of a list stops its last element. -/
theorem stops_yieldMore (cs : List (Phrase 1)) {k : Kind} (hk : closes k) (r : List Terminal) :
    Stops 1 (yieldMore cs ++ k.terminal :: r) := by
  cases cs with
  | nil => exact hk.stops r
  | cons c cs => exact .of_kind (Nat.le_refl 1) (by decide) (by decide)

include H

/-- Phrases after commas can be told from what they derive, up to the closing token. The induction
is on the phrases; each is settled since it is shorter than the whole. -/
theorem yieldMore_inj {cs ds : List (Phrase 1)} {k : Kind} (hk : closes k) {r s : List Terminal}
    (hn : (yieldMore cs).length < n) (hcs : ProperList cs) (hds : ProperList ds)
    (heq : yieldMore cs ++ k.terminal :: r = yieldMore ds ++ k.terminal :: s) :
    cs = ds ∧ r = s := by
  have hcomma : k ≠ .comma := by rcases hk with rfl | rfl <;> decide
  induction cs generalizing ds with
  | nil =>
      cases ds with
      | nil => exact ⟨rfl, (List.cons.inj heq).2⟩
      | cons d ds => exact absurd (congrArg firstKind heq) hcomma
  | cons c cs ih =>
      cases ds with
      | nil => exact absurd (congrArg firstKind heq).symm hcomma
      | cons d ds =>
          simp only [yieldMore, List.length_cons, List.length_append] at hn
          simp only [yieldMore, List.cons_append, List.append_assoc, List.cons.injEq,
            true_and] at heq
          obtain ⟨rfl, hrest⟩ := H c (Nat.le_refl 1) (by omega) d hcs.1 hds.1
            (stops_yieldMore cs hk r) (stops_yieldMore ds hk s) heq
          obtain ⟨rfl, rfl⟩ := ih (by omega) hcs.2 hds.2 hrest
          exact ⟨rfl, rfl⟩

/-- Phrases with commas between them can be told from what they derive, up to the closing token. -/
theorem yieldList_inj {cs ds : List (Phrase 1)} {k : Kind} (hk : closes k) {r s : List Terminal}
    (hn : (yieldList cs).length < n) (hcs : ProperList cs) (hds : ProperList ds)
    (heq : yieldList cs ++ k.terminal :: r = yieldList ds ++ k.terminal :: s) :
    cs = ds ∧ r = s := by
  have hstarts : starts k = false := by rcases hk with rfl | rfl <;> rfl
  -- a phrase does not start with the closing token, so an empty list is not taken for another
  have hmixed {c : Phrase 1} {cs : List (Phrase 1)} {r s : List Terminal}
      (heq : k.terminal :: r = yieldList (c :: cs) ++ s) : False := by
    have hfirst := c.starts_append (yieldMore cs ++ s)
    rw [← List.append_assoc, ← yieldList, ← heq] at hfirst
    exact absurd (hstarts.symm.trans hfirst) (by decide)
  cases cs with
  | nil =>
      cases ds with
      | nil => exact ⟨rfl, (List.cons.inj heq).2⟩
      | cons d ds => exact (hmixed heq).elim
  | cons c cs =>
      cases ds with
      | nil => exact (hmixed heq.symm).elim
      | cons d ds =>
          simp only [yieldList, List.length_append] at hn
          simp only [yieldList, List.append_assoc] at heq
          obtain ⟨rfl, hrest⟩ := H c (Nat.le_refl 1) (by omega) d hcs.1 hds.1
            (stops_yieldMore cs hk r) (stops_yieldMore ds hk s) heq
          obtain ⟨rfl, rfl⟩ := yieldMore_inj H hk (by omega) hcs.2 hds.2 hrest
          exact ⟨rfl, rfl⟩

omit H in
/-- What follows the value of a pair stops it. -/
theorem stops_yieldMorePairs (ps : List (Phrase 1 × Phrase 1)) (trailing : Bool)
    (r : List Terminal) :
    Stops 1 (yieldMorePairs ps ++ (optional .comma trailing ++ Kind.rbrace.terminal :: r)) := by
  cases ps with
  | nil => cases trailing <;> exact .of_kind (Nat.le_refl 1) (by decide) (by decide)
  | cons p ps => exact .of_kind (Nat.le_refl 1) (by decide) (by decide)

omit H in
/-- Pairs never begin where a hash ends. -/
theorem end_ne_yieldMorePairs {p : Phrase 1 × Phrase 1} {ps : List (Phrase 1 × Phrase 1)}
    {trailing : Bool} {r s : List Terminal}
    (heq : optional .comma trailing ++ Kind.rbrace.terminal :: r = yieldMorePairs (p :: ps) ++ s) :
    False := by
  cases trailing with
  | false => exact absurd (congrArg firstKind heq) (show Kind.rbrace ≠ .comma by decide)
  | true =>
      have hrest : Kind.rbrace.terminal :: r
          = (p.1.yield ++ Kind.colon.terminal :: (p.2.yield ++ yieldMorePairs ps)) ++ s :=
        (List.cons.inj heq).2
      rw [List.append_assoc] at hrest
      have hfirst :=
        p.1.starts_append (Kind.colon.terminal :: (p.2.yield ++ yieldMorePairs ps) ++ s)
      rw [← hrest] at hfirst
      exact absurd hfirst (show starts .rbrace ≠ true by decide)

theorem yieldMorePairs_inj {ps qs : List (Phrase 1 × Phrase 1)} {a b : Bool} {r s : List Terminal}
    (hn : (yieldMorePairs ps).length < n) (hps : ProperPairs ps) (hqs : ProperPairs qs)
    (heq : yieldMorePairs ps ++ (optional .comma a ++ Kind.rbrace.terminal :: r)
      = yieldMorePairs qs ++ (optional .comma b ++ Kind.rbrace.terminal :: s)) :
    ps = qs ∧ a = b ∧ r = s := by
  induction ps generalizing qs with
  | nil =>
      cases qs with
      | nil =>
          -- after the pairs there is a comma or the brace, and that tells whether a comma was left
          -- over
          cases a <;> cases b
          · exact ⟨rfl, rfl, (List.cons.inj heq).2⟩
          · exact absurd (congrArg firstKind heq) (show Kind.rbrace ≠ .comma by decide)
          · exact absurd (congrArg firstKind heq) (show Kind.comma ≠ .rbrace by decide)
          · exact ⟨rfl, rfl, (List.cons.inj (List.cons.inj heq).2).2⟩
      | cons q qs => exact (end_ne_yieldMorePairs heq).elim
  | cons p ps ih =>
      cases qs with
      | nil => exact (end_ne_yieldMorePairs heq.symm).elim
      | cons q qs =>
          obtain ⟨key, value⟩ := p
          obtain ⟨key', value'⟩ := q
          simp only [yieldMorePairs, List.length_cons, List.length_append] at hn
          simp only [yieldMorePairs, List.cons_append, List.append_assoc, List.cons.injEq,
            true_and] at heq
          obtain ⟨hkey, hvalue, hps⟩ := hps
          obtain ⟨hkey', hvalue', hqs⟩ := hqs
          obtain ⟨rfl, hrest⟩ := H key (Nat.le_refl 1) (by omega) key' hkey hkey'
            (.of_kind (Nat.le_refl 1) (by decide) (by decide))
            (.of_kind (Nat.le_refl 1) (by decide) (by decide)) heq
          obtain ⟨rfl, htail⟩ := H value (Nat.le_refl 1) (by omega) value' hvalue hvalue'
            (stops_yieldMorePairs ps a r) (stops_yieldMorePairs qs b s) (List.cons.inj hrest).2
          obtain ⟨rfl, rfl, rfl⟩ := ih (by omega) hps hqs htail
          exact ⟨rfl, rfl, rfl⟩

/-! ## Statements -/

omit H in
/-- A statement's end stops its expression. -/
theorem stops_optional {closed : Bool} {r : List Terminal} (hr : firstKind r ≠ .elseWord)
    (hnext : closed = false → endsBefore (firstKind r)) :
    Stops 1 (optional .semicolon closed ++ r) := by
  cases closed with
  | true => exact .of_kind (Nat.le_refl 1) (by decide) (by decide)
  | false =>
      refine ⟨hr, .inr (Nat.le_of_not_lt fun hlt => ?_)⟩
      have hyes := (continues_iff (firstKind r)).mpr hlt
      rw [(hnext rfl).2] at hyes
      exact absurd hyes (by decide)

/-- The expression at the end of a statement, with or without a semicolon. -/
theorem value_inj {v w : Phrase 1} {a b : Bool} {r s : List Terminal} (hn : v.yield.length < n)
    (hv : v.Proper) (hw : w.Proper) (hr : firstKind r ≠ .elseWord) (hs : firstKind s ≠ .elseWord)
    (ha : a = false → endsBefore (firstKind r)) (hb : b = false → endsBefore (firstKind s))
    (heq : v.yield ++ optional .semicolon a ++ r = w.yield ++ optional .semicolon b ++ s) :
    v = w ∧ a = b ∧ r = s := by
  rw [List.append_assoc, List.append_assoc] at heq
  obtain ⟨rfl, hrest⟩ := H v (Nat.le_refl 1) hn w hv hw (stops_optional hr ha)
    (stops_optional hs hb) heq
  cases a <;> cases b
  · exact ⟨rfl, rfl, hrest⟩
  · exact absurd (congrArg firstKind hrest) (ha rfl).1
  · exact absurd (congrArg firstKind hrest).symm (hb rfl).1
  · exact ⟨rfl, rfl, (List.cons.inj hrest).2⟩

omit H in
/-- A return without a value ends before its semicolon or before the end of its block. -/
theorem not_starts_bare {closed : Bool} {r : List Terminal}
    (hnext : (Sentence.bare closed).MayPrecede (firstKind r)) :
    starts (firstKind (optional .semicolon closed ++ r)) = false := by
  cases closed with
  | true => rfl
  | false =>
      show starts (firstKind r) = false
      rcases hnext rfl with hk | hk <;> rw [hk] <;> rfl

omit H in
/-- How a statement starts. -/
theorem Sentence.starts (c : Sentence) (r : List Terminal) :
    firstKind (c.yield ++ r) = .letWord ∨ firstKind (c.yield ++ r) = .returnWord ∨
      Grammar.starts (firstKind (c.yield ++ r)) = true := by
  cases c with
  | bind name value closed => exact .inl rfl
  | ret value closed => exact .inr (.inl rfl)
  | bare closed => exact .inr (.inl rfl)
  | expr value closed =>
      rw [Sentence.yield, List.append_assoc]
      exact .inr (.inr (value.starts_append _))

/-- A sentence can be told from what it derives, if what follows cannot go on with it. -/
theorem Sentence.yield_inj {c d : Sentence} {r s : List Terminal} (hn : c.yield.length < n)
    (hc : c.Proper) (hd : d.Proper) (hr : firstKind r ≠ .elseWord) (hs : firstKind s ≠ .elseWord)
    (hcr : c.MayPrecede (firstKind r)) (hds : d.MayPrecede (firstKind s))
    (heq : c.yield ++ r = d.yield ++ s) : c = d ∧ r = s := by
  have hword {v : Phrase 1} {a : Bool} {k : Kind} {r s : List Terminal}
      (hk : Grammar.starts k = false)
      (heq : v.yield ++ optional .semicolon a ++ r = k.terminal :: s) : False := by
    have hfirst := v.starts_append (optional .semicolon a ++ r)
    rw [← List.append_assoc, heq] at hfirst
    exact absurd (hk.symm.trans hfirst) (by decide)
  have hbare {v : Phrase 1} {a b : Bool} {r s : List Terminal}
      (hb : (Sentence.bare b).MayPrecede (firstKind s))
      (heq : v.yield ++ optional .semicolon a ++ r = optional .semicolon b ++ s) : False := by
    have hfirst := v.starts_append (optional .semicolon a ++ r)
    rw [← List.append_assoc, heq, not_starts_bare hb] at hfirst
    exact absurd hfirst (by decide)
  -- the first terminal tells the kinds of sentences apart, but for the two that return
  cases c with
  | bind name value closed =>
      simp only [Sentence.yield, List.length_cons, List.length_append] at hn
      cases d with
      | bind name' value' closed' =>
          obtain ⟨-, heq⟩ := List.cons.inj heq
          obtain ⟨hname, heq⟩ := List.cons.inj heq
          obtain ⟨-, heq⟩ := List.cons.inj heq
          obtain ⟨rfl, rfl, rfl⟩ := value_inj H (by omega) hc hd hr hs hcr hds heq
          cases hname
          exact ⟨rfl, rfl⟩
      | ret value' closed' =>
          exact absurd (congrArg firstKind heq) (show Kind.letWord ≠ .returnWord by decide)
      | bare closed' =>
          exact absurd (congrArg firstKind heq) (show Kind.letWord ≠ .returnWord by decide)
      | expr value' closed' => exact (hword (by decide) heq.symm).elim
  | ret value closed =>
      simp only [Sentence.yield, List.length_cons, List.length_append] at hn
      cases d with
      | bind name' value' closed' =>
          exact absurd (congrArg firstKind heq) (show Kind.returnWord ≠ .letWord by decide)
      | ret value' closed' =>
          obtain ⟨-, heq⟩ := List.cons.inj heq
          obtain ⟨rfl, rfl, rfl⟩ := value_inj H (by omega) hc hd hr hs hcr hds heq
          exact ⟨rfl, rfl⟩
      | bare closed' => exact (hbare hds (List.cons.inj heq).2).elim
      | expr value' closed' => exact (hword (by decide) heq.symm).elim
  | bare closed =>
      cases d with
      | bind name' value' closed' =>
          exact absurd (congrArg firstKind heq) (show Kind.returnWord ≠ .letWord by decide)
      | ret value' closed' => exact (hbare hcr (List.cons.inj heq).2.symm).elim
      | bare closed' =>
          obtain ⟨-, heq⟩ := List.cons.inj heq
          cases closed <;> cases closed'
          · exact ⟨rfl, heq⟩
          -- one of them ended before a semicolon, which it may not
          · have hsemicolon : firstKind r = .semicolon := congrArg firstKind heq
            exact absurd (hcr rfl) (by rw [hsemicolon]; decide)
          · have hsemicolon : firstKind s = .semicolon := (congrArg firstKind heq).symm
            exact absurd (hds rfl) (by rw [hsemicolon]; decide)
          · exact ⟨rfl, (List.cons.inj heq).2⟩
      | expr value' closed' => exact (hword (by decide) heq.symm).elim
  | expr value closed =>
      simp only [Sentence.yield, List.length_append] at hn
      cases d with
      | bind name' value' closed' => exact (hword (by decide) heq).elim
      | ret value' closed' => exact (hword (by decide) heq).elim
      | bare closed' => exact (hword (by decide) heq).elim
      | expr value' closed' =>
          obtain ⟨rfl, rfl, rfl⟩ := value_inj H (by omega) hc hd hr hs hcr hds heq
          exact ⟨rfl, rfl⟩

omit H in
/-- A statement does not start with what ends a block or goes on after one. -/
theorem Sentence.firstKind_ne {k : Kind} (hk : k = .rbrace ∨ k = .eof ∨ k = .elseWord)
    (c : Sentence) (r : List Terminal) : firstKind (c.yield ++ r) ≠ k := by
  intro hfirst
  have hstart := c.starts r
  rw [hfirst] at hstart
  rcases hk with rfl | rfl | rfl <;> exact absurd hstart (by decide)

omit H in
/-- Every sentence derives a terminal. -/
theorem Sentence.length_yield_pos (c : Sentence) : 0 < c.yield.length := by
  cases hy : c.yield with
  | nil => exact absurd (by rw [hy]; rfl) (c.firstKind_ne (.inr (.inl rfl)) [])
  | cons t ts => exact Nat.succ_pos _

/-- Whether terminals start as what follows the statements of a block or a program. -/
def endsStatements (ts : List Terminal) : Prop :=
  firstKind ts = .rbrace ∨ firstKind ts = .eof

omit H in
/-- Nothing that follows a statement is an `else`. -/
theorem firstKind_yieldStatements_ne (cs : List Sentence) {r : List Terminal}
    (hr : endsStatements r) : firstKind (yieldStatements cs ++ r) ≠ .elseWord := by
  cases cs with
  | nil => rcases hr with hk | hk <;> exact fun h => absurd (hk.symm.trans h) (by decide)
  | cons c cs =>
      rw [yieldStatements, List.append_assoc]
      exact c.firstKind_ne (.inr (.inr rfl)) _

/-- Sentences one after the other can be told from what they derive, up to what ends them. -/
theorem yieldStatements_inj {cs ds : List Sentence} {r s : List Terminal}
    (hn : (yieldStatements cs).length < n) (hcs : ProperStatements r cs)
    (hds : ProperStatements s ds) (hr : endsStatements r) (hs : endsStatements s)
    (heq : yieldStatements cs ++ r = yieldStatements ds ++ s) : cs = ds ∧ r = s := by
  have hend {c : Sentence} {cs : List Sentence} {r s : List Terminal} (hr : endsStatements r)
      (heq : r = yieldStatements (c :: cs) ++ s) : False := by
    rw [yieldStatements, List.append_assoc] at heq
    subst heq
    rcases hr with hk | hk
    · exact c.firstKind_ne (.inl rfl) _ hk
    · exact c.firstKind_ne (.inr (.inl rfl)) _ hk
  induction cs generalizing ds with
  | nil =>
      cases ds with
      | nil => exact ⟨rfl, heq⟩
      | cons d ds => exact (hend hr heq).elim
  | cons c cs ih =>
      cases ds with
      | nil => exact (hend hs heq.symm).elim
      | cons d ds =>
          simp only [yieldStatements, List.length_append] at hn
          simp only [yieldStatements, List.append_assoc] at heq
          obtain ⟨hc, hcnext, hcs⟩ := hcs
          obtain ⟨hd, hdnext, hds⟩ := hds
          -- each sentence is told by itself, since it is shorter than all of them together
          obtain ⟨rfl, hrest⟩ := Sentence.yield_inj H (by omega) hc hd
            (firstKind_yieldStatements_ne cs hr) (firstKind_yieldStatements_ne ds hs)
            hcnext hdnext heq
          obtain ⟨rfl, rfl⟩ := ih (by omega) hcs hds hrest
          exact ⟨rfl, rfl⟩

/-- The statements of a block, up to its closing brace. -/
theorem block_inj {cs ds : List Sentence} {r s : List Terminal}
    (hn : (yieldStatements cs).length < n) (hcs : ProperStatements [Kind.rbrace.terminal] cs)
    (hds : ProperStatements [Kind.rbrace.terminal] ds)
    (heq : yieldStatements cs ++ Kind.rbrace.terminal :: r
      = yieldStatements ds ++ Kind.rbrace.terminal :: s) : cs = ds ∧ r = s := by
  have hcs' : ProperStatements (Kind.rbrace.terminal :: r) cs :=
    hcs.congr (show firstKind [Kind.rbrace.terminal] = firstKind (_ :: r) from rfl)
  have hds' : ProperStatements (Kind.rbrace.terminal :: s) ds :=
    hds.congr (show firstKind [Kind.rbrace.terminal] = firstKind (_ :: s) from rfl)
  obtain ⟨rfl, hrest⟩ := yieldStatements_inj H hn hcs' hds' (.inl rfl) (.inl rfl) heq
  exact ⟨rfl, (List.cons.inj hrest).2⟩

/-- The test of a conditional with the block after it. -/
theorem test_inj {test test' : Phrase 1} {cs ds : List Sentence} {r s : List Terminal}
    (hn : test.yield.length + (yieldStatements cs).length < n) (htest : test.Proper)
    (htest' : test'.Proper) (hcs : ProperStatements [Kind.rbrace.terminal] cs)
    (hds : ProperStatements [Kind.rbrace.terminal] ds)
    (heq : test.yield ++ Kind.rparen.terminal :: Kind.lbrace.terminal
        :: (yieldStatements cs ++ Kind.rbrace.terminal :: r)
      = test'.yield ++ Kind.rparen.terminal :: Kind.lbrace.terminal
        :: (yieldStatements ds ++ Kind.rbrace.terminal :: s)) :
    test = test' ∧ cs = ds ∧ r = s := by
  have hparen {ts : List Terminal} : Stops 1 (Kind.rparen.terminal :: ts) :=
    .of_kind (Nat.le_refl 1) (by decide) (by decide)
  obtain ⟨rfl, hrest⟩ := H test (Nat.le_refl 1) (by omega) test' htest htest' hparen hparen heq
  simp only [List.cons.injEq, true_and] at hrest
  exact ⟨rfl, block_inj H (by omega) hcs hds hrest⟩

/-! ## Atoms -/

omit H in
/-- The phrases of the seventh stratum are those of its own productions. -/
@[elab_as_elim]
theorem Phrase.atomCases {motive : Phrase 7 → Prop} (ident : ∀ name, motive (.ident name))
    (int : ∀ digits, motive (.int digits)) (str : ∀ content, motive (.str content))
    (bool : ∀ value, motive (.bool value)) (group : ∀ inner, motive (.group inner))
    (cond : ∀ test consequence, motive (.cond test consequence))
    (condElse : ∀ test consequence alternative, motive (.condElse test consequence alternative))
    (fn : ∀ params body, motive (.fn params body)) (array : ∀ elements, motive (.array elements))
    (emptyHash : motive .emptyHash)
    (hash : ∀ key value more trailing, motive (.hash key value more trailing)) (c : Phrase 7) :
    motive c := by
  cases c with
  | ident name => exact ident name
  | int digits => exact int digits
  | str content => exact str content
  | bool value => exact bool value
  | group inner => exact group inner
  | cond test consequence => exact cond test consequence
  | condElse test consequence alternative => exact condElse test consequence alternative
  | fn params body => exact fn params body
  | array elements => exact array elements
  | emptyHash => exact emptyHash
  | hash key value more trailing => exact hash key value more trailing
  | binary op stratum left right => exact absurd stratum (by cases op <;> decide)
  | lift inner => exact absurd inner.stratum_le (by decide)

/-- An atom is settled by its first terminal. -/
theorem Phrase.settled_atom (c : Phrase 7) (hn : c.yield.length ≤ n) : c.Settled := by
  intro d r s hc hd hr hs heq
  have hk : firstKind c.yield = firstKind d.yield := by
    rw [← c.firstKind_yield_append r, heq, d.firstKind_yield_append]
  have hparen {ts : List Terminal} : Stops 1 (Kind.rparen.terminal :: ts) :=
    .of_kind (Nat.le_refl 1) (by decide) (by decide)
  have hcolon {ts : List Terminal} : Stops 1 (Kind.colon.terminal :: ts) :=
    .of_kind (Nat.le_refl 1) (by decide) (by decide)
  have hbrace {key : Phrase 1} {ts us vs : List Terminal}
      (heq : Kind.rbrace.terminal :: ts = key.yield ++ us ++ vs) : False := by
    have hfirst := key.starts_append (us ++ vs)
    rw [← List.append_assoc, ← heq] at hfirst
    exact absurd hfirst (show Grammar.starts .rbrace ≠ true by decide)
  cases c using Phrase.atomCases with
  | ident name =>
      cases d using Phrase.atomCases with
      | ident name' =>
          obtain ⟨hname, rfl⟩ := List.cons.inj heq
          cases hname
          exact ⟨rfl, rfl⟩
      | bool value => cases value <;> cases hk
      | _ => cases hk
  | int digits =>
      cases d using Phrase.atomCases with
      | int digits' =>
          obtain ⟨hdigits, rfl⟩ := List.cons.inj heq
          cases hdigits
          exact ⟨rfl, rfl⟩
      | bool value => cases value <;> cases hk
      | _ => cases hk
  | str content =>
      cases d using Phrase.atomCases with
      | str content' =>
          obtain ⟨hcontent, rfl⟩ := List.cons.inj heq
          cases hcontent
          exact ⟨rfl, rfl⟩
      | bool value => cases value <;> cases hk
      | _ => cases hk
  | bool value =>
      cases d using Phrase.atomCases with
      | bool value' =>
          obtain ⟨-, rfl⟩ := List.cons.inj heq
          cases value <;> cases value' <;> first | exact ⟨rfl, rfl⟩ | cases hk
      | _ => cases value <;> cases hk
  | group inner =>
      cases d using Phrase.atomCases with
      | group inner' =>
          simp only [Phrase.yield, List.length_cons, List.length_append] at hn
          simp only [Phrase.yield, List.cons_append, List.append_assoc, List.cons.injEq,
            true_and, List.nil_append] at heq
          obtain ⟨rfl, hrest⟩ := H inner (Nat.le_refl 1) (by omega) inner' hc hd hparen hparen heq
          exact ⟨rfl, (List.cons.inj hrest).2⟩
      | bool value => cases value <;> cases hk
      | _ => cases hk
  | cond test consequence =>
      simp only [Phrase.yield, List.length_cons, List.length_append] at hn
      cases d using Phrase.atomCases with
      | cond test' consequence' =>
          simp only [Phrase.yield, List.cons_append, List.append_assoc, List.cons.injEq,
            true_and, List.nil_append] at heq
          obtain ⟨rfl, rfl, rfl⟩ := test_inj H (by omega) hc.1 hd.1 hc.2 hd.2 heq
          exact ⟨rfl, rfl⟩
      | condElse test' consequence' alternative' =>
          -- the shorter one would be followed by the `else` of the longer
          simp only [Phrase.yield, List.cons_append, List.append_assoc, List.cons.injEq,
            true_and, List.nil_append] at heq
          obtain ⟨rfl, rfl, rfl⟩ := test_inj H (by omega) hc.1 hd.1 hc.2 hd.2.1 heq
          exact absurd rfl hr.1
      | bool value => cases value <;> cases hk
      | _ => cases hk
  | condElse test consequence alternative =>
      simp only [Phrase.yield, List.length_cons, List.length_append] at hn
      cases d using Phrase.atomCases with
      | cond test' consequence' =>
          simp only [Phrase.yield, List.cons_append, List.append_assoc, List.cons.injEq,
            true_and, List.nil_append] at heq
          obtain ⟨rfl, rfl, rfl⟩ := test_inj H (by omega) hc.1 hd.1 hc.2.1 hd.2 heq
          exact absurd rfl hs.1
      | condElse test' consequence' alternative' =>
          simp only [Phrase.yield, List.cons_append, List.append_assoc, List.cons.injEq,
            true_and, List.nil_append] at heq
          obtain ⟨rfl, rfl, htail⟩ := test_inj H (by omega) hc.1 hd.1 hc.2.1 hd.2.1 heq
          simp only [List.cons.injEq, true_and] at htail
          obtain ⟨rfl, rfl⟩ := block_inj H (by omega) hc.2.2 hd.2.2 htail
          exact ⟨rfl, rfl⟩
      | bool value => cases value <;> cases hk
      | _ => cases hk
  | fn params body =>
      cases d using Phrase.atomCases with
      | fn params' body' =>
          simp only [Phrase.yield, List.length_cons, List.length_append] at hn
          simp only [Phrase.yield, List.cons_append, List.append_assoc, List.cons.injEq,
            true_and, List.nil_append] at heq
          obtain ⟨rfl, hrest⟩ := yieldNames_inj heq
          obtain ⟨rfl, rfl⟩ := block_inj H (by omega) hc hd (List.cons.inj hrest).2
          exact ⟨rfl, rfl⟩
      | bool value => cases value <;> cases hk
      | _ => cases hk
  | array elements =>
      cases d using Phrase.atomCases with
      | array elements' =>
          simp only [Phrase.yield, List.length_cons, List.length_append] at hn
          simp only [Phrase.yield, List.cons_append, List.append_assoc, List.cons.injEq,
            true_and, List.nil_append] at heq
          obtain ⟨rfl, rfl⟩ := yieldList_inj H (.inr rfl) (by omega) hc hd heq
          exact ⟨rfl, rfl⟩
      | bool value => cases value <;> cases hk
      | _ => cases hk
  | emptyHash =>
      cases d using Phrase.atomCases with
      | emptyHash => exact ⟨rfl, (List.cons.inj (List.cons.inj heq).2).2⟩
      | hash key' value' more' trailing' => exact (hbrace (List.cons.inj heq).2).elim
      | bool value => cases value <;> cases hk
      | _ => cases hk
  | hash key value more trailing =>
      cases d using Phrase.atomCases with
      | emptyHash => exact (hbrace (List.cons.inj heq).2.symm).elim
      | hash key' value' more' trailing' =>
          simp only [Phrase.yield, List.length_cons, List.length_append] at hn
          simp only [Phrase.yield, List.cons_append, List.append_assoc, List.cons.injEq,
            true_and, List.nil_append] at heq
          obtain ⟨rfl, hrest⟩ := H key (Nat.le_refl 1) (by omega) key' hc.1 hd.1 hcolon hcolon heq
          obtain ⟨rfl, htail⟩ := H value (Nat.le_refl 1) (by omega) value' hc.2.1 hd.2.1
            (stops_yieldMorePairs more trailing r) (stops_yieldMorePairs more' trailing' s)
            (List.cons.inj hrest).2
          obtain ⟨rfl, rfl, rfl⟩ := yieldMorePairs_inj H (by omega) hc.2.2 hd.2.2 htail
          exact ⟨rfl, rfl⟩
      | bool value => cases value <;> cases hk
      | _ => cases hk

/-! ## Strata -/

omit H in
/-- Operators are told by their kinds. -/
theorem Operator.kind_inj {op op' : Operator} (h : op.kind = op'.kind) : op = op' := by
  cases op <;> cases op' <;> first | rfl | cases h

/-- A suffix can be told from what it derives, up to what stops it. -/
theorem Suffix.yield_inj {k : Nat} {x y : Suffix k} {r s : List Terminal}
    (hn : x.yield.length ≤ n) (hx : x.Proper) (hy : y.Proper) (hr : Stops (k + 1) r)
    (hs : Stops (k + 1) s) (heq : x.yield ++ r = y.yield ++ s) : x = y ∧ r = s := by
  cases x with
  | operator op stratum right =>
      cases y with
      | operator op' stratum' right' =>
          simp only [Suffix.yield, List.length_cons] at hn
          obtain ⟨hop, hrest⟩ := List.cons.inj heq
          obtain rfl := Operator.kind_inj (congrArg Terminal.kind hop)
          obtain ⟨rfl, rfl⟩ := H right (Nat.le_add_left 1 k) (by omega) right' hx hy hr hs hrest
          exact ⟨rfl, rfl⟩
      -- no operator is in the stratum of calls and index expressions
      | call args => exact absurd stratum (by cases op <;> decide)
      | index inner => exact absurd stratum (by cases op <;> decide)
  | call args =>
      cases y with
      | operator op stratum right => exact absurd stratum (by cases op <;> decide)
      | call args' =>
          simp only [Suffix.yield, List.length_cons, List.length_append] at hn
          simp only [Suffix.yield, List.cons_append, List.append_assoc, List.cons.injEq,
            true_and, List.nil_append] at heq
          obtain ⟨rfl, rfl⟩ := yieldList_inj H (.inl rfl) (by omega) hx hy heq
          exact ⟨rfl, rfl⟩
      | index inner =>
          exact absurd (congrArg firstKind heq) (show Kind.lparen ≠ .lbracket by decide)
  | index inner =>
      cases y with
      | operator op stratum right => exact absurd stratum (by cases op <;> decide)
      | call args => exact absurd (congrArg firstKind heq) (show Kind.lbracket ≠ .lparen by decide)
      | index inner' =>
          simp only [Suffix.yield, List.length_cons, List.length_append] at hn
          simp only [Suffix.yield, List.cons_append, List.append_assoc, List.cons.injEq,
            true_and, List.nil_append] at heq
          obtain ⟨rfl, hrest⟩ := H inner (Nat.le_refl 1) (by omega) inner' hx hy
            (.of_kind (Nat.le_refl 1) (by decide) (by decide))
            (.of_kind (Nat.le_refl 1) (by decide) (by decide)) heq
          exact ⟨rfl, (List.cons.inj hrest).2⟩

omit H in
/-- Suffixes, and what stops them all, stop the phrases of the next stratum. -/
theorem stops_suffixes {k : Nat} (xs : List (Suffix k)) {r : List Terminal} (hr : Stops k r) :
    Stops (k + 1) (xs.flatMap Suffix.yield ++ r) := by
  cases xs with
  | nil => exact hr.succ
  | cons x xs =>
      rw [List.flatMap_cons, List.append_assoc]
      exact (x.stops_append _).1

/-- Suffixes one after the other can be told from what they derive. -/
theorem suffixes_inj {k : Nat} {xs ys : List (Suffix k)} {r s : List Terminal}
    (hn : (xs.flatMap Suffix.yield).length ≤ n) (hxs : ∀ x ∈ xs, x.Proper)
    (hys : ∀ y ∈ ys, y.Proper) (hr : Stops k r) (hs : Stops k s)
    (heq : xs.flatMap Suffix.yield ++ r = ys.flatMap Suffix.yield ++ s) : xs = ys ∧ r = s := by
  induction xs generalizing ys with
  | nil =>
      cases ys with
      | nil => exact ⟨rfl, heq⟩
      | cons y ys =>
          -- a suffix would go on where the others were stopped
          rw [List.flatMap_nil, List.nil_append, List.flatMap_cons, List.append_assoc] at heq
          rw [heq] at hr
          exact absurd hr (y.stops_append _).2
  | cons x xs ih =>
      cases ys with
      | nil =>
          rw [List.flatMap_nil, List.nil_append, List.flatMap_cons, List.append_assoc] at heq
          rw [← heq] at hs
          exact absurd hs (x.stops_append _).2
      | cons y ys =>
          rw [List.forall_mem_cons] at hxs hys
          simp only [List.flatMap_cons, List.length_append] at hn
          simp only [List.flatMap_cons, List.append_assoc] at heq
          obtain ⟨rfl, hrest⟩ := Suffix.yield_inj H (by omega) hxs.1 hys.1
            (stops_suffixes xs hr) (stops_suffixes ys hs) heq
          obtain ⟨rfl, rfl⟩ := ih (by omega) hxs.2 hys.2 hrest
          exact ⟨rfl, rfl⟩

/-- A left recursive stratum, given the next one. -/
theorem Phrase.settled_suffixes {k : Nat} (hk : k ≠ 5) (hk' : k ≠ 7)
    (hnext : ∀ c : Phrase (k + 1), c.yield.length ≤ n → c.Settled) (c : Phrase k)
    (hn : c.yield.length ≤ n) : c.Settled := by
  intro d r s hc hd hr hs heq
  obtain ⟨first, xs, rfl⟩ := c.exists_suffixes hk hk'
  obtain ⟨first', ys, rfl⟩ := d.exists_suffixes hk hk'
  rw [Suffix.proper_foldl_attach] at hc hd
  rw [Suffix.yield_foldl_attach, List.length_append] at hn
  simp only [Suffix.yield_foldl_attach, List.append_assoc] at heq
  have hlen : first.lift.yield.length = first.yield.length := rfl
  obtain ⟨rfl, hrest⟩ := hnext first (by omega) first' hc.1 hd.1 (stops_suffixes xs hr)
    (stops_suffixes ys hs) heq
  obtain ⟨rfl, rfl⟩ := suffixes_inj H (by omega) hc.2 hd.2 hr hs hrest
  exact ⟨rfl, rfl⟩

/-- The stratum of signs, given the next one. -/
theorem Phrase.settled_signs (hnext : ∀ c : Phrase 6, c.yield.length ≤ n → c.Settled)
    (c : Phrase 5) (hn : c.yield.length ≤ n) : c.Settled := by
  intro d r s hc hd hr hs heq
  -- no phrase above this stratum starts with a sign
  have hmixed {sign : Sign} {operand : Phrase 5} {inner : Phrase 6} {r s : List Terminal}
      (heq : (Phrase.unary sign operand).yield ++ r = inner.yield ++ s) : False := by
    have hfirst := inner.startsAtom (Nat.le_refl 6)
    rw [← inner.firstKind_yield_append s, ← heq] at hfirst
    cases sign <;> cases hfirst
  cases c with
  | unary sign operand =>
      cases d with
      | unary sign' operand' =>
          simp only [Phrase.yield, List.length_cons] at hn
          obtain ⟨hsign, hrest⟩ := List.cons.inj heq
          obtain ⟨rfl, rfl⟩ := H operand (by decide) (by omega) operand' hc hd hr hs hrest
          cases sign <;> cases sign' <;> first | exact ⟨rfl, rfl⟩ | cases hsign
      | binary op stratum left right => exact absurd stratum (by cases op <;> decide)
      | lift inner => exact (hmixed heq).elim
  | binary op stratum left right => exact absurd stratum (by cases op <;> decide)
  | lift inner =>
      cases d with
      | unary sign operand => exact (hmixed heq.symm).elim
      | binary op stratum left right => exact absurd stratum (by cases op <;> decide)
      | lift inner' =>
          obtain ⟨rfl, rfl⟩ := hnext inner hn inner' hc hd hr.succ hs.succ heq
          exact ⟨rfl, rfl⟩

/-- Every stratum, from the last one down. -/
theorem Phrase.settled_of_length_le {k : Nat} (c : Phrase k) (hk : 1 ≤ k)
    (hn : c.yield.length ≤ n) : c.Settled := by
  have h₇ : ∀ c : Phrase 7, c.yield.length ≤ n → c.Settled := Phrase.settled_atom H
  have h₆ := Phrase.settled_suffixes H (k := 6) (by decide) (by decide) h₇
  have h₅ := Phrase.settled_signs H h₆
  have h₄ := Phrase.settled_suffixes H (k := 4) (by decide) (by decide) h₅
  have h₃ := Phrase.settled_suffixes H (k := 3) (by decide) (by decide) h₄
  have h₂ := Phrase.settled_suffixes H (k := 2) (by decide) (by decide) h₃
  have h₁ := Phrase.settled_suffixes H (k := 1) (by decide) (by decide) h₂
  have hle := c.stratum_le
  match k, hk, hle with
  | 1, _, _ => exact h₁ c hn
  | 2, _, _ => exact h₂ c hn
  | 3, _, _ => exact h₃ c hn
  | 4, _, _ => exact h₄ c hn
  | 5, _, _ => exact h₅ c hn
  | 6, _, _ => exact h₆ c hn
  | 7, _, _ => exact h₇ c hn

end Shorter

/-! ## Programs -/

/-- Every phrase is settled. -/
theorem Phrase.settled {k : Nat} (c : Phrase k) (hk : 1 ≤ k) : c.Settled := by
  -- the induction is on the length of the phrase: lifting changes the stratum and not the text
  have hall (n : Nat) : ∀ {k : Nat} (c : Phrase k), 1 ≤ k → c.yield.length < n → c.Settled := by
    induction n with
    | zero => exact fun c _ hn => absurd hn (Nat.not_lt_zero _)
    | succ n ih => exact fun c hk hn => c.settled_of_length_le ih hk (Nat.le_of_lt_succ hn)
  exact hall (c.yield.length + 1) c hk (Nat.lt_succ_self _)

/-- Some terminals have at most one derivation. -/
theorem Derivation.unique {ts : List Terminal} (d d' : Derivation ts) : d = d' := by
  obtain ⟨cs, hcs, rfl⟩ := d
  obtain ⟨ds, hds, heq⟩ := d'
  have hends : endsStatements [] := .inr rfl
  obtain ⟨rfl, -⟩ := yieldStatements_inj (fun c hk _ => c.settled hk) (Nat.lt_succ_self _) hcs hds
    hends hends (by rw [List.append_nil, List.append_nil, heq])
  rfl

end Grammar

end Monkey
