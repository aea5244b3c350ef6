import Monkey.Proofs.Composition
import Monkey.Proofs.Nesting
import Monkey.Proofs.Slices

/-!
# The tokens of a node

In a source that is read without problems, every statement and every expression is made of tokens
that stand in a row, and a phrase or a sentence of the grammar derives just these. Most nodes start
with the token that their span starts with. Not so an operation on a left operand: it starts where
the operand starts, and parentheses around the operand are no part of that. So what was passed in
reading an expression is parentheses that open, the tokens within its span, and parentheses that
close (`Wrapped`), and the phrase derives the opening ones, too. None of them opens just when no
operand at the left edge stands in parentheses, which is seen in the source by what comes next after
it (`Expr.isBare`). The induction is over the rules of the grammar, as it is for what they derive.
-/

namespace Monkey

open Parse Grammar

/-! ## Left edges -/

/-- A closing parenthesis comes next after an expression. Of a left operand this says that it stands
in parentheses, since otherwise its operator comes next. -/
def Expr.isEnclosed (source : Text) (e : Expr) : Bool :=
  e.span?.any fun s => source.nextByte? s.stop.offset = some 0x29

/-- No operand at the left edge of an expression stands in parentheses. -/
def Expr.isBare (source : Text) : Expr → Bool
  | .binary _ _ left _ | .call _ left _ | .index _ left _ =>
    !left.isEnclosed source && left.isBare source
  | _ => true

/-! ## Tokens in a row -/

/-- A span goes from the start of the first of some tokens to the stop of the last. -/
def Span.Around (tokens : List Token) (s : Span) : Prop :=
  ∃ first last : Token, tokens.head? = some first ∧ tokens.getLast? = some last ∧
    s.start.offset = first.span.start.offset ∧ s.stop.offset = last.span.stop.offset

namespace Reader

/-- A reader comes up in reading a source. -/
def Of (source : Text) (r : Reader) : Prop :=
  (Reader.ofTokens (tokenize source)).Onward r

/-- The tokens that are passed from the current one of a reader up to the current one of another,
both included. -/
structure Passed (r : Reader) (passed : List Token) (r' : Reader) : Prop where
  tokens : r.tokens = passed ++ r'.advance.tokens
  last : passed.getLast? = some r'.current

variable {source : Text} {r r₁ r' : Reader} {passed passed' : List Token}

namespace Of

theorem sane (h : r.Of source) : r.Sane :=
  (sane_ofTokens source).1.onward h

theorem placed (h : r.Of source) : r.Placed :=
  (placed_ofTokens source).onward h

/-- A reader of a source that moves onward is one of that source. -/
theorem onward (h : r.Of source) (ho : r.Onward r') : r'.Of source :=
  Onward.trans h ho

theorem advance (h : r.Of source) : r.advance.Of source :=
  h.onward (.advance r)

/-- What is passed stands somewhere in the source, and not at its end. -/
theorem exists_tokenize (h : r.Of source) (hp : r.Passed passed r') :
    ∃ before after, tokenize source = before ++ (passed ++ after) ∧ after ≠ [] := by
  obtain ⟨inner, eof, htokens⟩ := tokenize_concat source
  obtain ⟨before, hbefore⟩ := h.tokens
  rw [htokens, Reader.ofTokens_concat] at hbefore
  refine ⟨before, r'.advance.tokens ++ [eof], ?_, ?_⟩
  · have hinner : before ++ (passed ++ r'.advance.tokens) = inner := hp.tokens ▸ hbefore
    rw [htokens, ← hinner]
    simp only [List.append_assoc]
  · exact List.append_ne_nil_of_right_ne_nil _ (List.cons_ne_nil eof [])

end Of

namespace Passed

/-- The first token that is passed is the current one. -/
theorem head (h : r.Passed passed r') : passed.head? = some r.current := by
  cases passed with
  | nil => cases h.last
  | cons t rest =>
      rw [current, h.tokens]
      rfl

/-- What is passed one after the other. -/
theorem append (h : r.Passed passed r₁) (h' : r₁.advance.Passed passed' r') :
    r.Passed (passed ++ passed') r' := by
  refine ⟨?_, ?_⟩
  · rw [h.tokens, h'.tokens, List.append_assoc]
  · rw [List.getLast?_append, h'.last]
    rfl

/-- A phrase derives just what is passed. -/
theorem yield_eq (h : r.Passed passed r') {ts : List Terminal} (hview : r.view = ts ++ r'.ahead) :
    ts = passed.map Token.terminal := by
  rw [view, h.tokens, List.map_append] at hview
  exact (List.append_cancel_right hview).symm

/-- A construct of one token passes only that. -/
theorem single (hs : r.Sane) (hk : r.current.kind ≠ .eof) : r.Passed [r.current] r := by
  obtain ⟨tokens, eof, problems⟩ := r
  cases tokens with
  | nil => exact absurd hs.eof hk
  | cons t rest => exact ⟨rfl, rfl⟩

end Passed

/-- Reading on up to a token that is not the end passes some tokens. -/
theorem exists_passed (hs' : r'.Sane) (ho : r.Onward r') (hk : r'.current.kind ≠ .eof) :
    ∃ passed, r.Passed passed r' := by
  obtain ⟨front, hfront⟩ := ho.tokens
  obtain ⟨tokens, eof, problems⟩ := r'
  cases tokens with
  | nil => exact absurd hs'.eof hk
  | cons t rest =>
      refine ⟨front ++ [t], ?_, List.getLast?_concat⟩
      rw [← hfront, List.append_assoc]
      rfl

/-- A node from one token up to the current one is made of what is passed. -/
theorem Passed.around (hr : r.Of source) (ho : r.Onward r') (h : r.Passed passed r') :
    (r'.originFrom r.current).span.Around passed := by
  obtain ⟨hstart, hstop⟩ := Span.offset_join (hr.placed.start_le ho) (hr.placed.stop_le ho)
  exact ⟨_, _, h.head, h.last, hstart, hstop⟩

end Reader

/-! ## Excerpts -/

/-- Tokens that are passed in reading an expression: parentheses that open, the tokens within its
span, and parentheses that close. None opens just when none closes and the expression is bare. -/
structure Wrapped (source : Text) (opens mid closes : List Token) (e : Expr) : Prop where
  opening : ∀ t ∈ opens, t.kind = .lparen
  closing : ∀ t ∈ closes, t.kind = .rparen
  span : ∃ s, e.span? = some s ∧ s.Around mid
  bare : opens = [] ↔ closes = [] ∧ e.isBare source = true

/-- A phrase for an expression derives parentheses that open and the tokens within its span. -/
def Expr.Excerpted (source : Text) (e : Expr) : Prop :=
  ∃ (opens mid before after : List Token) (c : Phrase 1),
    tokenize source = before ++ (opens ++ mid ++ after) ∧ after ≠ [] ∧
    Wrapped source opens mid [] e ∧ c.Proper ∧ c.tree = e.shape ∧
    c.yield = (opens ++ mid).map Token.terminal

/-- A sentence for a statement derives the tokens within its span. -/
def Stmt.Excerpted (source : Text) (s : Stmt) : Prop :=
  ∃ (mid before after : List Token) (span : Span) (c : Sentence),
    tokenize source = before ++ (mid ++ after) ∧ after ≠ [] ∧
    (Node.stmt s).span? = some span ∧ span.Around mid ∧ c.Proper ∧ c.tree = s.shape ∧
    c.yield = mid.map Token.terminal

/-- Expressions and statements, other than blocks, are excerpted. -/
def Node.Excerpted (source : Text) : Node → Prop
  | .program _ | .stmt .absent | .stmt (.block _) | .expr .absent => True
  | .stmt s => s.Excerpted source
  | .expr e => e.Excerpted source

/-- All that a node contains is excerpted. -/
def Node.Sound (source : Text) (n : Node) : Prop :=
  ∀ m, n.Contains m → m.Excerpted source

/-- A node is sound if it is excerpted and its children are sound. -/
theorem Node.sound_of_children {source : Text} {n : Node} (h : n.Excerpted source)
    (hchildren : ∀ child ∈ n.children, child.Sound source) : n.Sound source := by
  intro m hm
  cases hm with
  | self => exact h
  | step hchild hm => exact hchildren _ hchild m hm

/-- What is read in reading an expression: tokens that wrap it up, and an expression that is
excerpted all through. -/
structure ReadAs (source : Text) (r : Reader) (e : Expr) (r' : Reader) : Prop where
  wrapped : ∃ opens mid closes, r.Passed (opens ++ mid ++ closes) r' ∧
    Wrapped source opens mid closes e
  sound : (Node.expr e).Sound source

theorem excerpted_expr {source : Text} {e : Expr} (h : e.Excerpted source) :
    (Node.expr e).Excerpted source := by
  cases e with
  | absent => trivial
  | _ => exact h

variable {source : Text} {r r' : Reader} {e : Expr}

/-- A node that starts with a token and ends with another. -/
theorem readAs_node {k : Nat} {c : Phrase k} (hr : r.Of source) (ho : r.Onward r')
    (hend : r'.current.kind ≠ .eof) (hk : 1 ≤ k) (hc : c.Covers e r.view r'.ahead)
    (hspan : e.span? = some (r'.originFrom r.current).span) (hbare : e.isBare source = true)
    (hchildren : ∀ n ∈ (Node.expr e).children, n.Sound source) : ReadAs source r e r' := by
  obtain ⟨passed, hp⟩ := Reader.exists_passed (hr.onward ho).sane ho hend
  obtain ⟨before, after, htokens, hafter⟩ := hr.exists_tokenize hp
  obtain ⟨c, hproper, htree, hyield⟩ := hc.exists_lift hk
  have hwrapped : Wrapped source [] passed [] e :=
    ⟨List.forall_mem_nil _, List.forall_mem_nil _,
      ⟨_, hspan, hp.around hr ho⟩, iff_of_true rfl ⟨rfl, hbare⟩⟩
  refine ⟨⟨[], passed, [], ?_, hwrapped⟩, Node.sound_of_children (excerpted_expr ?_) hchildren⟩
  · rw [List.nil_append, List.append_nil]
    exact hp
  · exact ⟨[], passed, before, after, c, htokens, hafter, hwrapped, hproper, htree,
      hp.yield_eq hyield⟩

/-- A token that is an expression by itself. -/
theorem readAs_token {k : Nat} {c : Phrase k} (hr : r.Of source) (hend : r.current.kind ≠ .eof)
    (hk : 1 ≤ k) (hc : c.Covers e r.view r.ahead) (hspan : e.span? = some r.current.span)
    (hbare : e.isBare source = true) (hchildren : (Node.expr e).children = []) :
    ReadAs source r e r := by
  have hsame : (r.originFrom r.current).span = r.current.span := by
    show Span.mk (if _ then _ else _) (if _ then _ else _) = _
    rw [if_neg (Int.lt_irrefl _), if_neg (Int.lt_irrefl _)]
  refine readAs_node hr (.refl r) hend hk hc (hspan.trans (congrArg some hsame.symm)) hbare ?_
  rw [hchildren]
  exact List.forall_mem_nil _

/-- A name where it is bound. -/
theorem sound_name (hr : r.Of source) (hk : r.current.kind = .ident) :
    (Binder.node ⟨r.current.origin, r.current.literal⟩).Sound source := by
  obtain ⟨c, hc⟩ := covers_token (e := .ident r.current.origin r.current.literal) hr.sane hk
    (by decide) (c := .ident r.current.literal) trivial rfl rfl
  exact (readAs_token hr (by rw [hk]; decide) (by decide) hc rfl rfl rfl).sound

/-! ## Operations -/

variable {r₀ : Reader} {left : Expr} {opens mid closes more : List Token}

/-- A left operand is not enclosed just when no parentheses close after it. -/
theorem isEnclosed_eq_false_iff (hr : r₀.Of source) (hw : Wrapped source opens mid closes left)
    (hp : r₀.Passed (opens ++ mid ++ closes ++ more) r') {t : Token} (hmore : more.head? = some t)
    (ht : t.kind ≠ .rparen) : left.isEnclosed source = false ↔ closes = [] := by
  obtain ⟨s, hs, first, last, -, hlast, -, hstop⟩ := hw.span
  obtain ⟨before, after, htokens, -⟩ := hr.exists_tokenize hp
  obtain ⟨init, rfl⟩ := List.getLast?_eq_some_iff.mp hlast
  obtain ⟨rest, rfl⟩ := List.head?_eq_some_iff.mp hmore
  rw [Expr.isEnclosed, hs, Option.any_some, decide_eq_false_iff_not, hstop]
  cases closes with
  | nil =>
      have hnext : tokenize source = before ++ (opens ++ init) ++ last :: t :: (rest ++ after) := by
        rw [htokens]
        simp only [List.append_assoc, List.cons_append, List.nil_append]
      rw [nextByte?_rparen_iff hnext]
      exact iff_of_true ht rfl
  | cons u closes =>
      have hnext : tokenize source
          = before ++ (opens ++ init) ++ last :: u :: (closes ++ t :: rest ++ after) := by
        rw [htokens]
        simp only [List.append_assoc, List.cons_append, List.nil_append]
      rw [nextByte?_rparen_iff hnext]
      exact iff_of_false (absurd (hw.closing u List.mem_cons_self)) (List.cons_ne_nil u closes)

/-- The span of an operation goes from the first token of its left operand to the last of all. -/
theorem around_operation (hr : r₀.Of source) (ho : r₀.Onward r')
    (hw : Wrapped source opens mid closes left)
    (hp : r₀.Passed (opens ++ mid ++ closes ++ more) r') (hlast : more.getLast? = some r'.current)
    (built : Token) :
    (r'.originAfter left built).span.Around (mid ++ (closes ++ more)) := by
  obtain ⟨s, hs, first, last, hfirst, hmid, hstart, hstop⟩ := hw.span
  have horigin : (r'.originAfter left built).span = s.join r'.current.span := by
    rw [Reader.originAfter, hs]
  -- every token of the left operand stands before the current one
  have hbefore : ∀ t ∈ mid, t.span.start.offset < t.span.stop.offset ∧
      t.span.stop.offset ≤ r'.current.span.start.offset := by
    intro t ht
    have hleft : t ∈ opens ++ mid ++ closes :=
      List.mem_append_left _ (List.mem_append_right _ ht)
    refine ⟨hr.placed.solid t ?_, ?_⟩
    · rw [hp.tokens]
      exact List.mem_append_left _ (List.mem_append_left _ hleft)
    · have hordered := hr.placed.ordered
      rw [hp.tokens] at hordered
      have hinner := (List.pairwise_append.mp (List.pairwise_append.mp hordered).1).1
      exact (List.pairwise_append.mp hinner).2.2 t hleft _ (List.mem_of_getLast? hlast)
  obtain ⟨hfirstSolid, hfirstBefore⟩ := hbefore first (List.mem_of_head? hfirst)
  obtain ⟨-, hlastBefore⟩ := hbefore last (List.mem_of_getLast? hmid)
  have hend := (hr.placed.onward ho).start_le_stop
  have hstarts : s.start.offset ≤ r'.current.span.start.offset := by omega
  have hstops : s.stop.offset ≤ r'.current.span.stop.offset := by omega
  obtain ⟨hjoinStart, hjoinStop⟩ := Span.offset_join hstarts hstops
  rw [horigin]
  refine ⟨first, r'.current, ?_, ?_, hjoinStart.trans hstart, hjoinStop⟩
  · rw [List.head?_append, hfirst]
    rfl
  · rw [List.getLast?_append, List.getLast?_append, hlast]
    rfl

/-- An operation on a left operand: what was passed before and in it. -/
theorem readAs_operation {k : Nat} {c : Phrase k} (ns : List Node) (hr : r₀.Of source)
    (ho : r₀.Onward r) (ho' : r.advance.Onward r') (hend : r'.current.kind ≠ .eof)
    (hnext : r.upcoming.kind ≠ .rparen) (hleft : ReadAs source r₀ left r) (hk : 1 ≤ k)
    (hc : c.Covers e r₀.view r'.ahead)
    (hspan : e.span? = some (r'.originAfter left r.upcoming).span)
    (hbare : e.isBare source = (!left.isEnclosed source && left.isBare source))
    (hchildren : (Node.expr e).children = .expr left :: ns) (hns : ∀ n ∈ ns, n.Sound source) :
    ReadAs source r₀ e r' := by
  obtain ⟨⟨opens, mid, closes, hpassed, hw⟩, hsound⟩ := hleft
  have honward := (ho.trans (.advance r)).trans ho'
  obtain ⟨more, hmore⟩ := Reader.exists_passed (hr.onward honward).sane ho' hend
  have hp := hpassed.append hmore
  have henclosed := isEnclosed_eq_false_iff hr hw hp hmore.head hnext
  -- what was around the left operand is now around the beginning of the whole
  have hwrapped : Wrapped source opens (mid ++ (closes ++ more)) [] e := by
    refine ⟨hw.opening, List.forall_mem_nil _,
      ⟨_, hspan, around_operation hr honward hw hp hmore.last _⟩, ?_⟩
    rw [hw.bare, hbare, Bool.and_eq_true, Bool.not_eq_true', henclosed]
    exact ⟨fun hbare => ⟨rfl, hbare⟩, fun hbare => hbare.2⟩
  obtain ⟨before, after, htokens, hafter⟩ := hr.exists_tokenize hp
  obtain ⟨c, hproper, htree, hyield⟩ := hc.exists_lift hk
  have hsame : opens ++ mid ++ closes ++ more = opens ++ (mid ++ (closes ++ more)) := by
    simp only [List.append_assoc]
  have hderived := hp.yield_eq hyield
  rw [hsame] at hp htokens hderived
  refine ⟨⟨opens, _, [], by rwa [List.append_nil], hwrapped⟩, Node.sound_of_children
    (excerpted_expr ⟨opens, _, before, after, c, htokens, hafter, hwrapped, hproper, htree,
      hderived⟩) ?_⟩
  rw [hchildren]
  exact List.forall_mem_cons.mpr ⟨hsound, hns⟩

/-- Parentheses around an expression wrap it up once more. -/
theorem readAs_grouped (hr : r.Of source) (hopen : r.current.kind = .lparen)
    (hend : r'.upcoming.kind = .rparen) (ho : r.advance.Onward r')
    (h : ReadAs source r.advance e r') : ReadAs source r e r'.advance := by
  obtain ⟨⟨opens, mid, closes, hp, hw⟩, hsound⟩ := h
  have hs' := ((hr.advance).onward ho).advance.sane
  have hfirst : r.Passed [r.current] r := .single hr.sane (by rw [hopen]; decide)
  have hlast : r'.advance.Passed [r'.advance.current] r'.advance := by
    refine .single hs' ?_
    rw [show r'.advance.current.kind = .rparen from hend]
    decide
  refine ⟨⟨r.current :: opens, mid, closes ++ [r'.advance.current], ?_, ?_⟩, hsound⟩
  · have hall := (hfirst.append hp).append hlast
    simp only [List.append_assoc, List.cons_append, List.nil_append] at hall ⊢
    exact hall
  · refine ⟨List.forall_mem_cons.mpr ⟨hopen, hw.opening⟩, ?_, hw.span, ?_⟩
    · exact List.forall_mem_append.mpr ⟨hw.closing, List.forall_mem_singleton.mpr hend⟩
    · exact iff_of_false (List.cons_ne_nil _ _) fun hnone =>
        absurd hnone.1 (List.append_ne_nil_of_right_ne_nil _ (List.cons_ne_nil _ []))

/-! ## Rules -/

/-- A rule for expressions reads an expression that is excerpted all through. -/
def Excerpts (source : Text) (expr : Precedence → Parse Expr) : Prop :=
  ∀ {above : Nat} {r r' : Reader} {e : Expr}, 1 ≤ above → above ≤ 6 → r.Of source →
    Clean (expr above) r e r' → ReadAs source r e r'

section Rules

variable {expr : Precedence → Parse Expr} (h : ∀ q, Moves (expr q)) (hx : Excerpts source expr)
include h hx

omit h in
/-- What is read as an expression is sound. -/
theorem sound_lowest (hr : r.Of source) (hc : Clean (expr .lowest) r e r') :
    (Node.expr e).Sound source :=
  (hx (Nat.le_refl 1) (by decide) hr hc).sound

/-- Expressions after commas are sound. -/
theorem sound_moreExpressions {n : Nat} {es : List Expr} (hr : r.Of source)
    (hc : Clean (moreExpressions expr n) r es r') : ∀ e ∈ es, (Node.expr e).Sound source := by
  induction n generalizing r es with
  | zero =>
      obtain ⟨rfl, -⟩ := clean_pure.mp hc
      exact List.forall_mem_nil _
  | succ n ih =>
      rcases (clean_moreExpressions h).mp hc with
        ⟨-, rfl, -⟩ | ⟨-, first, r₁, rest, hfirst, hrest, rfl⟩
      · exact List.forall_mem_nil _
      · have hr₁ := hr.advance.advance.onward (hfirst.onward (h _))
        exact List.forall_mem_cons.mpr ⟨sound_lowest hx hr.advance.advance hfirst, ih hr₁ hrest⟩

/-- The expressions of a list are sound. -/
theorem sound_expressionList {closing : Kind} {elements : List Expr} (hr : r.Of source)
    (hc : Clean (expressionList expr closing) r (some elements) r') :
    ∀ n ∈ elements.map Node.expr, n.Sound source := by
  refine List.forall_mem_map.mpr ?_
  rcases (clean_expressionList h).mp hc with ⟨-, -, hnone⟩ |
    ⟨-, first, r₁, rest, r₂, hfirst, hrest, -, -, helements⟩
  · obtain rfl := Option.some.inj hnone
    exact List.forall_mem_nil _
  · obtain rfl := Option.some.inj helements
    have hr₁ := hr.advance.onward (hfirst.onward (h _))
    exact List.forall_mem_cons.mpr
      ⟨sound_lowest hx hr.advance hfirst, sound_moreExpressions h hx hr₁ hrest⟩

omit h hx in
/-- Parameters after commas are sound. -/
theorem sound_moreParameters {n : Nat} {params : List Binder} (hr : r.Of source)
    (hc : Clean (moreParameters n) r (some params) r') :
    ∀ p ∈ params, p.node.Sound source := by
  induction n generalizing r params with
  | zero =>
      obtain ⟨hnone, -⟩ := clean_pure.mp hc
      obtain rfl := Option.some.inj hnone
      exact List.forall_mem_nil _
  | succ n ih =>
      rcases clean_moreParameters.mp hc with ⟨-, hnone, -⟩ | ⟨-, hname, rest, hrest, hparams⟩
      · obtain rfl := Option.some.inj hnone
        exact List.forall_mem_nil _
      · obtain ⟨rest, rfl, rfl⟩ := Option.map_eq_some_iff.mp hparams.symm
        exact List.forall_mem_cons.mpr
          ⟨sound_name hr.advance.advance hname, ih hr.advance.advance hrest⟩

omit h hx in
/-- Parameters are sound. -/
theorem sound_parameters {params : List Binder} (hr : r.Of source)
    (hc : Clean parameters r (some params) r') : ∀ p ∈ params, p.node.Sound source := by
  rcases clean_parameters.mp hc with ⟨-, -, hnone⟩ | ⟨hname, rest, r₁, hrest, hlast⟩
  · obtain rfl := Option.some.inj hnone
    exact List.forall_mem_nil _
  · rcases hlast with ⟨-, -, ⟨⟩⟩ | ⟨more, rfl, -, -, hparams⟩
    obtain rfl := Option.some.inj hparams
    exact List.forall_mem_cons.mpr
      ⟨sound_name hr.advance hname, sound_moreParameters hr.advance hrest⟩

/-- Keys and values of a hash are sound. -/
theorem sound_hashPairs {n : Nat} {pairs : List (Expr × Expr)} (hr : r.Of source)
    (hc : Clean (hashPairs expr n) r (some pairs) r') : ∀ m ∈ pairNodes pairs, m.Sound source := by
  induction n generalizing r pairs with
  | zero =>
      obtain ⟨hnone, -⟩ := clean_pure.mp hc
      cases hnone
  | succ n ih =>
      rcases (clean_hashPairs h).mp hc with ⟨-, hnone, -⟩ |
        ⟨-, key, r₁, value, r₂, rest, hkey, -, hvalue, -, hrest, hpairs⟩
      · obtain rfl := Option.some.inj hnone
        exact List.forall_mem_nil _
      · obtain ⟨rest, rfl, rfl⟩ := Option.map_eq_some_iff.mp hpairs.symm
        have hr₁ := hr.advance.onward (hkey.onward (h _))
        have hr₂ := hr₁.advance.advance.onward (hvalue.onward (h _))
        exact List.forall_mem_cons.mpr ⟨sound_lowest hx hr.advance hkey, List.forall_mem_cons.mpr
          ⟨sound_lowest hx hr₁.advance.advance hvalue, ih (hr₂.onward (.skip _ _)) hrest⟩⟩

variable (hd : Derives expr) (hcloses : Closes expr)
include hd hcloses

omit h hx hd hcloses in
theorem sound_absent (source : Text) : (Node.expr .absent).Sound source :=
  Node.sound_of_children trivial (List.forall_mem_nil _)

omit h hx hd hcloses in
/-- A statement from its first token up to its last. -/
theorem sound_stmt {stmt : Stmt} {c : Sentence} (hr : r.Of source) (ho : r.Onward r')
    (hend : r'.current.kind ≠ .eof) (hproper : c.Proper) (htree : c.tree = stmt.shape)
    (hyield : r.view = c.yield ++ r'.ahead)
    (hspan : (Node.stmt stmt).span? = some (r'.originFrom r.current).span)
    (hchildren : ∀ n ∈ (Node.stmt stmt).children, n.Sound source) :
    (Node.stmt stmt).Sound source := by
  obtain ⟨passed, hp⟩ := Reader.exists_passed (hr.onward ho).sane ho hend
  obtain ⟨before, after, htokens, hafter⟩ := hr.exists_tokenize hp
  have hexcerpted : stmt.Excerpted source :=
    ⟨passed, before, after, _, c, htokens, hafter, hspan, hp.around hr ho, hproper, htree,
      hp.yield_eq hyield⟩
  refine Node.sound_of_children ?_ hchildren
  cases stmt with
  | absent | block _ => trivial
  | _ => exact hexcerpted

/-- A statement is sound, whichever rule read it. -/
theorem sound_statement {s : Option Stmt} (hr : r.Of source) (hc : Clean (statement expr) r s r') :
    ∀ stmt ∈ s, (Node.stmt stmt).Sound source := by
  have hs := hr.sane
  obtain ⟨c, stmt, rfl, hproper, htree, hyield, -⟩ := derives_statement h hd hs hc
  have ho := hc.onward (moves_statement h)
  intro stmt' hstmt'
  obtain rfl := Option.some.inj hstmt'
  -- whichever statement it is, it spans from its first token to its last
  have hnode (hend : r'.current.kind ≠ .eof)
      (hspan : (Node.stmt stmt).span? = some (r'.originFrom r.current).span)
      (hchildren : ∀ n ∈ (Node.stmt stmt).children, n.Sound source) :=
    sound_stmt hr ho hend hproper htree hyield hspan hchildren
  rcases (clean_statement h).mp hc with ⟨-, hc'⟩ | ⟨hret, _, hc', ⟨⟩⟩ | ⟨-, -, _, hc', ⟨⟩⟩
  · obtain ⟨hname, -, value, r₁, hvalue, rfl, ⟨⟩⟩ := (clean_letStatement h).mp hc'
    have hr₁ := hr.advance.advance.advance
    refine hnode (current_skip_ne_eof (Kind.ne_eof_of_closes (hcloses hr₁.sane hvalue))) rfl ?_
    exact List.forall_mem_cons.mpr ⟨sound_name hr.advance hname,
      List.forall_mem_singleton.mpr (sound_lowest hx hr₁ hvalue)⟩
  · rcases (clean_returnStatement h).mp hc' with ⟨-, rfl, rfl⟩ | ⟨-, value, r₁, hvalue, rfl, rfl⟩
    · refine hnode (current_skip_ne_eof (by rw [hret]; decide)) rfl ?_
      exact List.forall_mem_singleton.mpr (sound_absent source)
    · refine hnode (current_skip_ne_eof (Kind.ne_eof_of_closes (hcloses hs.advance hvalue))) rfl ?_
      exact List.forall_mem_singleton.mpr (sound_lowest hx hr.advance hvalue)
  · obtain ⟨value, r₁, hvalue, rfl, rfl⟩ := (clean_expressionStatement h).mp hc'
    refine hnode (current_skip_ne_eof (Kind.ne_eof_of_closes (hcloses hs hvalue))) rfl ?_
    exact List.forall_mem_singleton.mpr (sound_lowest hx hr hvalue)

/-- Statements are sound, each after the one before. -/
theorem sound_statementsUntil {closing : Option Kind} {n : Nat} {ss : List Stmt}
    (hr : r.Of source) (hc : Clean (statementsUntil expr closing n) r ss r') :
    ∀ m ∈ ss.map Node.stmt, m.Sound source := by
  refine List.forall_mem_map.mpr ?_
  induction n generalizing r ss with
  | zero =>
      obtain ⟨rfl, -⟩ := clean_pure.mp hc
      exact List.forall_mem_nil _
  | succ n ih =>
      rcases (clean_statementsUntil h).mp hc with ⟨-, rfl, -⟩ |
        ⟨-, first, r₁, rest, hfirst, hrest, rfl⟩
      · exact List.forall_mem_nil _
      · have hr₁ := hr.onward (hfirst.onward (moves_statement h))
        refine List.forall_mem_append.mpr ⟨fun stmt hstmt => ?_, ih hr₁.advance hrest⟩
        exact sound_statement h hx hd hcloses hr hfirst stmt (Option.mem_toList.mp hstmt)

/-- A block is sound, from its brace to its brace. -/
theorem sound_block {b : Block} (hr : r.Of source) (hc : Clean (block expr) r b r') :
    (Node.stmt (.block b)).Sound source := by
  obtain ⟨statements, hstatements, -, rfl⟩ := (clean_block h).mp hc
  exact Node.sound_of_children trivial
    (sound_statementsUntil h hx hd hcloses hr.advance hstatements)

/-- A conditional is a node from its first token up to its last, and bare. -/
theorem sound_conditional (hr : r.Of source) (hc : Clean (conditional expr) r e r') :
    e.span? = some (r'.originFrom r.current).span ∧ e.isBare source = true ∧
      ∀ n ∈ (Node.expr e).children, n.Sound source := by
  obtain ⟨-, test, r₁, consequence, r₂, htest, -, -, hthen, hrest⟩ := (clean_conditional h).mp hc
  have hr₁ := hr.advance.advance.onward (htest.onward (h _))
  have hr₂ := hr₁.advance.advance.onward (hthen.onward (moves_block h))
  have hchildren {alternative : Block} (helse : (Node.stmt (.block alternative)).Sound source) :
      ∀ n ∈ [.expr test, .stmt (.block consequence), .stmt (.block alternative)],
        Node.Sound source n :=
    List.forall_mem_cons.mpr ⟨sound_lowest hx hr.advance.advance htest, List.forall_mem_cons.mpr
      ⟨sound_block h hx hd hcloses hr₁.advance.advance hthen, List.forall_mem_singleton.mpr helse⟩⟩
  rcases hrest with ⟨-, rfl, rfl⟩ | ⟨-, -, alternative, helse, rfl⟩
  · have hnone : (Node.stmt (.block .absent)).Sound source :=
      Node.sound_of_children trivial (List.forall_mem_nil _)
    exact ⟨rfl, rfl, hchildren hnone⟩
  · exact ⟨rfl, rfl, hchildren (sound_block h hx hd hcloses hr₂.advance.advance helse)⟩

/-- The same of a function. -/
theorem sound_functionLiteral (hr : r.Of source) (hc : Clean (functionLiteral expr) r e r') :
    e.span? = some (r'.originFrom r.current).span ∧ e.isBare source = true ∧
      ∀ n ∈ (Node.expr e).children, n.Sound source := by
  obtain ⟨-, ps, r₁, hparams, hrest⟩ := (clean_functionLiteral h).mp hc
  obtain ⟨-, params, rfl, -⟩ := derives_parameters hr.sane.advance hparams
  rcases hrest with ⟨⟨⟩, -⟩ | ⟨params, body, ⟨⟩, -, hbody, rfl⟩
  have hr₁ := hr.advance.onward (hparams.onward moves_parameters)
  refine ⟨rfl, rfl, ?_⟩
  rw [Node.children_fn]
  refine List.forall_mem_append.mpr ⟨List.forall_mem_map.mpr (sound_parameters hr.advance hparams),
    List.forall_mem_singleton.mpr ?_⟩
  exact sound_block h hx hd hcloses hr₁.advance hbody

/-- Whatever operand a token starts: each but an expression in parentheses is a node of its own. -/
theorem readAs_operand {first : Parse Expr} (hr : r.Of source)
    (hfirst : operand expr r.current = some first) (hc : Clean first r e r') :
    ReadAs source r e r' := by
  have hs := hr.sane
  have ho := hc.onward (moves_operand h hfirst)
  have hend := Kind.ne_eof_of_closes (closes_operand h hd hcloses hs hfirst hc)
  have hphrase : ∃ (k : Nat) (c : Phrase k), 1 ≤ k ∧ c.Covers e r.view r'.ahead := by
    rcases derives_operand h hd hs hfirst hc with ⟨c, hcovers⟩ | ⟨-, c, hcovers⟩
    · exact ⟨6, c, by decide, hcovers⟩
    · exact ⟨5, c, by decide, hcovers⟩
  obtain ⟨k, c, hk, hcovers⟩ := hphrase
  have hnode := readAs_node hr ho hend hk hcovers
  -- an operand of one token begins and ends with it
  have htoken (hsame : r' = r) :=
    readAs_token (e := e) (c := c) hr (hsame ▸ hend) hk (hsame ▸ hcovers)
  have hunary {op : UnaryOp} (hc : Clean (unaryExpression expr op) r e r') :
      ReadAs source r e r' := by
    obtain ⟨operand, hoperand, rfl⟩ := (clean_unaryExpression h).mp hc
    have hsound := (hx (by decide : 1 ≤ Precedence.unary) (by decide) hr.advance hoperand).sound
    exact hnode rfl rfl (List.forall_mem_singleton.mpr hsound)
  unfold operand at hfirst
  split at hfirst <;> cases hfirst
  case h_1 | h_3 | h_4 | h_5 =>
      obtain ⟨rfl, rfl⟩ := clean_pure.mp hc
      exact htoken rfl rfl rfl rfl
  case h_2 =>
      obtain ⟨-, rfl, rfl⟩ := clean_integer.mp hc
      exact htoken rfl rfl rfl rfl
  case h_6 => exact hunary hc
  case h_7 => exact hunary hc
  -- parentheses are not part of the tree, but of where it stands
  case h_8 hopen =>
      obtain ⟨r₁, hinner, hclose, rfl⟩ := (clean_grouped h).mp hc
      have hread := hx (Nat.le_refl 1) (by decide) hr.advance hinner
      exact readAs_grouped hr hopen hclose (hinner.onward (h _)) hread
  case h_9 =>
      obtain ⟨hspan, hbare, hchildren⟩ := sound_conditional h hx hd hcloses hr hc
      exact hnode hspan hbare hchildren
  case h_10 =>
      obtain ⟨hspan, hbare, hchildren⟩ := sound_functionLiteral h hx hd hcloses hr hc
      exact hnode hspan hbare hchildren
  case h_11 =>
      obtain ⟨es, helements, hrest⟩ := (clean_arrayLiteral h).mp hc
      obtain ⟨-, elements, rfl, -⟩ := derives_expressionList h hd (by decide) hs helements
      rcases hrest with ⟨⟨⟩, -⟩ | ⟨elements, ⟨⟩, rfl⟩
      exact hnode rfl rfl (sound_expressionList h hx hr helements)
  case h_12 =>
      obtain ⟨ps, r₁, hpairs, hrest⟩ := (clean_hashLiteral h).mp hc
      obtain ⟨pairs, rfl, -⟩ := derives_hashPairs h hd hs (Nat.lt_succ_self _) hpairs
      rcases hrest with ⟨⟨⟩, -⟩ | ⟨pairs, ⟨⟩, -, rfl, rfl⟩
      exact hnode rfl rfl (sound_hashPairs h hx hr hpairs)

/-- An operation on a left operand, whichever it is. -/
theorem readAs_step {above j : Nat} {c : Phrase j} (hlow : 1 ≤ above) (hr : r₀.Of source)
    (ho : r₀.Onward r) (hleft : ReadAs source r₀ left r) (hc : c.Covers left r₀.view r.ahead)
    (hnext : j = 6 ∨ j ≤ 5 ∧ r.upcoming.kind.precedence ≤ j + 1)
    (hbinds : above < r.upcoming.kind.precedence)
    (hop : Clean (operation expr r.upcoming left) r.advance e r') : ReadAs source r₀ e r' := by
  have hr₁ := hr.onward ho
  have ho' := hop.onward (moves_operation h _ _)
  have hend := Kind.ne_eof_of_closes (closes_operation h hcloses hr₁.advance.sane hop)
  obtain ⟨j', ⟨d, hd'⟩, -, habove⟩ := derives_operation h hd hlow hr₁.sane hc hnext hbinds hop
  -- a closing parenthesis binds nothing, so the left operand is not closed by it here
  have hparen : r.upcoming.kind ≠ .rparen := by
    intro hk
    rw [hk] at hbinds
    exact absurd hbinds (Nat.not_lt_of_le hlow)
  have hnode (ns : List Node) :=
    readAs_operation ns hr ho ho' hend hparen hleft (show 1 ≤ j' by omega) hd'
  rcases binds_cases (Nat.lt_of_le_of_lt hlow hbinds) with hk | hk | ⟨op, hk, hprec⟩
  · obtain ⟨es, hargs, hcall⟩ := (clean_call h hk).mp hop
    obtain ⟨-, args, rfl, -⟩ := derives_expressionList h hd (by decide) hr₁.advance.sane hargs
    rcases hcall with ⟨⟨⟩, -⟩ | ⟨args, ⟨⟩, rfl⟩
    exact hnode _ rfl rfl rfl (sound_expressionList h hx hr₁.advance hargs)
  · obtain ⟨index, r₂, hindex, -, rfl, rfl⟩ := (clean_index h hk).mp hop
    refine hnode _ rfl rfl rfl (List.forall_mem_singleton.mpr ?_)
    exact sound_lowest hx hr₁.advance.advance hindex
  · obtain ⟨right, hright, rfl⟩ := (clean_binary h (hk ▸ op.kind_ne_lparen)
      (hk ▸ op.kind_ne_lbracket)).mp hop
    have hstratum := op.stratum_le
    rw [hprec] at hright
    refine hnode _ rfl rfl rfl (List.forall_mem_singleton.mpr ?_)
    exact (hx (by omega) (by omega) hr₁.advance.advance hright).sound

/-- Each operation wraps up what was read before it, and so do many. -/
theorem readAs_operations {above n j : Nat} {c : Phrase j} (hlow : 1 ≤ above) (hr : r₀.Of source)
    (ho : r₀.Onward r) (hleft : ReadAs source r₀ left r) (hc : c.Covers left r₀.view r.ahead)
    (hnext : j = 6 ∨ j ≤ 5 ∧ r.upcoming.kind.precedence ≤ j + 1)
    (hops : Clean (operations expr above n left) r e r') : ReadAs source r₀ e r' := by
  induction n generalizing r left j with
  | zero =>
      obtain ⟨rfl, rfl⟩ := clean_pure.mp hops
      exact hleft
  | succ n ih =>
      rcases (clean_operations h).mp hops with ⟨-, rfl, rfl⟩ | ⟨hbinds, e₁, r₁, hop, hrest⟩
      · exact hleft
      · have hs := (hr.onward ho).sane
        have hread := readAs_step h hx hd hcloses hlow hr ho hleft hc hnext hbinds hop
        obtain ⟨j', ⟨d, hd'⟩, hnext', -⟩ := derives_operation h hd hlow hs hc hnext hbinds hop
        have ho₁ := (ho.trans (.advance r)).trans (hop.onward (moves_operation h _ _))
        exact ih ho₁ hread hd' hnext' hrest

end Rules

/-- Expressions are excerpted, however deep they may be nested. -/
theorem excerpts_expression (source : Text) (n : Nat) : Excerpts source (expression n) := by
  induction n with
  | zero =>
      intro above r r' e hlow hhigh hr hc
      exact absurd hc not_clean_missingOperand
  | succ n ih =>
      intro above r r' e hlow hhigh hr hc
      have hmoves := moves_expression n
      have hderives : Derives (expression n) := derives_expression n
      obtain ⟨first, left, r₁, hfirst, hleft, hops⟩ := clean_expression.mp hc
      have ho := hleft.onward (moves_operand hmoves hfirst)
      have hread := readAs_operand hmoves ih hderives (closes_expression n) hr hfirst hleft
      rcases derives_operand hmoves hderives hr.sane hfirst hleft with ⟨c, hcovers⟩ |
        ⟨hnext, c, hcovers⟩
      · exact readAs_operations hmoves ih hderives (closes_expression n) hlow hr ho hread hcovers
          (.inl rfl) hops
      · exact readAs_operations hmoves ih hderives (closes_expression n) hlow hr ho hread hcovers
          (.inr ⟨by omega, hnext⟩) hops

/-- In a source that is read without problems, all nodes are excerpted. -/
theorem sound_program {source : Text} (h : (parse source).diagnostics = []) :
    (Node.program (parse source).program).Sound source := by
  obtain ⟨r', hclean⟩ := (diagnostics_eq_nil_iff source).mp h
  obtain ⟨ss, hss, hprogram⟩ := clean_program.mp hclean
  rw [hprogram]
  exact Node.sound_of_children trivial (sound_statementsUntil (moves_expression _)
    (excerpts_expression source _) (derives_expression _) (closes_expression _) (.refl _) hss)

end Monkey
