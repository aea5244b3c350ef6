import Monkey.Proofs.Accepts

/-!
# The canonical text reads back as the same tree

A source that is read without problems has a derivation. Out of it a second one is
built that derives the terminals of the canonical text: parentheses stand around every
unary, binary and index expression and nowhere else, no hash has a trailing comma, and
semicolons stand where the text puts them. It has the same tree, and a source is read
as the tree of its derivation.

What ties the second derivation to the text is scanning: `Spells` says that the
canonical text, before any text that does not go on its last word or numeral, is
scanned as the terminals that the phrase derives.
-/

namespace Monkey

open Grammar

/-! ## The pieces of the canonical text -/

section Pieces

variable (s : Text)

@[simp] theorem terminals_space : terminals (text " " ++ s) = terminals s :=
  terminals_blank rfl s

@[simp] theorem terminals_lparen :
    terminals (text "(" ++ s) = Kind.lparen.terminal :: terminals s :=
  terminals_symbol rfl (.inl rfl)

@[simp] theorem terminals_rparen :
    terminals (text ")" ++ s) = Kind.rparen.terminal :: terminals s :=
  terminals_symbol rfl (.inl rfl)

@[simp] theorem terminals_rparen_space :
    terminals (text ") " ++ s) = Kind.rparen.terminal :: terminals s :=
  (terminals_rparen (text " " ++ s)).trans (by rw [terminals_space])

@[simp] theorem terminals_lbracket :
    terminals (text "[" ++ s) = Kind.lbracket.terminal :: terminals s :=
  terminals_symbol rfl (.inl rfl)

@[simp] theorem terminals_rbracket :
    terminals (text "]" ++ s) = Kind.rbracket.terminal :: terminals s :=
  terminals_symbol rfl (.inl rfl)

@[simp] theorem terminals_rbracket_rparen :
    terminals (text "])" ++ s) = Kind.rbracket.terminal :: Kind.rparen.terminal :: terminals s :=
  (terminals_rbracket (text ")" ++ s)).trans (by rw [terminals_rparen])

@[simp] theorem terminals_lbrace :
    terminals (text "\x7b" ++ s) = Kind.lbrace.terminal :: terminals s :=
  terminals_symbol rfl (.inl rfl)

@[simp] theorem terminals_lbrace_space :
    terminals (text "\x7b " ++ s) = Kind.lbrace.terminal :: terminals s :=
  (terminals_lbrace (text " " ++ s)).trans (by rw [terminals_space])

@[simp] theorem terminals_rbrace :
    terminals (text "\x7d" ++ s) = Kind.rbrace.terminal :: terminals s :=
  terminals_symbol rfl (.inl rfl)

@[simp] theorem terminals_space_rbrace :
    terminals (text " \x7d" ++ s) = Kind.rbrace.terminal :: terminals s :=
  (terminals_space (text "\x7d" ++ s)).trans (terminals_rbrace s)

@[simp] theorem terminals_braces :
    terminals (text "\x7b \x7d" ++ s)
      = Kind.lbrace.terminal :: Kind.rbrace.terminal :: terminals s :=
  (terminals_lbrace_space (text "\x7d" ++ s)).trans (by rw [terminals_rbrace])

@[simp] theorem terminals_comma_space :
    terminals (text ", " ++ s) = Kind.comma.terminal :: terminals s :=
  (terminals_symbol rfl (.inl rfl)).trans (congrArg _ (terminals_space s))

@[simp] theorem terminals_colon_space :
    terminals (text ": " ++ s) = Kind.colon.terminal :: terminals s :=
  (terminals_symbol rfl (.inl rfl)).trans (congrArg _ (terminals_space s))

@[simp] theorem terminals_semicolon :
    terminals (text ";" ++ s) = Kind.semicolon.terminal :: terminals s :=
  terminals_symbol rfl (.inl rfl)

/-- The equals sign of a let statement stays one, since a blank follows it. -/
@[simp] theorem terminals_space_assign_space :
    terminals (text " = " ++ s) = Kind.assign.terminal :: terminals s := by
  have hnot : (text " " ++ s).head? ≠ some 0x3d := fun h => absurd (Option.some.inj h) (by decide)
  calc terminals (text " " ++ (text "=" ++ (text " " ++ s)))
      = terminals (text "=" ++ (text " " ++ s)) := terminals_space _
    _ = Kind.assign.terminal :: terminals (text " " ++ s) :=
        terminals_symbol (b := 0x3d) rfl (.inr hnot)
    _ = _ := by rw [terminals_space]

/-- A reserved word before a text that does not go on with it. -/
theorem terminals_keyword {k : Kind} (hk : k.isKeyword = true) {s : Text} (hs : Apart s) :
    terminals (k.spelling ++ s) = k.terminal :: terminals s := by
  have hword : k.spelling ≠ [] ∧ k.spelling.all isLetter = true ∧ Kind.ofWord k.spelling = k := by
    cases k <;> first | exact absurd hk (by decide) | decide
  rw [terminals_word hword.1 hword.2.1 hs, hword.2.2]
  rfl

/-- The first word of a conditional and the parenthesis after it are read apart. -/
@[simp] theorem terminals_if :
    terminals (text "if (" ++ s) = Kind.ifWord.terminal :: Kind.lparen.terminal :: terminals s :=
  calc terminals (Kind.ifWord.spelling ++ (text " " ++ (text "(" ++ s)))
      = Kind.ifWord.terminal :: terminals (text " " ++ (text "(" ++ s)) := terminals_keyword rfl rfl
    _ = _ := by rw [terminals_space, terminals_lparen]

@[simp] theorem terminals_else :
    terminals (text " else " ++ s) = Kind.elseWord.terminal :: terminals s :=
  calc terminals (text " " ++ (Kind.elseWord.spelling ++ (text " " ++ s)))
      = terminals (Kind.elseWord.spelling ++ (text " " ++ s)) := terminals_space _
    _ = Kind.elseWord.terminal :: terminals (text " " ++ s) := terminals_keyword rfl rfl
    _ = _ := by rw [terminals_space]

/-- An operator between blanks. -/
theorem terminals_operator (op : Operator) :
    terminals (op.op.symbol ++ (text " " ++ s)) = op.kind.terminal :: terminals s := by
  rw [← terminals_space s]
  cases op with
  | eq => exact terminals_double (b := 0x3d) rfl rfl _
  | ne => exact terminals_double (b := 0x21) rfl rfl _
  | lt => exact terminals_symbol rfl (.inl rfl)
  | gt => exact terminals_symbol rfl (.inl rfl)
  | add => exact terminals_symbol rfl (.inl rfl)
  | sub => exact terminals_symbol rfl (.inl rfl)
  | mul => exact terminals_symbol rfl (.inl rfl)
  | div => exact terminals_symbol rfl (.inl rfl)

variable {s}

/-- A text that is scanned as an expression does not start with an equals sign. -/
theorem head_ne_equals (h : starts (firstKind (terminals s)) = true) : s.head? ≠ some 0x3d := by
  intro hhead
  obtain ⟨t, rfl⟩ : ∃ t, s = 0x3d :: t := by
    cases s with
    | nil => cases hhead
    | cons b t => exact ⟨t, by rw [Option.some.inj hhead]⟩
  by_cases ht : t.head? = some 0x3d
  · obtain ⟨u, rfl⟩ : ∃ u, t = 0x3d :: u := by
      cases t with
      | nil => cases ht
      | cons b u => exact ⟨u, by rw [Option.some.inj ht]⟩
    rw [terminals_double (b := 0x3d) rfl rfl] at h
    exact absurd h (show starts .eq ≠ true by decide)
  · rw [terminals_symbol (b := 0x3d) rfl (.inr ht)] at h
    exact absurd h (show starts .assign ≠ true by decide)

/-- A sign before a text that is scanned as an expression. -/
theorem terminals_sign (sign : Sign) (h : starts (firstKind (terminals s)) = true) :
    terminals (sign.op.symbol ++ s) = sign.kind.terminal :: terminals s := by
  cases sign with
  | bang => exact terminals_symbol rfl (.inr (head_ne_equals h))
  | minus => exact terminals_symbol rfl (.inl rfl)

end Pieces

/-! ## Phrases that spell a text -/

namespace Grammar

/-- A phrase derives the canonical text of an expression, and stands for it. -/
structure Phrase.Spells {k : Nat} (c : Phrase k) (e : Expr) : Prop where
  proper : c.Proper
  tree : c.tree = e
  scans : ∀ rest, Apart rest → terminals (e.render ++ rest) = c.yield ++ terminals rest
  last : e.render.getLast? ≠ some 0x3b

/-- What is spelt at one stratum is spelt at every one below it. -/
theorem Phrase.Spells.exists_lift {j k : Nat} (hk : k ≤ j) {c : Phrase j} {e : Expr}
    (hc : c.Spells e) : ∃ c' : Phrase k, c'.Spells e := by
  obtain ⟨c', hyield, htree, hproper⟩ := Phrase.exists_lift hk c
  refine ⟨c', hproper hc.proper, htree.trans hc.tree, fun rest hrest => ?_, hc.last⟩
  rw [hyield, hc.scans rest hrest]

/-- Phrases that spell expressions one by one. -/
def SpellsList : List (Phrase 1) → List Expr → Prop
  | [], [] => True
  | d :: ds, e :: es => d.Spells e ∧ SpellsList ds es
  | _, _ => False

/-- Keys and values that spell theirs one by one. -/
def SpellsPairs : List (Phrase 1 × Phrase 1) → List (Expr × Expr) → Prop
  | [], [] => True
  | (dk, dv) :: ds, (key, value) :: es => dk.Spells key ∧ dv.Spells value ∧ SpellsPairs ds es
  | _, _ => False

/-- A sentence as the canonical text ends it: only an expression, and only the last one,
has no semicolon. -/
def Sentence.ended (closed : Bool) : Sentence → Sentence
  | .bind name value _ => .bind name value true
  | .ret value _ => .ret value true
  | .bare _ => .bare true
  | .expr value _ => .expr value closed

/-- A sentence derives the canonical text of a statement, with the semicolon that sets it
off from the next one or as the last one, and stands for it. -/
structure Sentence.Spells (c : Sentence) (s : Stmt) : Prop where
  proper : c.Proper
  tree : c.tree = s
  scans : ∀ rest, terminals (s.render ++ (if s.render.getLast? = some 0x3b then [] else text ";")
    ++ rest) = (c.ended true).yield ++ terminals rest
  scansLast : ∀ rest, Apart rest →
    terminals (s.render ++ rest) = (c.ended false).yield ++ terminals rest

/-- Sentences that spell statements one by one. -/
def SpellsStatements : List Sentence → List Stmt → Prop
  | [], [] => True
  | d :: ds, s :: ss => d.Spells s ∧ SpellsStatements ds ss
  | _, _ => False

/-- Sentences as the canonical text ends them. -/
def endAll : List Sentence → List Sentence
  | [] => []
  | [last] => [last.ended false]
  | c :: rest => c.ended true :: endAll rest

theorem endAll_cons_cons (c d : Sentence) (rest : List Sentence) :
    endAll (c :: d :: rest) = c.ended true :: endAll (d :: rest) := rfl

end Grammar

/-! ## Lists -/

theorem Text.join_cons_cons (separator part next : Text) (parts : List Text) :
    Text.join separator (part :: next :: parts)
      = part ++ separator ++ Text.join separator (next :: parts) := rfl

/-- Names with commas between them are read as these names, if what follows does not go on with the
last. -/
theorem terminals_names {names : List Text} (hnames : ∀ name ∈ names, name ≠ [] ∧
    name.all isLetter = true ∧ Kind.ofWord name = .ident) {rest : Text} (hrest : Apart rest) :
    terminals (Text.join (text ", ") names ++ rest) = yieldNames names ++ terminals rest := by
  induction names with
  | nil => rfl
  | cons name names ih =>
      rw [List.forall_mem_cons] at hnames
      obtain ⟨⟨hne, hletters, hword⟩, hnames⟩ := hnames
      cases names with
      | nil =>
          show terminals (name ++ rest) = _
          rw [terminals_word hne hletters hrest, hword]
          rfl
      | cons next names =>
          have hcomma : Apart (text ", " ++ (Text.join (text ", ") (next :: names) ++ rest)) := rfl
          rw [Text.join_cons_cons, List.append_assoc, List.append_assoc,
            terminals_word hne hletters hcomma, terminals_comma_space, ih hnames, hword]
          rfl

/-- Phrases that spell expressions are proper, and have these as their trees. -/
theorem Grammar.SpellsList.proper {ds : List (Phrase 1)} {es : List Expr} (h : SpellsList ds es) :
    ProperList ds ∧ listTree ds = es := by
  induction ds generalizing es with
  | nil => cases es with
    | nil => exact ⟨trivial, rfl⟩
    | cons e es => exact h.elim
  | cons d ds ih => cases es with
    | nil => exact h.elim
    | cons e es =>
        obtain ⟨hproper, htree⟩ := ih h.2
        exact ⟨⟨h.1.proper, hproper⟩, by rw [listTree, h.1.tree, htree]⟩

/-- The text of a list is read as the phrases that spell it. -/
theorem Grammar.SpellsList.scans {ds : List (Phrase 1)} {es : List Expr} (h : SpellsList ds es)
    {rest : Text} (hrest : Apart rest) :
    terminals (Text.join (text ", ") (renderExprs es) ++ rest)
      = yieldList ds ++ terminals rest := by
  induction ds generalizing es with
  | nil => cases es with
    | nil => rfl
    | cons e es => exact h.elim
  | cons d ds ih => cases es with
    | nil => exact h.elim
    | cons e es =>
        obtain ⟨hd, hds⟩ := h
        cases ds with
        | nil => cases es with
          | nil =>
              show terminals (e.render ++ rest) = _
              rw [hd.scans rest hrest, yieldList, yieldMore, List.append_nil]
          | cons e' es => exact hds.elim
        | cons d' ds => cases es with
          | nil => exact hds.elim
          | cons e' es =>
              -- a comma keeps the text of an expression apart from what follows it
              have hrec := ih hds
              simp only [renderExprs] at hrec ⊢
              rw [Text.join_cons_cons, List.append_assoc, List.append_assoc, hd.scans _ ?_,
                terminals_comma_space, hrec]
              · simp only [yieldList, yieldMore, List.cons_append, List.append_assoc]
              · rfl

/-- Phrases that spell pairs are proper, and have these as their trees. -/
theorem Grammar.SpellsPairs.proper {ds : List (Phrase 1 × Phrase 1)} {es : List (Expr × Expr)}
    (h : SpellsPairs ds es) : ProperPairs ds ∧ pairsTree ds = es := by
  induction ds generalizing es with
  | nil => cases es with
    | nil => exact ⟨trivial, rfl⟩
    | cons e es => exact h.elim
  | cons d ds ih => cases es with
    | nil => exact h.elim
    | cons e es =>
        obtain ⟨hkey, hvalue, hds⟩ := h
        obtain ⟨hproper, htree⟩ := ih hds
        exact ⟨⟨hkey.proper, hvalue.proper, hproper⟩, by
          rw [pairsTree, hkey.tree, hvalue.tree, htree]⟩

/-- The pairs of a hash after the opening brace. -/
theorem Grammar.SpellsPairs.scans {dk dv : Phrase 1} {key value : Expr}
    {ds : List (Phrase 1 × Phrase 1)} {es : List (Expr × Expr)} (hk : dk.Spells key)
    (hv : dv.Spells value) (h : SpellsPairs ds es) {rest : Text} (hrest : Apart rest) :
    terminals (Text.join (text ", ") (renderPairs ((key, value) :: es)) ++ rest)
      = dk.yield ++ Kind.colon.terminal :: (dv.yield ++ (yieldMorePairs ds ++ terminals rest)) := by
  induction ds generalizing dk dv key value es with
  | nil => cases es with
    | nil =>
        show terminals (key.render ++ text ": " ++ value.render ++ rest) = _
        rw [List.append_assoc, List.append_assoc, hk.scans _ ?_, terminals_colon_space,
          hv.scans rest hrest]
        · rfl
        · rfl
    | cons e es => exact h.elim
  | cons d ds ih => cases es with
    | nil => exact h.elim
    | cons e es =>
        obtain ⟨hk', hv', hds⟩ := h
        have hrec := ih hk' hv' hds
        simp only [renderPairs] at hrec ⊢
        rw [Text.join_cons_cons]
        simp only [List.append_assoc] at hrec ⊢
        rw [hk.scans _ ?_, terminals_colon_space, hv.scans _ ?_, terminals_comma_space, hrec]
        · simp only [yieldMorePairs, List.cons_append, List.append_assoc]
        · rfl
        · rfl

/-! ## Statements -/

/-- Two statements are joined with a semicolon between them, unless the first one ends in one. -/
theorem joinStatements_cons_cons (t u : Text) (rest : List Text) :
    joinStatements (t :: u :: rest) = t ++ (if t.getLast? = some 0x3b then [] else text ";")
      ++ text " " ++ joinStatements (u :: rest) := rfl

namespace Grammar.Sentence

/-- Whether a sentence is closed by a semicolon does not matter to whether it is proper. -/
theorem proper_ended {c : Sentence} (closed : Bool) (h : c.Proper) : (c.ended closed).Proper := by
  cases c <;> exact h

/-- Nor does it matter to its tree. -/
theorem tree_ended (c : Sentence) (closed : Bool) : (c.ended closed).tree = c.tree := by
  cases c <;> rfl

/-- With its semicolon a statement may stand before anything. -/
theorem mayPrecede_ended_true (c : Sentence) (k : Kind) : (c.ended true).MayPrecede k := by
  cases c <;> exact fun h => absurd h (by decide)

/-- A sentence that is not closed may stand before what ends statements anyway. -/
theorem mayPrecede_ended_false (c : Sentence) {k : Kind} (hk : endsBefore k) :
    (c.ended false).MayPrecede k := by
  cases c with
  | expr value closed => exact fun _ => hk
  | _ => exact fun h => absurd h (by decide)

/-- A statement whose text always has its semicolon. -/
theorem Spells.of_closed {c : Sentence} {s : Stmt} (hproper : c.Proper) (htree : c.tree = s)
    (hended : c.ended false = c.ended true) (hlast : s.render.getLast? = some 0x3b)
    (hscans : ∀ rest, terminals (s.render ++ rest) = (c.ended true).yield ++ terminals rest) :
    c.Spells s where
  proper := hproper
  tree := htree
  scans rest := by rw [if_pos hlast, List.append_nil, hscans]
  scansLast rest _ := by rw [hended, hscans]

end Grammar.Sentence

/-- Sentences that spell statements are proper once all but the last are closed, and have these as
their trees. -/
theorem Grammar.SpellsStatements.proper {ds : List Sentence} {ss : List Stmt}
    (h : SpellsStatements ds ss) {after : List Terminal} (hafter : endsBefore (firstKind after)) :
    ProperStatements after (endAll ds) ∧ statementsTree (endAll ds) = ss := by
  induction ds generalizing ss with
  | nil => cases ss with
    | nil => exact ⟨trivial, rfl⟩
    | cons s ss => exact h.elim
  | cons d ds ih => cases ss with
    | nil => exact h.elim
    | cons s ss =>
        obtain ⟨hd, hds⟩ := h
        cases ds with
        | nil => cases ss with
          | nil =>
              refine
                ⟨⟨d.proper_ended false hd.proper, d.mayPrecede_ended_false hafter, trivial⟩, ?_⟩
              rw [endAll, statementsTree, d.tree_ended, hd.tree]
              rfl
          | cons s' ss => exact hds.elim
        | cons d' ds =>
            obtain ⟨hproper, htree⟩ := ih hds
            refine ⟨⟨d.proper_ended true hd.proper, d.mayPrecede_ended_true _, hproper⟩, ?_⟩
            rw [endAll_cons_cons, statementsTree, d.tree_ended, hd.tree, htree]

/-- The text of statements is read as the sentences that spell them, all but the last closed. -/
theorem Grammar.SpellsStatements.scans {ds : List Sentence} {ss : List Stmt}
    (h : SpellsStatements ds ss) {rest : Text} (hrest : Apart rest) :
    terminals (joinStatements (renderStatements ss) ++ rest)
      = yieldStatements (endAll ds) ++ terminals rest := by
  induction ds generalizing ss with
  | nil => cases ss with
    | nil => rfl
    | cons s ss => exact h.elim
  | cons d ds ih => cases ss with
    | nil => exact h.elim
    | cons s ss =>
        obtain ⟨hd, hds⟩ := h
        cases ds with
        | nil => cases ss with
          | nil =>
              -- the last statement may go without its semicolon
              show terminals (s.render ++ rest) = _
              rw [hd.scansLast rest hrest, endAll, yieldStatements, yieldStatements,
                List.append_nil]
          | cons s' ss => exact hds.elim
        | cons d' ds => cases ss with
          | nil => exact hds.elim
          | cons s' ss =>
              have hrec := ih hds
              simp only [renderStatements] at hrec ⊢
              rw [joinStatements_cons_cons, List.append_assoc, List.append_assoc, hd.scans,
                terminals_space, hrec, endAll_cons_cons, yieldStatements, List.append_assoc]

/-- A block, before any text. -/
theorem Grammar.SpellsStatements.block {ds : List Sentence} {ss : List Stmt}
    (h : SpellsStatements ds ss) (rest : Text) :
    terminals ((blockTree ss).render ++ rest) = Kind.lbrace.terminal
      :: (yieldStatements (endAll ds) ++ Kind.rbrace.terminal :: terminals rest) := by
  cases ss with
  | nil => cases ds with
    | nil => exact terminals_braces rest
    | cons d ds => exact h.elim
  | cons s ss =>
      show terminals (text "\x7b " ++ joinStatements (renderStatements (s :: ss)) ++ text " \x7d"
        ++ rest) = _
      rw [List.append_assoc, List.append_assoc, terminals_lbrace_space, h.scans ?_,
        terminals_space_rbrace]
      rfl

/-- The same inside a block, where a brace follows. -/
theorem Grammar.SpellsStatements.properBlock {ds : List Sentence} {ss : List Stmt}
    (h : SpellsStatements ds ss) : ProperStatements [Kind.rbrace.terminal] (endAll ds) ∧
      blockTree (statementsTree (endAll ds)) = blockTree ss := by
  have hbrace : endsBefore (firstKind [Kind.rbrace.terminal]) :=
    ⟨show Kind.rbrace ≠ .semicolon by decide, rfl⟩
  obtain ⟨hproper, htree⟩ := h.proper hbrace
  exact ⟨hproper, by rw [htree]⟩

/-! ## Last bytes -/

/-- What a text ends in is decided by its last byte. -/
theorem getLast?_append_ne {b : UInt8} (hb : b ≠ 0x3b) (t : Text) :
    (t ++ [b]).getLast? ≠ some 0x3b := by
  rw [List.getLast?_concat]
  exact fun h => hb (Option.some.inj h)

/-- A text of bytes of one class ends with one of them. -/
theorem getLast?_ne_of_all {p : UInt8 → Bool} {t : Text} (ht : t.all p = true)
    (hp : p 0x3b = false) : t.getLast? ≠ some 0x3b := by
  intro h
  have hmem : p 0x3b = true := List.all_eq_true.mp ht _ (List.mem_of_getLast? h)
  rw [hp] at hmem
  exact absurd hmem (by decide)

/-- A block ends with its brace. -/
theorem getLast?_block_ne (t : Text) (ss : List Stmt) :
    (t ++ (blockTree ss).render).getLast? ≠ some 0x3b := by
  have hend : ∃ u, (blockTree ss).render = u ++ [0x7d] := by
    cases ss with
    | nil => exact ⟨text "\x7b ", rfl⟩
    | cons s ss =>
        refine ⟨text "\x7b " ++ joinStatements (renderStatements (s :: ss)) ++ text " ", ?_⟩
        rw [List.append_assoc _ (text " ")]
        rfl
  obtain ⟨u, hu⟩ := hend
  rw [hu, ← List.append_assoc]
  exact getLast?_append_ne (by decide) _

/-! ## Productions -/

namespace Grammar

variable {c d : Phrase 6} {e f : Expr}

/-- What the canonical text puts in parentheses. -/
theorem spells_group {j : Nat} (hj : 1 ≤ j) (inner : Phrase j) (t : Text)
    (hproper : inner.Proper) (htree : inner.tree = e)
    (hrender : e.render = text "(" ++ t ++ text ")")
    (hscans : ∀ rest, terminals (t ++ (text ")" ++ rest))
      = inner.yield ++ Kind.rparen.terminal :: terminals rest) : ∃ c' : Phrase 6, c'.Spells e := by
  obtain ⟨inner', hyield', htree', hproper'⟩ := Phrase.exists_lift hj inner
  refine ⟨.lift (.group inner'), hproper' hproper, htree'.trans htree, fun rest _ => ?_, ?_⟩
  · rw [hrender, List.append_assoc, List.append_assoc, terminals_lparen, hscans, Phrase.yield,
      Phrase.yield, hyield', List.cons_append, List.append_assoc]
    rfl
  · rw [hrender]
    exact getLast?_append_ne (by decide) _

/-- The text of a unary expression reads back, parentheses and all. -/
theorem spells_unary (sign : Sign) (hc : c.Spells e) :
    ∃ c' : Phrase 6, c'.Spells (.unary (.ofLiteral sign.kind.spelling) sign.op e) := by
  obtain ⟨operand, ho⟩ := hc.exists_lift (k := 5) (by decide)
  have hscans (rest : Text) : terminals (e.render ++ (text ")" ++ rest))
      = operand.yield ++ Kind.rparen.terminal :: terminals rest := by
    rw [ho.scans _ ?_, terminals_rparen]
    rfl
  refine spells_group (by decide : 1 ≤ 5) (.unary sign operand)
    (sign.op.symbol ++ e.render) ho.proper ?_ ?_ fun rest => ?_
  · rw [Phrase.tree, ho.tree]
  · simp only [Expr.render, List.append_assoc]
  · rw [List.append_assoc, terminals_sign, hscans, Phrase.yield, List.cons_append]
    rw [hscans]
    exact operand.starts_append _

/-- The text of a binary expression reads back. Its parentheses make it an operand, whatever its
operator is. -/
theorem spells_binary (op : Operator) (hc : c.Spells e) (hd : d.Spells f) :
    ∃ c' : Phrase 6, c'.Spells (.binary (.ofLiteral op.kind.spelling) op.op e f) := by
  have hle := op.stratum_le
  obtain ⟨left, hl⟩ := hc.exists_lift (k := op.stratum) (by omega)
  obtain ⟨right, hr⟩ := hd.exists_lift (k := op.stratum + 1) (by omega)
  refine spells_group (by cases op <;> decide : 1 ≤ op.stratum) (.binary op rfl left right)
    (e.render ++ (text " " ++ (op.op.symbol ++ (text " " ++ f.render))))
    ⟨hl.proper, hr.proper⟩ ?_ ?_ fun rest => ?_
  · rw [Phrase.tree, hl.tree, hr.tree]
  · simp only [Expr.render, List.append_assoc]
  · simp only [List.append_assoc]
    rw [hl.scans _ ?_, terminals_space, terminals_operator, hr.scans _ ?_, terminals_rparen,
      Phrase.yield, List.append_assoc, List.cons_append]
    · rfl
    · rfl

/-- The text of an indexing reads back. -/
theorem spells_index (hc : c.Spells e) (hd : d.Spells f) :
    ∃ c' : Phrase 6, c'.Spells (.index (.ofLiteral Kind.lbracket.spelling) e f) := by
  obtain ⟨inner, hi⟩ := hd.exists_lift (k := 1) (by decide)
  refine spells_group (by decide : 1 ≤ 6) (.index c inner)
    (e.render ++ (text "[" ++ (f.render ++ text "]"))) ⟨hc.proper, hi.proper⟩ ?_ ?_
    fun rest => ?_
  · rw [Phrase.tree, hc.tree, hi.tree]
  · simp only [Expr.render, List.append_assoc]
    rfl
  · simp only [List.append_assoc]
    rw [hc.scans _ ?_, terminals_lbracket, hi.scans _ ?_, terminals_rbracket, terminals_rparen,
      Phrase.yield]
    · simp only [List.append_assoc, List.cons_append, List.nil_append]
    · rfl
    · rfl

/-- The text of a call reads back: only its callee is in parentheses of its own. -/
theorem spells_call (hc : c.Spells e) {ds : List (Phrase 1)} {es : List Expr}
    (hds : SpellsList ds es) :
    ∃ c' : Phrase 6, c'.Spells (.call (.ofLiteral Kind.lparen.spelling) e es) := by
  obtain ⟨hproper, htree⟩ := hds.proper
  refine ⟨.call c ds, ⟨hc.proper, hproper⟩, ?_, fun rest _ => ?_, ?_⟩
  · rw [Phrase.tree, hc.tree, htree]
  · simp only [Expr.render, listed, List.append_assoc]
    rw [hc.scans _ ?_, terminals_lparen, hds.scans ?_, terminals_rparen, Phrase.yield]
    · simp only [List.append_assoc, List.cons_append, List.nil_append]
    · rfl
    · rfl
  · rw [Expr.render, listed, ← List.append_assoc]
    exact getLast?_append_ne (by decide) _

/-- The text of an array reads back. -/
theorem spells_array {ds : List (Phrase 1)} {es : List Expr} (hds : SpellsList ds es) :
    ∃ c' : Phrase 6, c'.Spells (.array (.ofLiteral Kind.lbracket.spelling) es) := by
  obtain ⟨hproper, htree⟩ := hds.proper
  refine ⟨.lift (.array ds), hproper, ?_, fun rest _ => ?_, ?_⟩
  · rw [Phrase.tree, Phrase.tree, htree]
  · simp only [Expr.render, listed, List.append_assoc]
    rw [terminals_lbracket, hds.scans ?_, terminals_rbracket, Phrase.yield, Phrase.yield]
    · simp only [List.append_assoc, List.cons_append, List.nil_append]
    · rfl
  · rw [Expr.render, listed]
    exact getLast?_append_ne (by decide) _

theorem spells_emptyHash :
    ∃ c' : Phrase 6, c'.Spells (.hash (.ofLiteral Kind.lbrace.spelling) []) := by
  refine ⟨.lift .emptyHash, trivial, rfl, fun rest _ => ?_, by decide⟩
  show terminals (text "\x7b" ++ (text "\x7d" ++ rest)) = _
  rw [terminals_lbrace, terminals_rbrace]
  rfl

/-- The text of a hash with at least one pair reads back. -/
theorem spells_hash (hc : c.Spells e) (hd : d.Spells f) {ds : List (Phrase 1 × Phrase 1)}
    {es : List (Expr × Expr)} (hds : SpellsPairs ds es) :
    ∃ c' : Phrase 6, c'.Spells (.hash (.ofLiteral Kind.lbrace.spelling) ((e, f) :: es)) := by
  obtain ⟨key, hk⟩ := hc.exists_lift (k := 1) (by decide)
  obtain ⟨value, hv⟩ := hd.exists_lift (k := 1) (by decide)
  obtain ⟨hproper, htree⟩ := hds.proper
  refine ⟨.lift (.hash key value ds false), ⟨hk.proper, hv.proper, hproper⟩, ?_, fun rest _ => ?_,
    ?_⟩
  · rw [Phrase.tree, Phrase.tree, hk.tree, hv.tree, htree]
  · simp only [Expr.render, listed, List.append_assoc]
    rw [terminals_lbrace, hds.scans hk hv ?_, terminals_rbrace, Phrase.yield, Phrase.yield]
    · simp only [List.append_assoc, List.cons_append, List.nil_append]
      rfl
    · rfl
  · rw [Expr.render, listed]
    exact getLast?_append_ne (by decide) _

/-- The text of a conditional without `else` reads back. -/
theorem spells_cond (hc : c.Spells e) {ds : List Sentence} {ss : List Stmt}
    (hds : SpellsStatements ds ss) : ∃ c' : Phrase 6,
      c'.Spells (.cond (.ofLiteral Kind.ifWord.spelling) e (blockTree ss) .absent) := by
  obtain ⟨test, ht⟩ := hc.exists_lift (k := 1) (by decide)
  obtain ⟨hproper, htree⟩ := hds.properBlock
  have hrender : (Expr.cond (.ofLiteral Kind.ifWord.spelling) e (blockTree ss) .absent).render
      = text "if (" ++ (e.render ++ (text ") " ++ (blockTree ss).render)) := by
    simp only [Expr.render, List.append_assoc]
    rw [if_pos (show Block.absent.isAbsent = true from rfl), List.append_nil]
  refine ⟨.lift (.cond test (endAll ds)), ⟨ht.proper, hproper⟩, ?_, fun rest _ => ?_, ?_⟩
  · rw [Phrase.tree, Phrase.tree, ht.tree, htree]
  · rw [hrender]
    simp only [List.append_assoc]
    rw [terminals_if, ht.scans _ ?_, terminals_rparen_space, hds.block, Phrase.yield, Phrase.yield]
    · simp only [List.append_assoc, List.cons_append, List.nil_append]
    · rfl
  · rw [hrender, ← List.append_assoc, ← List.append_assoc]
    exact getLast?_block_ne _ ss

/-- The text of a conditional with `else` reads back. -/
theorem spells_condElse (hc : c.Spells e) {ds ds' : List Sentence} {ss ss' : List Stmt}
    (hds : SpellsStatements ds ss) (hds' : SpellsStatements ds' ss') : ∃ c' : Phrase 6,
      c'.Spells (.cond (.ofLiteral Kind.ifWord.spelling) e (blockTree ss) (blockTree ss')) := by
  obtain ⟨test, ht⟩ := hc.exists_lift (k := 1) (by decide)
  obtain ⟨hproper, htree⟩ := hds.properBlock
  obtain ⟨hproper', htree'⟩ := hds'.properBlock
  have hrender :
      (Expr.cond (.ofLiteral Kind.ifWord.spelling) e (blockTree ss) (blockTree ss')).render
      = text "if (" ++ (e.render ++ (text ") " ++ ((blockTree ss).render
        ++ (text " else " ++ (blockTree ss').render)))) := by
    simp only [Expr.render, List.append_assoc]
    rw [if_neg (show ¬ (blockTree ss').isAbsent = true from Bool.false_ne_true)]
  refine ⟨.lift (.condElse test (endAll ds) (endAll ds')), ⟨ht.proper, hproper, hproper'⟩, ?_,
    fun rest _ => ?_, ?_⟩
  · rw [Phrase.tree, Phrase.tree, ht.tree, htree, htree']
  · rw [hrender]
    simp only [List.append_assoc]
    rw [terminals_if, ht.scans _ ?_, terminals_rparen_space, hds.block, terminals_else, hds'.block,
      Phrase.yield, Phrase.yield]
    · simp only [List.append_assoc, List.cons_append, List.nil_append]
    · rfl
  · rw [hrender]
    simp only [← List.append_assoc]
    exact getLast?_block_ne _ ss'

/-- The text of a function reads back, if its parameters are names. -/
theorem spells_fn {names : List Text} (hnames : ∀ name ∈ names, name ≠ [] ∧
    name.all isLetter = true ∧ Kind.ofWord name = .ident) {ds : List Sentence} {ss : List Stmt}
    (hds : SpellsStatements ds ss) : ∃ c' : Phrase 6,
      c'.Spells (.fn (.ofLiteral Kind.fnWord.spelling) (names.map fun name => some (binder name))
        (blockTree ss)) := by
  obtain ⟨hproper, htree⟩ := hds.properBlock
  have hrender :
      (Expr.fn (.ofLiteral Kind.fnWord.spelling) (names.map fun name => some (binder name))
        (blockTree ss)).render
      = Kind.fnWord.spelling ++ (text "(" ++ (Text.join (text ", ") names
        ++ (text ") " ++ (blockTree ss).render))) := by
    simp only [Expr.render, listed, List.append_assoc, List.map_map]
    rw [show (parameterName ∘ fun name => some (binder name)) = id from rfl, List.map_id]
    rfl
  refine ⟨.lift (.fn names (endAll ds)), hproper, ?_, fun rest _ => ?_, ?_⟩
  · rw [Phrase.tree, Phrase.tree, htree]
  -- each part is scanned by itself, since the next one does not go on with it
  · rw [hrender]
    simp only [List.append_assoc]
    rw [terminals_keyword rfl ?_, terminals_lparen, terminals_names hnames ?_,
      terminals_rparen_space, hds.block, Phrase.yield, Phrase.yield]
    · simp only [List.append_assoc, List.cons_append, List.nil_append]
    · rfl
    · rfl
  · rw [hrender]
    simp only [← List.append_assoc]
    exact getLast?_block_ne _ ss

/-- The text of a let statement reads back, if it binds a name. -/
theorem spells_bind {name : Text} (hname : name ≠ [] ∧ name.all isLetter = true ∧
    Kind.ofWord name = .ident) (hc : c.Spells e) :
    ∃ d : Sentence, d.Spells (.bind (.ofLiteral Kind.letWord.spelling) (some (binder name)) e) := by
  obtain ⟨value, hv⟩ := hc.exists_lift (k := 1) (by decide)
  have hrender : (Stmt.bind (.ofLiteral Kind.letWord.spelling) (some (binder name)) e).render
      = Kind.letWord.spelling
        ++ (text " " ++ (name ++ (text " = " ++ (e.render ++ text ";")))) := by
    simp only [Stmt.render, List.append_assoc]
    rfl
  refine ⟨.bind name value true, .of_closed hv.proper ?_ rfl ?_ fun rest => ?_⟩
  · rw [Sentence.tree, hv.tree]
  · rw [hrender]
    simp only [← List.append_assoc]
    exact List.getLast?_concat
  · rw [hrender]
    simp only [List.append_assoc]
    rw [terminals_keyword rfl ?_, terminals_space, terminals_word hname.1 hname.2.1 ?_,
      terminals_space_assign_space, hv.scans _ ?_, terminals_semicolon, hname.2.2]
    · simp only [Sentence.ended, Sentence.yield, List.append_assoc, List.cons_append]
      rfl
    · rfl
    · rfl
    · rfl

/-- The text of a return statement reads back. A blank stands between the word and the value, so
they are not read as one word. -/
theorem spells_ret (hc : c.Spells e) :
    ∃ d : Sentence, d.Spells (.ret (.ofLiteral Kind.returnWord.spelling) e) := by
  obtain ⟨value, hv⟩ := hc.exists_lift (k := 1) (by decide)
  have habsent : ¬ e.isAbsent = true := by
    -- an absent value has no text, but this one is scanned as an expression
    intro habsent
    have hstarts := value.starts_append (terminals [])
    rw [← hv.scans [] rfl] at hstarts
    cases e with
    | absent => exact absurd hstarts (by decide)
    | _ => cases habsent
  have hrender : (Stmt.ret (.ofLiteral Kind.returnWord.spelling) e).render
      = Kind.returnWord.spelling ++ (text " " ++ (e.render ++ text ";")) := by
    rw [Stmt.render, if_neg habsent]
    simp only [List.append_assoc]
    rfl
  refine ⟨.ret value true, .of_closed hv.proper ?_ rfl ?_ fun rest => ?_⟩
  · rw [Sentence.tree, hv.tree]
  · rw [hrender]
    simp only [← List.append_assoc]
    exact List.getLast?_concat
  · rw [hrender]
    simp only [List.append_assoc]
    rw [terminals_keyword rfl ?_, terminals_space, hv.scans _ ?_, terminals_semicolon]
    · simp only [Sentence.ended, Sentence.yield, List.append_assoc, List.cons_append]
      rfl
    · rfl
    · rfl

/-- The text of a bare return reads back. -/
theorem spells_bare :
    ∃ d : Sentence, d.Spells (.ret (.ofLiteral Kind.returnWord.spelling) .absent) := by
  refine ⟨.bare true, .of_closed trivial rfl rfl (by decide) fun rest => ?_⟩
  show terminals (Kind.returnWord.spelling ++ (text ";" ++ rest)) = _
  rw [terminals_keyword rfl ?_, terminals_semicolon]
  · rfl
  · rfl

/-- The text of an expression as a statement reads back. -/
theorem spells_expr (hc : c.Spells e) : ∃ d : Sentence, d.Spells (.expr default e) := by
  obtain ⟨value, hv⟩ := hc.exists_lift (k := 1) (by decide)
  refine ⟨.expr value true, hv.proper, by rw [Sentence.tree, hv.tree], fun rest => ?_,
    fun rest hrest => ?_⟩
  · show terminals
      (e.render ++ (if e.render.getLast? = some 0x3b then [] else text ";") ++ rest) = _
    rw [if_neg hv.last, List.append_assoc, hv.scans _ ?_, terminals_semicolon]
    · simp only [Sentence.ended, Sentence.yield, List.append_assoc]
      rfl
    · rfl
  · show terminals (e.render ++ rest) = _
    rw [hv.scans rest hrest, Sentence.ended, Sentence.yield]
    simp only [List.append_assoc]
    rfl

/-! ## Every derivation has a canonical one -/

/-- Names that were read are names: they have letters only and are not reserved. -/
theorem yieldMoreNames_lexical {names : List Text}
    (h : ∀ t ∈ yieldMoreNames names, t.Lexical) : ∀ name ∈ names, name ≠ [] ∧
      name.all isLetter = true ∧ Kind.ofWord name = .ident := by
  induction names with
  | nil => exact fun _ hmem => absurd hmem List.not_mem_nil
  | cons name names ih =>
      simp only [yieldMoreNames, List.forall_mem_cons] at h ⊢
      exact ⟨h.2.1, ih h.2.2⟩

/-- The same for the whole list, of which the first name has no comma before it. -/
theorem yieldNames_lexical {names : List Text} (h : ∀ t ∈ yieldNames names, t.Lexical) :
    ∀ name ∈ names, name ≠ [] ∧ name.all isLetter = true ∧ Kind.ofWord name = .ident := by
  cases names with
  | nil => exact fun _ hmem => absurd hmem List.not_mem_nil
  | cons name names =>
      simp only [yieldNames, List.forall_mem_cons] at h ⊢
      exact ⟨h.1, yieldMoreNames_lexical h.2⟩

/-- What was read of a list holds of the phrases in it. -/
theorem yieldList_lexical {cs : List (Phrase 1)} (h : ∀ t ∈ yieldList cs, t.Lexical) :
    ∀ t ∈ yieldMore cs, t.Lexical := by
  cases cs with
  | nil => exact h
  | cons c cs => exact List.forall_mem_cons.mpr ⟨rfl, h⟩

mutual

/-- A phrase of lexical terminals has one that spells the same tree. -/
theorem Phrase.exists_spells : {k : Nat} → (c : Phrase k) → c.Proper →
    (∀ t ∈ c.yield, t.Lexical) → ∃ c' : Phrase 6, c'.Spells c.tree
  | _, .ident name, _, hlex => by
      obtain ⟨hne, hletters, hword⟩ : name ≠ [] ∧ name.all isLetter = true ∧
        Kind.ofWord name = .ident := hlex _ (List.mem_cons_self ..)
      refine ⟨.lift (.ident name), trivial, rfl, fun rest hrest => ?_,
        getLast?_ne_of_all hletters (by decide)⟩
      show terminals (name ++ rest) = _
      rw [terminals_word hne hletters hrest, hword]
      rfl
  | _, .int digits, hproper, hlex => by
      obtain ⟨hne, hdigits⟩ : digits ≠ [] ∧ digits.all Text.isDigit = true :=
        hlex _ (List.mem_cons_self ..)
      exact ⟨.lift (.int digits), hproper, rfl,
        fun rest hrest => terminals_digits hne hdigits hrest,
        getLast?_ne_of_all hdigits (by decide)⟩
  | _, .str content, _, hlex => by
      have hcontent : content.all isUnquoted = true := hlex _ (List.mem_cons_self ..)
      exact ⟨.lift (.str content), trivial, rfl, fun rest _ => terminals_string hcontent rest,
        getLast?_append_ne (by decide) _⟩
  | _, .bool value, _, _ => by
      cases value with
      | true => exact ⟨.lift (.bool true), trivial, rfl,
          fun rest hrest => terminals_keyword (k := .trueWord) rfl hrest, by decide⟩
      | false => exact ⟨.lift (.bool false), trivial, rfl,
          fun rest hrest => terminals_keyword (k := .falseWord) rfl hrest, by decide⟩
  -- parentheses leave no trace in the tree, and so none in its text
  | _, .group inner, hproper, hlex => by
      simp only [Phrase.yield, List.forall_mem_cons, List.forall_mem_append] at hlex
      exact inner.exists_spells hproper hlex.2.1
  | _, .cond test consequence, hproper, hlex => by
      simp only [Phrase.yield, List.forall_mem_cons, List.forall_mem_append] at hlex
      obtain ⟨c, hc⟩ := test.exists_spells hproper.1 hlex.2.2.1
      obtain ⟨ds, hds⟩ := exists_spellsStatements consequence hproper.2 hlex.2.2.2.2.2.1
      exact spells_cond hc hds
  | _, .condElse test consequence alternative, hproper, hlex => by
      simp only [Phrase.yield, List.forall_mem_cons, List.forall_mem_append] at hlex
      obtain ⟨c, hc⟩ := test.exists_spells hproper.1 hlex.2.2.1
      obtain ⟨ds, hds⟩ := exists_spellsStatements consequence hproper.2.1 hlex.2.2.2.2.2.1
      obtain ⟨ds', hds'⟩ := exists_spellsStatements alternative hproper.2.2
        hlex.2.2.2.2.2.2.2.2.2.1
      exact spells_condElse hc hds hds'
  | _, .fn params body, hproper, hlex => by
      simp only [Phrase.yield, List.forall_mem_cons, List.forall_mem_append] at hlex
      obtain ⟨ds, hds⟩ := exists_spellsStatements body hproper hlex.2.2.2.2.2.1
      exact spells_fn (yieldNames_lexical hlex.2.2.1) hds
  | _, .array elements, hproper, hlex => by
      simp only [Phrase.yield, List.forall_mem_cons, List.forall_mem_append] at hlex
      obtain ⟨ds, hds⟩ := exists_spellsList elements hproper (yieldList_lexical hlex.2.1)
      exact spells_array hds
  | _, .emptyHash, _, _ => spells_emptyHash
  -- the comma after the last pair is not written
  | _, .hash key value more trailing, hproper, hlex => by
      simp only [Phrase.yield, List.forall_mem_cons, List.forall_mem_append] at hlex
      obtain ⟨c, hc⟩ := key.exists_spells hproper.1 hlex.2.1
      obtain ⟨d, hd⟩ := value.exists_spells hproper.2.1 hlex.2.2.2.1
      obtain ⟨ds, hds⟩ := exists_spellsPairs more hproper.2.2 hlex.2.2.2.2.1
      exact spells_hash hc hd hds
  | _, .call callee args, hproper, hlex => by
      simp only [Phrase.yield, List.forall_mem_cons, List.forall_mem_append] at hlex
      obtain ⟨c, hc⟩ := callee.exists_spells hproper.1 hlex.1
      obtain ⟨ds, hds⟩ := exists_spellsList args hproper.2 (yieldList_lexical hlex.2.2.1)
      exact spells_call hc hds
  | _, .index left inner, hproper, hlex => by
      simp only [Phrase.yield, List.forall_mem_cons, List.forall_mem_append] at hlex
      obtain ⟨c, hc⟩ := left.exists_spells hproper.1 hlex.1
      obtain ⟨d, hd⟩ := inner.exists_spells hproper.2 hlex.2.2.1
      exact spells_index hc hd
  | _, .unary sign operand, hproper, hlex => by
      simp only [Phrase.yield, List.forall_mem_cons] at hlex
      obtain ⟨c, hc⟩ := operand.exists_spells hproper hlex.2
      exact spells_unary sign hc
  | _, .binary op _ left right, hproper, hlex => by
      simp only [Phrase.yield, List.forall_mem_cons, List.forall_mem_append] at hlex
      obtain ⟨c, hc⟩ := left.exists_spells hproper.1 hlex.1
      obtain ⟨d, hd⟩ := right.exists_spells hproper.2 hlex.2.2
      exact spells_binary op hc hd
  | _, .lift inner, hproper, hlex => inner.exists_spells hproper hlex

/-- Proper phrases that were read are trees that are spelt by phrases, one by one. -/
theorem exists_spellsList : (cs : List (Phrase 1)) → ProperList cs →
    (∀ t ∈ yieldMore cs, t.Lexical) → ∃ ds, SpellsList ds (listTree cs)
  | [], _, _ => ⟨[], trivial⟩
  | c :: cs, hproper, hlex => by
      simp only [yieldMore, List.forall_mem_cons, List.forall_mem_append] at hlex
      obtain ⟨d, hd⟩ := c.exists_spells hproper.1 hlex.2.1
      obtain ⟨d, hd⟩ := hd.exists_lift (k := 1) (by decide)
      obtain ⟨ds, hds⟩ := exists_spellsList cs hproper.2 hlex.2.2
      exact ⟨d :: ds, hd, hds⟩

/-- The same for pairs. -/
theorem exists_spellsPairs : (ps : List (Phrase 1 × Phrase 1)) → ProperPairs ps →
    (∀ t ∈ yieldMorePairs ps, t.Lexical) → ∃ ds, SpellsPairs ds (pairsTree ps)
  | [], _, _ => ⟨[], trivial⟩
  | (key, value) :: ps, hproper, hlex => by
      simp only [yieldMorePairs, List.forall_mem_cons, List.forall_mem_append] at hlex
      obtain ⟨dk, hk⟩ := key.exists_spells hproper.1 hlex.2.1
      obtain ⟨dk, hk⟩ := hk.exists_lift (k := 1) (by decide)
      obtain ⟨dv, hv⟩ := value.exists_spells hproper.2.1 hlex.2.2.2.1
      obtain ⟨dv, hv⟩ := hv.exists_lift (k := 1) (by decide)
      obtain ⟨ds, hds⟩ := exists_spellsPairs ps hproper.2.2 hlex.2.2.2.2
      exact ⟨(dk, dv) :: ds, hk, hv, hds⟩

/-- A proper sentence that was read has a tree that is spelt by a sentence, one case for each kind
of statement. -/
theorem Sentence.exists_spells : (c : Sentence) → c.Proper → (∀ t ∈ c.yield, t.Lexical) →
    ∃ d : Sentence, d.Spells c.tree
  | .bind name value _, hproper, hlex => by
      simp only [Sentence.yield, List.forall_mem_cons, List.forall_mem_append] at hlex
      obtain ⟨c, hc⟩ := value.exists_spells hproper hlex.2.2.2.1
      exact spells_bind hlex.2.1 hc
  | .ret value _, hproper, hlex => by
      simp only [Sentence.yield, List.forall_mem_cons, List.forall_mem_append] at hlex
      obtain ⟨c, hc⟩ := value.exists_spells hproper hlex.2.1
      exact spells_ret hc
  | .bare _, _, _ => spells_bare
  | .expr value _, hproper, hlex => by
      simp only [Sentence.yield, List.forall_mem_append] at hlex
      obtain ⟨c, hc⟩ := value.exists_spells hproper hlex.1
      exact spells_expr hc

/-- The same for statements. -/
theorem exists_spellsStatements {after : List Terminal} : (cs : List Sentence) →
    ProperStatements after cs → (∀ t ∈ yieldStatements cs, t.Lexical) →
    ∃ ds, SpellsStatements ds (statementsTree cs)
  | [], _, _ => ⟨[], trivial⟩
  | c :: cs, hproper, hlex => by
      simp only [yieldStatements, List.forall_mem_append] at hlex
      obtain ⟨d, hd⟩ := c.exists_spells hproper.1 hlex.1
      obtain ⟨ds, hds⟩ := exists_spellsStatements cs hproper.2.2 hlex.2
      exact ⟨d :: ds, hd, hds⟩

end

end Grammar

/-! ## Programs -/

/-- The canonical text of a program that is read without problems is read without problems
as the same tree, and so has itself as its canonical text. -/
theorem parse_render_roundTrip (source : Text) (h : (parse source).diagnostics = []) :
    (parse (parse source).program.render).diagnostics = [] ∧
      (parse (parse source).program.render).program.shape = (parse source).program.shape ∧
      (parse (parse source).program.render).program.render = (parse source).program.render := by
  obtain ⟨d, htree⟩ := derivation_of_diagnostics h
  obtain ⟨cs, hproper, hyield⟩ := d
  obtain ⟨ds, hds⟩ := exists_spellsStatements cs hproper fun t ht =>
    lexical_of_mem_terminals (hyield ▸ ht)
  have hend : endsBefore (firstKind []) := ⟨show Kind.eof ≠ .semicolon by decide, rfl⟩
  obtain ⟨hproper', htree'⟩ := hds.proper hend
  have hrender : (parse source).program.render
      = joinStatements (renderStatements (statementsTree cs)) := by
    rw [← Program.render_shape, htree]
    rfl
  have hyield' : yieldStatements (endAll ds) = terminals (parse source).program.render := by
    have hscans := hds.scans (show Apart [] from rfl)
    rw [List.append_nil] at hscans
    rw [hrender, hscans, show terminals [] = [] from rfl, List.append_nil]
  let d' : Derivation (terminals (parse source).program.render) := ⟨endAll ds, hproper', hyield'⟩
  have hnone := diagnostics_of_derivation d'
  have hshape : (parse (parse source).program.render).program.shape
      = (parse source).program.shape := by
    -- the canonical text has only the derivation that spells it
    obtain ⟨d'', htree''⟩ := derivation_of_diagnostics hnone
    rw [htree'', d''.unique d', htree, Derivation.tree, Derivation.tree]
    show Program.mk default (statementsTree (endAll ds)) = _
    rw [htree']
  refine ⟨hnone, hshape, ?_⟩
  rw [← Program.render_shape, hshape, Program.render_shape]

/-- The round trip of a source with parentheses, commas and semicolons of its own. -/
theorem parse_render_roundTrip_nested :
    (parse (text "let f = fn(x, y) \x7b ((x) + 1) * -y; return \x7d f(1, \";\") \x7b1: [f][0],\x7d"
      )).diagnostics = [] ∧
    (parse (parse (text
        "let f = fn(x, y) \x7b ((x) + 1) * -y; return \x7d f(1, \";\") \x7b1: [f][0],\x7d"
      )).program.render).program.shape
      = (parse (text
        "let f = fn(x, y) \x7b ((x) + 1) * -y; return \x7d f(1, \";\") \x7b1: [f][0],\x7d"
      )).program.shape := by
  have h : (parse (text
        "let f = fn(x, y) \x7b ((x) + 1) * -y; return \x7d f(1, \";\") \x7b1: [f][0],\x7d"
      )).diagnostics = [] := by decide +kernel
  exact ⟨h, (parse_render_roundTrip _ h).2.1⟩

end Monkey
