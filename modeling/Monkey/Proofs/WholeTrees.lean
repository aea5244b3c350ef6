import Monkey.Proofs.Accepts

/-!
# Trees without gaps

Every rule of the grammar may leave a node absent where a source is wrong, and the rules around it
keep the gap without looking. In a source that is read without problems there is none: each node is
there, but for the value of a bare return and a missing `else`, and its operators, names, strings
and integers are as the language has them.

`Expr.Whole` says so of a tree. The tree of a derivation is whole, one production after another, if
the terminals are lexical (`Grammar.Phrase.whole_tree`), and a tree is whole if its shape is, since
only the literals of origins matter (`Expr.whole_relocate`).
-/

namespace Monkey

/-- A text that can be a name: letters and underscores, at least one, and no reserved word. -/
def Text.IsName (t : Text) : Prop :=
  t ≠ [] ∧ t.all isLetter = true ∧ t ∉ keywords.map Prod.fst

/-- A literal of digits and the number that it denotes, which is not negative and fits in 64 bits
with sign. -/
def Text.IsNumeral (literal : Text) (value : Int64) : Prop :=
  literal ≠ [] ∧ literal.all isDigit = true ∧ value.toInt = decimal literal ∧
    0 ≤ value.toInt ∧ value.toInt ≤ 9223372036854775807

/-- A parameter that is there and has a name. -/
def parameterWhole : Option Binder → Prop
  | none => False
  | some b => b.name.IsName

mutual

/-- An expression of the language, with nothing missing. -/
def Expr.Whole : Expr → Prop
  | .absent | .nameless | .foreign _ => False
  | .ident _ name => name.IsName
  | .int o value => o.literal.IsNumeral value
  | .bool _ _ => True
  | .str _ value => 0x22 ∉ value
  | .unary _ op operand => (op = .not ∨ op = .neg) ∧ operand.Whole
  | .binary _ op left right => op ∈ BinaryOp.all ∧ left.Whole ∧ right.Whole
  | .cond _ test consequence alternative =>
    test.Whole ∧ consequence.Whole ∧ (alternative.isAbsent = true ∨ alternative.Whole)
  | .fn _ params body => (∀ p ∈ params, parameterWhole p) ∧ body.Whole
  | .call _ callee args => callee.Whole ∧ exprsWhole args
  | .array _ elements => exprsWhole elements
  | .index _ left index => left.Whole ∧ index.Whole
  | .hash _ pairs => pairsWhole pairs

/-- The same for expressions. -/
def exprsWhole : List Expr → Prop
  | [] => True
  | e :: rest => e.Whole ∧ exprsWhole rest

/-- The same for keys with their values. -/
def pairsWhole : List (Expr × Expr) → Prop
  | [] => True
  | (key, value) :: rest => key.Whole ∧ value.Whole ∧ pairsWhole rest

/-- A statement of the language, with nothing missing but the value of a bare return. -/
def Stmt.Whole : Stmt → Prop
  | .absent | .bind _ none _ | .block _ => False
  | .bind _ (some binder) value => binder.name.IsName ∧ value.Whole
  | .ret _ value => value.isAbsent = true ∨ value.Whole
  | .expr _ expr => expr.Whole

/-- The same for statements. -/
def statementsWhole : List Stmt → Prop
  | [] => True
  | s :: rest => s.Whole ∧ statementsWhole rest

/-- The same for a block. -/
def Block.Whole : Block → Prop
  | .absent => False
  | .of _ statements => statementsWhole statements

end

/-- A program of the language, with nothing missing. -/
def Program.Whole (p : Program) : Prop :=
  statementsWhole p.statements

/-! ## Only literals matter -/

section Relocation

variable {node statement : Origin → Origin}

theorem parameterWhole_relocate (p : Option Binder) :
    parameterWhole (p.map (Binder.relocate node)) ↔ parameterWhole p := by
  cases p <;> exact Iff.rfl

mutual

/-- Whether an expression is whole depends on its origins only by their literals. -/
theorem Expr.whole_relocate (h : ∀ o, (node o).literal = o.literal) :
    (e : Expr) → ((e.relocate node statement).Whole ↔ e.Whole)
  | .absent | .nameless | .foreign _ | .ident _ _ | .bool _ _ | .str _ _ => Iff.rfl
  | .int o _ => by simp only [Expr.relocate, Expr.Whole, h o]
  | .unary _ _ operand => by simp only [Expr.relocate, Expr.Whole, operand.whole_relocate h]
  | .binary _ _ left right => by
      simp only [Expr.relocate, Expr.Whole, left.whole_relocate h, right.whole_relocate h]
  | .cond _ test consequence alternative => by
      simp only [Expr.relocate, Expr.Whole, test.whole_relocate h, consequence.whole_relocate h,
        alternative.whole_relocate h, Block.isAbsent_relocate]
  | .fn _ params body => by
      simp only [Expr.relocate, Expr.Whole, body.whole_relocate h, List.forall_mem_map,
        parameterWhole_relocate]
  | .call _ callee args => by
      simp only [Expr.relocate, Expr.Whole, callee.whole_relocate h, exprsWhole_relocate h args]
  | .array _ elements => by
      simp only [Expr.relocate, Expr.Whole, exprsWhole_relocate h elements]
  | .index _ left index => by
      simp only [Expr.relocate, Expr.Whole, left.whole_relocate h, index.whole_relocate h]
  | .hash _ pairs => by simp only [Expr.relocate, Expr.Whole, pairsWhole_relocate h pairs]

/-- Whether expressions are whole does not depend on where they came from. -/
theorem exprsWhole_relocate (h : ∀ o, (node o).literal = o.literal) :
    (es : List Expr) → (exprsWhole (relocateExprs node statement es) ↔ exprsWhole es)
  | [] => Iff.rfl
  | e :: rest => by
      simp only [relocateExprs, exprsWhole, e.whole_relocate h, exprsWhole_relocate h rest]

theorem pairsWhole_relocate (h : ∀ o, (node o).literal = o.literal) :
    (ps : List (Expr × Expr)) → (pairsWhole (relocatePairs node statement ps) ↔ pairsWhole ps)
  | [] => Iff.rfl
  | (key, value) :: rest => by
      simp only [relocatePairs, pairsWhole, key.whole_relocate h, value.whole_relocate h,
        pairsWhole_relocate h rest]

/-- Whether a statement is whole does not depend on where it came from. -/
theorem Stmt.whole_relocate (h : ∀ o, (node o).literal = o.literal) :
    (s : Stmt) → ((s.relocate node statement).Whole ↔ s.Whole)
  | .absent | .bind _ none _ | .block _ => Iff.rfl
  | .bind _ (some _) value => by
      simp only [Stmt.relocate, Option.map_some, Stmt.Whole, value.whole_relocate h,
        Binder.relocate]
  | .ret _ value => by
      simp only [Stmt.relocate, Stmt.Whole, value.whole_relocate h, Expr.isAbsent_relocate]
  | .expr _ expr => by simp only [Stmt.relocate, Stmt.Whole, expr.whole_relocate h]

theorem statementsWhole_relocate (h : ∀ o, (node o).literal = o.literal) :
    (ss : List Stmt) →
      (statementsWhole (relocateStatements node statement ss) ↔ statementsWhole ss)
  | [] => Iff.rfl
  | s :: rest => by
      simp only [relocateStatements, statementsWhole, s.whole_relocate h,
        statementsWhole_relocate h rest]

/-- Whether a block is whole does not depend on where it came from. -/
theorem Block.whole_relocate (h : ∀ o, (node o).literal = o.literal) :
    (b : Block) → ((b.relocate node statement).Whole ↔ b.Whole)
  | .absent => Iff.rfl
  | .of _ statements => by
      simp only [Block.relocate, Block.Whole, statementsWhole_relocate h statements]

end

end Relocation

/-! ## The tree of a derivation -/

/-- A word that is read as a name is not reserved. -/
theorem isName_of_lexical {name : Text} (h : (Terminal.mk .ident name).Lexical) : name.IsName := by
  obtain ⟨hne, hletters, hword⟩ := h
  refine ⟨hne, hletters, fun hreserved => ?_⟩
  have hkeywords : ∀ word ∈ keywords.map Prod.fst, Kind.ofWord word ≠ .ident := by decide
  exact hkeywords name hreserved hword

/-- A lexical integer that is small enough is a numeral of its value. -/
theorem isNumeral_of_lexical {digits : Text} (h : (Terminal.mk .int digits).Lexical)
    (hfits : Text.decimal digits ≤ 9223372036854775807) :
    digits.IsNumeral (Int64.ofNat (Text.decimal digits)) := by
  have hvalue : (Int64.ofNat (Text.decimal digits)).toInt = Text.decimal digits :=
    Int64.toInt_ofNat_of_lt (by omega)
  refine ⟨h.1, h.2, hvalue, ?_, ?_⟩
  · rw [hvalue]
    exact Int.natCast_nonneg _
  · rw [hvalue]
    omega

/-- A lexical string has no quote in it. -/
theorem unquoted_of_lexical {content : Text} (h : (Terminal.mk .str content).Lexical) :
    0x22 ∉ content :=
  fun hmem => absurd (List.all_eq_true.mp h _ hmem) (by decide)

namespace Grammar

/-- All of some terminals are lexical. -/
def AllLexical (ts : List Terminal) : Prop :=
  ∀ t ∈ ts, t.Lexical

@[simp] theorem allLexical_append {ts ts' : List Terminal} :
    AllLexical (ts ++ ts') ↔ AllLexical ts ∧ AllLexical ts' :=
  List.forall_mem_append

@[simp] theorem allLexical_cons {t : Terminal} {ts : List Terminal} :
    AllLexical (t :: ts) ↔ t.Lexical ∧ AllLexical ts :=
  List.forall_mem_cons

/-- Names after commas are names, if their terminals are lexical. -/
theorem isName_moreNames {names : List Text} (h : AllLexical (yieldMoreNames names)) :
    ∀ name ∈ names, name.IsName := by
  induction names with
  | nil => exact fun _ hmem => absurd hmem List.not_mem_nil
  | cons name rest ih =>
      simp only [yieldMoreNames, allLexical_cons] at h
      exact List.forall_mem_cons.mpr ⟨isName_of_lexical h.2.1, ih h.2.2⟩

/-- Parameter names are names, if their terminals are lexical. -/
theorem isName_names {names : List Text} (h : AllLexical (yieldNames names)) :
    ∀ name ∈ names, name.IsName := by
  cases names with
  | nil => exact fun _ hmem => absurd hmem List.not_mem_nil
  | cons name rest =>
      simp only [yieldNames, allLexical_cons] at h
      exact List.forall_mem_cons.mpr ⟨isName_of_lexical h.1, isName_moreNames h.2⟩

mutual

/-- The tree of a phrase is whole: each production has all the phrases that its node needs. -/
theorem Phrase.whole_tree : {k : Nat} → (p : Phrase k) → p.Proper → AllLexical p.yield →
    p.tree.Whole
  | _, .ident name, _, h => isName_of_lexical (allLexical_cons.mp h).1
  | _, .int digits, hproper, h => isNumeral_of_lexical (allLexical_cons.mp h).1 hproper
  | _, .str content, _, h => unquoted_of_lexical (allLexical_cons.mp h).1
  | _, .bool _, _, _ => trivial
  | _, .group inner, hproper, h => by
      simp only [Phrase.yield, allLexical_cons, allLexical_append] at h
      exact inner.whole_tree hproper h.2.1
  | _, .cond test consequence, hproper, h => by
      simp only [Phrase.yield, allLexical_cons, allLexical_append] at h
      obtain ⟨-, -, htest, -, -, hconsequence, -⟩ := h
      exact ⟨test.whole_tree hproper.1 htest, whole_statements consequence hproper.2 hconsequence,
        .inl rfl⟩
  | _, .condElse test consequence alternative, hproper, h => by
      simp only [Phrase.yield, allLexical_cons, allLexical_append] at h
      obtain ⟨-, -, htest, -, -, hconsequence, -, -, -, halternative, -⟩ := h
      exact ⟨test.whole_tree hproper.1 htest, whole_statements consequence hproper.2.1 hconsequence,
        .inr (whole_statements alternative hproper.2.2 halternative)⟩
  | _, .fn params body, hproper, h => by
      simp only [Phrase.yield, allLexical_cons, allLexical_append] at h
      obtain ⟨-, -, hparams, -, -, hbody, -⟩ := h
      exact ⟨List.forall_mem_map.mpr (isName_names hparams), whole_statements body hproper hbody⟩
  | _, .array elements, hproper, h => by
      simp only [Phrase.yield, allLexical_cons, allLexical_append] at h
      exact whole_list elements hproper h.2.1
  | _, .emptyHash, _, _ => trivial
  | _, .hash key value more trailing, hproper, h => by
      simp only [Phrase.yield, allLexical_cons, allLexical_append] at h
      obtain ⟨-, hkey, -, hvalue, hmore, -⟩ := h
      exact ⟨key.whole_tree hproper.1 hkey, value.whole_tree hproper.2.1 hvalue,
        whole_pairs more hproper.2.2 hmore⟩
  | _, .call callee args, hproper, h => by
      simp only [Phrase.yield, allLexical_cons, allLexical_append] at h
      obtain ⟨hcallee, -, hargs, -⟩ := h
      exact ⟨callee.whole_tree hproper.1 hcallee, whole_list args hproper.2 hargs⟩
  | _, .index left index, hproper, h => by
      simp only [Phrase.yield, allLexical_cons, allLexical_append] at h
      obtain ⟨hleft, -, hindex, -⟩ := h
      exact ⟨left.whole_tree hproper.1 hleft, index.whole_tree hproper.2 hindex⟩
  | _, .unary sign operand, hproper, h => by
      simp only [Phrase.yield, allLexical_cons] at h
      exact ⟨by cases sign <;> decide, operand.whole_tree hproper h.2⟩
  | _, .binary op _ left right, hproper, h => by
      simp only [Phrase.yield, allLexical_cons, allLexical_append] at h
      obtain ⟨hleft, -, hright⟩ := h
      exact ⟨by cases op <;> decide, left.whole_tree hproper.1 hleft,
        right.whole_tree hproper.2 hright⟩
  | _, .lift inner, hproper, h => inner.whole_tree hproper h

/-- A list of proper phrases with lexical terminals has a whole tree. -/
theorem whole_list : (ps : List (Phrase 1)) → ProperList ps → AllLexical (yieldList ps) →
    exprsWhole (listTree ps)
  | [], _, _ => trivial
  | first :: rest, hproper, h => by
      simp only [yieldList, allLexical_append] at h
      exact ⟨first.whole_tree hproper.1 h.1, whole_more rest hproper.2 h.2⟩

/-- So do phrases after commas. -/
theorem whole_more : (ps : List (Phrase 1)) → ProperList ps → AllLexical (yieldMore ps) →
    exprsWhole (listTree ps)
  | [], _, _ => trivial
  | first :: rest, hproper, h => by
      simp only [yieldMore, allLexical_cons, allLexical_append] at h
      exact ⟨first.whole_tree hproper.1 h.2.1, whole_more rest hproper.2 h.2.2⟩

/-- So do pairs after commas. -/
theorem whole_pairs : (ps : List (Phrase 1 × Phrase 1)) → ProperPairs ps →
    AllLexical (yieldMorePairs ps) → pairsWhole (pairsTree ps)
  | [], _, _ => trivial
  | (key, value) :: rest, hproper, h => by
      simp only [yieldMorePairs, allLexical_cons, allLexical_append] at h
      obtain ⟨-, hkey, -, hvalue, hrest⟩ := h
      exact ⟨key.whole_tree hproper.1 hkey, value.whole_tree hproper.2.1 hvalue,
        whole_pairs rest hproper.2.2 hrest⟩

/-- The same for a sentence. Only a bare return has no value. -/
theorem Sentence.whole_tree : (s : Sentence) → s.Proper → AllLexical s.yield → s.tree.Whole
  | .bind name value _, hproper, h => by
      simp only [Sentence.yield, allLexical_cons, allLexical_append] at h
      obtain ⟨-, hname, -, hvalue, -⟩ := h
      exact ⟨isName_of_lexical hname, value.whole_tree hproper hvalue⟩
  | .ret value _, hproper, h => by
      simp only [Sentence.yield, allLexical_cons, allLexical_append] at h
      exact .inr (value.whole_tree hproper h.2.1)
  | .bare _, _, _ => .inl rfl
  | .expr value _, hproper, h => by
      simp only [Sentence.yield, allLexical_append] at h
      exact value.whole_tree hproper h.1

/-- So do sentences one after the other. -/
theorem whole_statements {after : List Terminal} : (ss : List Sentence) →
    ProperStatements after ss → AllLexical (yieldStatements ss) →
      statementsWhole (statementsTree ss)
  | [], _, _ => trivial
  | first :: rest, hproper, h => by
      simp only [yieldStatements, allLexical_append] at h
      exact ⟨first.whole_tree hproper.1 h.1, whole_statements rest hproper.2.2 h.2⟩

end

end Grammar

/-! ## Sources -/

/-- **What is read without diagnostics is whole.** Of the tree of such a source nothing is missing
but the values of bare returns and `else` blocks that are not there; its operators are those of the
language, its names are runs of letters and underscores and not reserved, its strings have no
quotes, and its integers are the numbers that their digits denote, from zero to the greatest of 64
bits with sign. -/
theorem accepted_tree_is_whole (source : Text) (h : (parse source).diagnostics = []) :
    (parse source).program.Whole := by
  obtain ⟨d, hshape⟩ := derivation_of_diagnostics h
  have hlexical : Grammar.AllLexical (Grammar.yieldStatements d.statements) := by
    rw [d.yields]
    exact fun t ht => lexical_of_mem_terminals ht
  have hwhole := Grammar.whole_statements d.statements d.proper hlexical
  have hstatements : shapeStatements (parse source).program.statements =
      Grammar.statementsTree d.statements := congrArg Program.statements hshape
  rw [← hstatements] at hwhole
  exact (statementsWhole_relocate Origin.unplaced_literal _).mp hwhole

/-- A source with a bare return, a missing `else` and the greatest integer. -/
theorem accepted_tree_is_whole_return :
    (parse (text "fn(_x) \x7b if (!_x) \x7b return \x7d \"\" + 9223372036854775807 \x7d")
      ).diagnostics = [] ∧
    (parse (text "fn(_x) \x7b if (!_x) \x7b return \x7d \"\" + 9223372036854775807 \x7d")
      ).program.Whole := by
  have h :
      (parse (text "fn(_x) \x7b if (!_x) \x7b return \x7d \"\" + 9223372036854775807 \x7d")
        ).diagnostics = [] := by
    decide +kernel
  refine ⟨h, ?_⟩
  apply accepted_tree_is_whole
  exact h

end Monkey
