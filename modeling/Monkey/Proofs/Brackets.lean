import Monkey.Proofs.Accepts
import Monkey.Proofs.Braces

/-!
# Brackets nest

In a source that is read without problems every bracket has its partner. Such a source is derivable
in the grammar, and each production that derives an opening bracket also derives the closing one
that belongs to it, with phrases and statements between the two. So the brackets of whatever is
derived are nested, by induction on the derivation (`Grammar.Phrase.nested`). In nested brackets
there are as many closing braces as opening ones, so that lines which make up a program are never
held back as incomplete.
-/

namespace Monkey

/-! ## Nested brackets -/

/-- The kind of bracket that closes what a kind opens. -/
def Kind.closer? : Kind → Option Kind
  | .lparen => some .rparen
  | .lbracket => some .rbracket
  | .lbrace => some .rbrace
  | _ => none

/-- Whether a kind is a bracket. -/
def Kind.isBracket : Kind → Bool
  | .lparen | .rparen | .lbracket | .rbracket | .lbrace | .rbrace => true
  | _ => false

/-- Kinds of brackets that are nested and matched: none at all, or an opening one, nested ones, the
one that closes it, and more nested ones. -/
inductive Nested : List Kind → Prop where
  | nil : Nested []
  | pair {left right : Kind} {inner rest : List Kind} (hpair : left.closer? = some right)
      (hinner : Nested inner) (hrest : Nested rest) : Nested (left :: (inner ++ right :: rest))

/-- Two well nested sequences one after the other are well nested. -/
theorem Nested.append {ks ks' : List Kind} (h : Nested ks) (h' : Nested ks') :
    Nested (ks ++ ks') := by
  induction h with
  | nil => exact h'
  | pair hpair hinner hrest ihinner ihrest =>
      rw [List.cons_append, List.append_assoc, List.cons_append]
      exact .pair hpair hinner ihrest

/-- Nested brackets have as many closing ones of each sort as opening ones. -/
theorem Nested.count_pair {ks : List Kind} {left right : Kind} (hpair : left.closer? = some right)
    (h : Nested ks) : ks.count left = ks.count right := by
  induction h with
  | nil => rfl
  | @pair left' right' inner rest hpair' hinner hrest ihinner ihrest =>
      simp only [List.count_cons, List.count_append, ihinner, ihrest]
      cases left <;> cases hpair <;> cases left' <;> cases hpair' <;> rfl

/-! ## What is derived is nested -/

/-- The kinds of the brackets among some terminals. -/
def brackets (ts : List Terminal) : List Kind :=
  (ts.map Terminal.kind).filter Kind.isBracket

theorem brackets_append (ts ts' : List Terminal) :
    brackets (ts ++ ts') = brackets ts ++ brackets ts' := by
  rw [brackets, List.map_append, List.filter_append]
  rfl

namespace Grammar

theorem nested_nil : Nested (brackets []) :=
  .nil

theorem nested_append {ts ts' : List Terminal} (h : Nested (brackets ts))
    (h' : Nested (brackets ts')) : Nested (brackets (ts ++ ts')) := by
  rw [brackets_append]
  exact h.append h'

/-- A terminal that is no bracket makes no difference. -/
theorem nested_cons {t : Terminal} (ht : t.kind.isBracket = false) {ts : List Terminal}
    (h : Nested (brackets ts)) : Nested (brackets (t :: ts)) := by
  rw [brackets, List.map_cons, List.filter_cons_of_neg (by rw [ht]; decide)]
  exact h

/-- Brackets around nested terminals, with nested ones after them. -/
theorem nested_around {left right : Kind} (hpair : left.closer? = some right)
    {inner rest : List Terminal} (hinner : Nested (brackets inner))
    (hrest : Nested (brackets rest)) :
    Nested (brackets (left.terminal :: (inner ++ right.terminal :: rest))) := by
  have hleft : left.isBracket = true := by cases left <;> cases hpair <;> rfl
  have hright : right.isBracket = true := by cases left <;> cases hpair <;> rfl
  have hcons {k : Kind} (hk : k.isBracket = true) (ts : List Terminal) :
      brackets (k.terminal :: ts) = k :: brackets ts := List.filter_cons_of_pos hk
  rw [hcons hleft, brackets_append, hcons hright]
  exact .pair hpair hinner hrest

theorem nested_optional (k : Kind) (hk : k.isBracket = false) (present : Bool) :
    Nested (brackets (optional k present)) := by
  cases present with
  | false => exact .nil
  | true => exact nested_cons hk .nil

theorem nested_moreNames (names : List Text) : Nested (brackets (yieldMoreNames names)) := by
  induction names with
  | nil => exact .nil
  | cons name rest ih => exact nested_cons rfl (nested_cons rfl ih)

theorem nested_names (names : List Text) : Nested (brackets (yieldNames names)) := by
  cases names with
  | nil => exact .nil
  | cons name rest => exact nested_cons rfl (nested_moreNames rest)

mutual

/-- The brackets of a phrase are nested: each production closes what it opens. -/
theorem Phrase.nested : {k : Nat} → (p : Phrase k) → Nested (brackets p.yield)
  | _, .ident _ | _, .int _ | _, .str _ => nested_cons rfl .nil
  | _, .bool value => by cases value <;> exact nested_cons rfl .nil
  | _, .group inner => nested_around rfl inner.nested .nil
  | _, .cond test consequence =>
      nested_cons rfl (nested_around rfl test.nested
        (nested_around rfl (nested_statements consequence) .nil))
  | _, .condElse test consequence alternative =>
      nested_cons rfl (nested_around rfl test.nested
        (nested_around rfl (nested_statements consequence)
          (nested_cons rfl (nested_around rfl (nested_statements alternative) .nil))))
  | _, .fn params body =>
      nested_cons rfl (nested_around rfl (nested_names params)
        (nested_around rfl (nested_statements body) .nil))
  | _, .array elements => nested_around rfl (nested_list elements) .nil
  | _, .emptyHash => nested_around rfl nested_nil nested_nil
  -- the pairs are between the braces, grouped in another way than they are written down
  | _, .hash key value more trailing => by
      have hpairs : Nested (brackets (key.yield ++ Kind.colon.terminal :: (value.yield
          ++ (yieldMorePairs more ++ optional .comma trailing)))) :=
        nested_append key.nested (nested_cons rfl (nested_append value.nested
          (nested_append (nested_pairs more) (nested_optional .comma rfl trailing))))
      have haround : Nested (brackets (Kind.lbrace.terminal :: (_ ++ [Kind.rbrace.terminal]))) :=
        nested_around rfl hpairs nested_nil
      simp only [List.append_assoc, List.cons_append] at haround
      exact haround
  | _, .call callee args =>
      nested_append callee.nested (nested_around rfl (nested_list args) .nil)
  | _, .index left index => nested_append left.nested (nested_around rfl index.nested .nil)
  | _, .unary sign operand => nested_cons (by cases sign <;> rfl) operand.nested
  | _, .binary op _ left right =>
      nested_append left.nested (nested_cons (by cases op <;> rfl) right.nested)
  | _, .lift inner => inner.nested

/-- The brackets of phrases with commas between them nest. -/
theorem nested_list : (ps : List (Phrase 1)) → Nested (brackets (yieldList ps))
  | [] => .nil
  | first :: rest => nested_append first.nested (nested_more rest)

theorem nested_more : (ps : List (Phrase 1)) → Nested (brackets (yieldMore ps))
  | [] => .nil
  | first :: rest => nested_cons rfl (nested_append first.nested (nested_more rest))

theorem nested_pairs : (ps : List (Phrase 1 × Phrase 1)) → Nested (brackets (yieldMorePairs ps))
  | [] => .nil
  | (key, value) :: rest =>
      nested_cons rfl (nested_append key.nested (nested_cons rfl
        (nested_append value.nested (nested_pairs rest))))

/-- The same for a sentence, which has no brackets of its own. -/
theorem Sentence.nested : (s : Sentence) → Nested (brackets s.yield)
  | .bind _ value closed =>
      nested_cons rfl (nested_cons rfl (nested_cons rfl
        (nested_append value.nested (nested_optional .semicolon rfl closed))))
  | .ret value closed =>
      nested_cons rfl (nested_append value.nested (nested_optional .semicolon rfl closed))
  | .bare closed => nested_cons rfl (nested_optional .semicolon rfl closed)
  | .expr value closed => nested_append value.nested (nested_optional .semicolon rfl closed)

/-- The brackets of sentences nest. -/
theorem nested_statements : (ss : List Sentence) → Nested (brackets (yieldStatements ss))
  | [] => .nil
  | first :: rest => nested_append first.nested (nested_statements rest)

end

end Grammar

/-! ## Sources -/

/-- The kinds of the brackets of a source. -/
def bracketKinds (source : Text) : List Kind :=
  ((tokenize source).map Token.kind).filter Kind.isBracket

/-- The end token is no bracket, so the brackets are those of the terminals. -/
theorem bracketKinds_eq (source : Text) : bracketKinds source = brackets (terminals source) := by
  obtain ⟨inner, htokens, -⟩ := (tiling_tokenize source).ends
  rw [bracketKinds, terminals, htokens, List.dropLast_concat, List.map_append, List.filter_append,
    brackets, List.map_map]
  exact List.append_nil _

/-- A source without diagnostics has brackets that nest. -/
theorem nested_of_diagnostics {source : Text} (h : (parse source).diagnostics = []) :
    Nested (bracketKinds source) := by
  obtain ⟨d, -⟩ := derivation_of_diagnostics h
  rw [bracketKinds_eq, ← d.yields]
  exact Grammar.nested_statements d.statements

/-- The tokens of a kind of bracket are counted among the brackets. -/
theorem countKind_eq_count {k : Kind} (hk : k.isBracket = true) (source : Text) :
    countKind k (tokenize source) = (bracketKinds source).count k := by
  rw [bracketKinds, List.count_filter hk, List.count, List.countP_map]
  exact List.countP_congr fun t _ => by simp

/-- Where brackets nest there are as many opening as closing braces. -/
theorem braceBalance_of_nested {source : Text} (h : Nested (bracketKinds source)) :
    braceBalance source = 0 := by
  have hbalance : braceBalance source = _ := balance_tiling (tiling_tokenize source)
  have hopen := countKind_eq_count (k := .lbrace) rfl source
  have hclose := countKind_eq_count (k := .rbrace) rfl source
  rw [hbalance]
  show (countKind .lbrace (tokenize source) : Int) - countKind .rbrace (tokenize source) = 0
  rw [hopen, hclose, h.count_pair rfl, Int.sub_self]

/-- Lines with no more opening braces than closing ones are handed over at once, and nothing stays
pending, unless they are a request to leave. -/
theorem feed_of_balance {pending line : Text}
    (hexit : ¬ (pending.isEmpty ∧ line.trim = text "exit"))
    (h : braceBalance (pending ++ line ++ text "\n") ≤ 0) :
    feed pending (.line line) = (some (.evaluate (pending ++ line ++ text "\n")), []) := by
  rw [feed, if_neg hexit]
  exact if_neg (Int.not_lt.mpr h)

/-- **A whole program is never withheld.** In a source that is read without diagnostics the brackets
are nested and matched, so that its braces balance, and as soon as lines make up such a source they
are evaluated. Conversely, a source whose braces do not balance has a diagnostic. -/
theorem whole_program_never_withheld (source : Text) :
    ((parse source).diagnostics = [] →
      Nested (bracketKinds source) ∧ braceBalance source = 0 ∧
      ∀ pending line : Text, pending ++ line ++ text "\n" = source →
        ¬ (pending.isEmpty ∧ line.trim = text "exit") →
        feed pending (.line line) = (some (.evaluate source), [])) ∧
    (braceBalance source ≠ 0 → (parse source).diagnostics ≠ []) := by
  have hbalance (h : (parse source).diagnostics = []) : braceBalance source = 0 :=
    braceBalance_of_nested (nested_of_diagnostics h)
  refine ⟨fun h => ⟨nested_of_diagnostics h, hbalance h, ?_⟩, fun hne h => hne (hbalance h)⟩
  rintro pending line rfl hexit
  exact feed_of_balance hexit (Int.le_of_eq (hbalance h))

/-- A function with a hash in its body, typed on two lines, the first of which is not enough. -/
theorem whole_program_never_withheld_lines :
    feed [] (.line (text "fn(x) \x7b [\"\x7b\"]")) = (none, text "fn(x) \x7b [\"\x7b\"]\n") ∧
    (parse (text "fn(x) \x7b [\"\x7b\"]\n\x7b1: (x)\x7d \x7d\n")).diagnostics = [] ∧
    Nested (bracketKinds (text "fn(x) \x7b [\"\x7b\"]\n\x7b1: (x)\x7d \x7d\n")) ∧
    feed (text "fn(x) \x7b [\"\x7b\"]\n") (.line (text "\x7b1: (x)\x7d \x7d"))
      = (some (.evaluate (text "fn(x) \x7b [\"\x7b\"]\n\x7b1: (x)\x7d \x7d\n")), []) := by
  have h : (parse (text "fn(x) \x7b [\"\x7b\"]\n\x7b1: (x)\x7d \x7d\n")).diagnostics = [] := by
    decide +kernel
  obtain ⟨hnested, -, hfeed⟩ := (whole_program_never_withheld _).1 h
  exact ⟨by decide +kernel, h, hnested, hfeed _ _ (by decide +kernel) (by decide +kernel)⟩

end Monkey
