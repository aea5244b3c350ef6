import Monkey.Proofs.ReadingDerives
import Monkey.Proofs.DerivationReads
import Monkey.Proofs.Scanning

/-!
# A source is accepted just when it is derivable

The two halves meet here. What is read without problems is derivable
(`derives_expression`), what is derivable is read without problems (`reads_expression`),
and there is only one derivation (`Derivation.unique`), so the tree that is read is the
tree of that derivation.
-/

namespace Monkey

open Parse Grammar

/-! ## The reader of a source -/

theorem Reader.ofTokens_concat (inner : List Token) (eof : Token) :
    Reader.ofTokens (inner ++ [eof]) = ⟨inner, eof, []⟩ := by
  induction inner with
  | nil => rfl
  | cons t inner ih =>
      have hstep : Reader.ofTokens (t :: (inner ++ [eof]))
          = { Reader.ofTokens (inner ++ [eof]) with
              tokens := t :: (Reader.ofTokens (inner ++ [eof])).tokens } := by
        cases inner <;> rfl
      rw [List.cons_append, hstep, ih]

/-- A lexical terminal spells its kind, if that has only one literal. -/
theorem Terminal.Lexical.literal_eq {t : Terminal} (h : t.Lexical) (hs : t.kind.spelling ≠ []) :
    t.literal = t.kind.spelling := by
  obtain ⟨k, l⟩ := t
  cases k <;> first | exact h | exact absurd rfl hs

/-- The reader of a source is sane and sees its terminals. -/
theorem sane_ofTokens (source : Text) : (Reader.ofTokens (tokenize source)).Sane ∧
    (Reader.ofTokens (tokenize source)).view = terminals source ∧
    (Reader.ofTokens (tokenize source)).problems = [] := by
  obtain ⟨inner, eof, htokens, heof, hinner⟩ :=
    Cursor.tokensUpTo_eq source.length (.ofSource source) (Nat.le_refl _)
  have htokenize : tokenize source = inner ++ [eof] := htokens
  refine ⟨?_, ?_, ?_⟩
  · rw [htokenize, Reader.ofTokens_concat]
    exact ⟨heof, fun t ht => (hinner t ht).kind_ne_eof, fun t ht => (hinner t ht).literal_eq⟩
  · rw [terminals, htokenize, Reader.ofTokens_concat, List.dropLast_concat]
    rfl
  · rw [htokenize, Reader.ofTokens_concat]

/-! ## Programs -/

theorem clean_program {r r' : Reader} {p : Program} :
    Clean program r p r' ↔ ∃ ss,
      Clean (statementsUntil (expression (r.tokens.length + 1)) none r.tokens.length) r ss r' ∧
      p = ⟨⟨r.current.literal, ⟨r.current.span.start, r'.current.span.stop⟩⟩, ss⟩ := by
  have hmoves := moves_statementsUntil (moves_expression (r.tokens.length + 1)) none
  unfold program programOver
  simp only [monadLift_self]
  rw [clean_rounds_bind, clean_current_bind, clean_rounds_bind,
    clean_bind (hmoves r.tokens.length) fun _ => .bind .current fun _ => .pure _]
  refine exists_congr fun ss => ?_
  constructor
  · rintro ⟨r₁, hss, hlast⟩
    rw [clean_current_bind, clean_pure] at hlast
    obtain ⟨rfl, rfl⟩ := hlast
    exact ⟨hss, rfl⟩
  · rintro ⟨hss, rfl⟩
    exact ⟨r', hss, by rw [clean_current_bind, clean_pure]; exact ⟨rfl, rfl⟩⟩

/-- A source without diagnostics is one whose reading notes nothing. -/
theorem diagnostics_eq_nil_iff (source : Text) :
    (parse source).diagnostics = [] ↔
      ∃ r', Clean program (.ofTokens (tokenize source)) (parse source).program r' := by
  have hstart := (sane_ofTokens source).2.2
  have hproblems : (parse source).problems
      = (program.run (.ofTokens (tokenize source))).2.problems := rfl
  rw [Parsed.diagnostics, List.map_eq_nil_iff, hproblems]
  constructor
  · intro hnone
    exact ⟨_, rfl, hnone.trans hstart.symm⟩
  · rintro ⟨r', hrun, hclean⟩
    rw [hrun]
    exact hclean.trans hstart

/-- What is read without problems is the tree of a derivation. -/
theorem derivation_of_diagnostics {source : Text} (h : (parse source).diagnostics = []) :
    ∃ d : Derivation (terminals source), (parse source).program.shape = d.tree := by
  obtain ⟨hs, hview, -⟩ := sane_ofTokens source
  obtain ⟨r', hclean⟩ := (diagnostics_eq_nil_iff source).mp h
  obtain ⟨ss, hss, hprogram⟩ := clean_program.mp hclean
  obtain ⟨hend, cs, hproper, htree, hyield⟩ :=
    derives_statementsUntil (moves_expression _) (derives_expression _) hs (Nat.le_refl _) hss
  have hs' := hs.onward (hss.onward (moves_statementsUntil (moves_expression _) _ _))
  rw [hs'.view_eq_nil (hend.resolve_right nofun)] at hproper hyield
  refine ⟨⟨cs, hproper, ?_⟩, ?_⟩
  · rw [← hview, hyield, List.append_nil]
  · rw [hprogram, Program.shape, Derivation.tree, htree]

/-- What is derivable is read without problems. -/
theorem diagnostics_of_derivation {source : Text} (d : Derivation (terminals source)) :
    (parse source).diagnostics = [] := by
  obtain ⟨hs, hview, -⟩ := sane_ofTokens source
  obtain ⟨cs, hproper, hyield⟩ := d
  rw [← hview, ← List.append_nil (yieldStatements cs)] at hyield
  obtain ⟨ss, r', hss, -⟩ := reads_statementsUntil (moves_expression _) (reads_expression _)
    (.inl rfl) hproper hs (Nat.le_succ _) (Nat.le_refl _) hyield.symm (.inl rfl)
  have hclean := clean_program.mpr ⟨ss, hss, rfl⟩
  rw [diagnostics_eq_nil_iff]
  refine ⟨r', hclean.1.trans ?_, hclean.2⟩
  have hprogram : (parse source).program = (program.run (.ofTokens (tokenize source))).1 := rfl
  rw [hprogram, hclean.1]

/-- A source is read without diagnostics just when its terminals are derivable in the
grammar; then the derivation is the only one, and the tree that is read is its tree, up
to spans and the tokens that programs and expression statements start with. -/
theorem parse_accepts_exactly_grammar (source : Text) :
    ((parse source).diagnostics = [] ↔ Nonempty (Derivation (terminals source))) ∧
      ∀ d : Derivation (terminals source), (∀ d' : Derivation (terminals source), d' = d) ∧
        (parse source).program.shape = d.tree := by
  refine ⟨⟨fun h => ?_, fun ⟨d⟩ => diagnostics_of_derivation d⟩,
    fun d => ⟨fun d' => d'.unique d, ?_⟩⟩
  · obtain ⟨d, -⟩ := derivation_of_diagnostics h
    exact ⟨d⟩
  · obtain ⟨d', htree⟩ := derivation_of_diagnostics (diagnostics_of_derivation d)
    rw [htree, d'.unique d]

end Monkey
