import Monkey.Proofs.Accepts
import Monkey.Proofs.Likeness
import Monkey.Proofs.Transfer

/-!
# Layout never matters

What stands between the tokens of a source decides where the tokens are and nothing else. The
reading of moved tokens is the reading of the tokens, moved (`parseTokens_move`); to move all
positions to one place is to forget them. So sources with the same tokens up to positions are read
as trees that are the same up to positions, with the same problems. Evaluation does not look at
positions either, so the two programs go alike, and what people see of their results does not show
positions.
-/

namespace Monkey

open Parse

/-! ## Moved tokens -/

/-- Move what was read. -/
def Parsed.move (f : Position → Position) (p : Parsed) : Parsed :=
  ⟨p.program.relocate (Origin.move f) (Origin.move f), p.problems.map (Problem.move f)⟩

/-- The reading of moved tokens is the reading of the tokens, moved. -/
theorem parseTokens_move {f : Position → Position}
    (hjoin : ∀ s s' : Span, (s.move f).join (s'.move f) = (s.join s').move f) (source : Text) :
    parseTokens ((tokenize source).map (Token.move f)) = (parse source).move f := by
  obtain ⟨inner, eof, htokens, -, -⟩ :=
    Cursor.tokensUpTo_eq source.length (.ofSource source) (Nat.le_refl _)
  have htokenize : tokenize source = inner ++ [eof] := htokens
  have hsane := (sane_ofTokens source).1
  rw [htokenize, Reader.ofTokens_concat] at hsane
  let T : Transfer := ⟨f, [], eof.move f, [], hjoin⟩
  have hreader : Reader.ofTokens ((inner ++ [eof]).map (Token.move f)) =
      T.reader ⟨inner, eof, []⟩ := by
    rw [List.map_append]
    refine (Reader.ofTokens_concat _ _).trans ?_
    exact congrArg (Reader.mk · _ _) (List.append_nil _).symm
  have hcovers : T.Covers (program.run ⟨inner, eof, []⟩).2 := by
    have honward := (carries_program (T := T) (n := inner.length)).moves ⟨inner, eof, []⟩
    exact .inl ⟨rfl, congrArg (Token.move f) honward.eof.symm⟩
  have hrun := carries_program.run _ hsane (Nat.le_refl _) hcovers
  rw [parse, htokenize, parseTokens, parseTokens, hreader, Reader.ofTokens_concat, hrun]
  rfl

/-! ## Forgetting positions -/

/-- A program without positions. -/
def Program.unplaced (p : Program) : Program :=
  p.relocate Origin.unplaced Origin.unplaced

/-- A diagnostic without its position. -/
def Diagnostic.unplaced (d : Diagnostic) : Diagnostic :=
  { d with span := default }

/-- The position that all positions are moved to when they are forgotten. -/
def nowhere (_ : Position) : Position :=
  default

theorem join_nowhere (s s' : Span) :
    (s.move nowhere).join (s'.move nowhere) = (s.join s').move nowhere :=
  rfl

/-- What a source is read as, up to positions, depends on the kinds and literals of its tokens. -/
theorem parse_move_nowhere {a b : Text}
    (h : (tokenize a).map Token.terminal = (tokenize b).map Token.terminal) :
    (parse a).move nowhere = (parse b).move nowhere := by
  have hforget : Token.move nowhere =
      (fun t : Terminal => Token.mk t.kind t.literal default) ∘ Token.terminal := rfl
  rw [← parseTokens_move join_nowhere, ← parseTokens_move join_nowhere, hforget, ← List.map_map,
    ← List.map_map, h]

theorem diagnostics_move (f : Position → Position) (p : Parsed) :
    (p.move f).diagnostics = p.diagnostics.map (Diagnostic.move f) := by
  rw [Parsed.diagnostics, Parsed.diagnostics, Parsed.move, List.map_map, List.map_map]
  exact List.map_congr_left fun q _ => q.diagnostic_move f

/-! ## Evaluation without positions -/

/-- Two worlds that are the same, where the second has no positions. -/
def placeless : Likeness :=
  .rewriting Origin.unplaced Origin.unplaced Origin.unplaced_literal

theorem placeless_fresh : placeless.Like .fresh .fresh :=
  ⟨(World.relocate_fresh _ _).symm, rfl, rfl, rfl, rfl⟩

/-- A program goes as it does without positions. -/
theorem placeless_runWith (calls : Nat) (limits : Limits) (p : Program) (scope : ScopeId)
    {w w' : World} (h : placeless.Like w w') :
    (runWith calls limits (.program p.unplaced) scope w').1 =
      (runWith calls limits (.program p) scope w).1.relocate Origin.unplaced Origin.unplaced ∧
    placeless.Like (runWith calls limits (.program p) scope w).2
      (runWith calls limits (.program p.unplaced) scope w').2 := by
  have hstep : placeless.Mirrors id (Traced.step limits) (Traced.step limits) :=
    .step limits fun _ _ h => h
  have htracers := Likeness.tracers_ofLimits hstep calls
  have hlike : placeless.Like { w with steps := 0 } { w' with steps := 0 } :=
    { h with steps := rfl }
  rw [runWith_eq_conclude, runWith_eq_conclude]
  exact Likeness.conclude_alike (Likeness.mirrors_node htracers scope (.program p)) hlike

/-- What people see of a result: the type and the text of a value, or how the run failed to have
one. -/
def Outcome.shown : Outcome → Except Halt (Tag × Text)
  | .value v => .ok (v.tag, v.inspect)
  | .crashed c => .error (.crash c)
  | .exhausted => .error .exhausted

theorem Outcome.shown_relocate {node statement : Origin → Origin}
    (h : ∀ o, (node o).literal = o.literal) (o : Outcome) :
    (o.relocate node statement).shown = o.shown := by
  cases o with
  | value v =>
      show Except.ok ((v.relocate node statement).tag, (v.relocate node statement).inspect) = _
      rw [v.tag_relocate, v.inspect_relocate h]
      rfl
  | crashed c => rfl
  | exhausted => rfl

/-- **Layout never matters.** Sources whose tokens have the same kinds and literals are read as
programs that are the same up to positions, with diagnostics that are the same up to positions.
Evaluated under the same limits, given any number of calls, the two programs show the same, print
the same and log the same. -/
theorem layout_never_matters {a b : Text}
    (h : (tokenize a).map Token.terminal = (tokenize b).map Token.terminal) :
    (parse a).program.unplaced = (parse b).program.unplaced ∧
    (parse a).diagnostics.map Diagnostic.unplaced = (parse b).diagnostics.map Diagnostic.unplaced ∧
    ∀ (calls : Nat) (limits : Limits),
      (runWith calls limits (.program (parse a).program) 0 .fresh).1.shown =
        (runWith calls limits (.program (parse b).program) 0 .fresh).1.shown ∧
      (runWith calls limits (.program (parse a).program) 0 .fresh).2.output =
        (runWith calls limits (.program (parse b).program) 0 .fresh).2.output ∧
      (runWith calls limits (.program (parse a).program) 0 .fresh).2.log =
        (runWith calls limits (.program (parse b).program) 0 .fresh).2.log := by
  have hparsed := parse_move_nowhere h
  have hprogram : (parse a).program.unplaced = (parse b).program.unplaced :=
    congrArg Parsed.program hparsed
  refine ⟨hprogram, ?_, fun calls limits => ?_⟩
  · have hdiagnostics := congrArg Parsed.diagnostics hparsed
    rw [diagnostics_move, diagnostics_move] at hdiagnostics
    exact hdiagnostics
  -- both programs go as the same program without positions does
  · obtain ⟨houtcome, hworld⟩ := placeless_runWith calls limits (parse a).program 0 placeless_fresh
    obtain ⟨houtcome', hworld'⟩ :=
      placeless_runWith calls limits (parse b).program 0 placeless_fresh
    rw [hprogram] at houtcome hworld
    refine ⟨?_, hworld.output.trans hworld'.output.symm, hworld.log.trans hworld'.log.symm⟩
    rw [← Outcome.shown_relocate Origin.unplaced_literal, ← houtcome, houtcome',
      Outcome.shown_relocate Origin.unplaced_literal]

/-- A program that prints a function and then goes on wrongly, with no blank in it. -/
def crowded : Text :=
  text "puts(fn(x)\x7b-x\x7d);)"

/-- The same tokens on several lines. -/
def spacedOut : Text :=
  text " puts (\n fn( x ) \x7b - x \x7d )\n;\t)"

/-- Both have a diagnostic, print the function before they end with the same result, and log the
same. -/
theorem layout_never_matters_spacedOut :
    (tokenize crowded).map Token.terminal = (tokenize spacedOut).map Token.terminal ∧
    (parse crowded).diagnostics.map Diagnostic.unplaced =
      (parse spacedOut).diagnostics.map Diagnostic.unplaced ∧
    (run { steps := 9 } (.program (parse crowded).program) 0 .fresh).1.shown =
      (run { steps := 9 } (.program (parse spacedOut).program) 0 .fresh).1.shown ∧
    (run { steps := 9 } (.program (parse crowded).program) 0 .fresh).2.output =
      (run { steps := 9 } (.program (parse spacedOut).program) 0 .fresh).2.output ∧
    (run { steps := 9 } (.program (parse crowded).program) 0 .fresh).2.log =
      (run { steps := 9 } (.program (parse spacedOut).program) 0 .fresh).2.log := by
  have htokens :
      (tokenize crowded).map Token.terminal = (tokenize spacedOut).map Token.terminal := by
    decide +kernel
  have h := layout_never_matters htokens
  exact ⟨htokens, h.2.1, h.2.2 _ { steps := 9 }⟩

end Monkey
