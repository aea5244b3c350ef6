import Monkey.Proofs.Brackets
import Monkey.Proofs.Excerpts

/-!
# The text of a node, read alone

The span of a node cuts a slice out of its source. If what the slice holds is just what a sentence
or a phrase for the node derives, then the slice is read as the node again. But the parentheses
around a left operand open before the span of the operation and close within it, so that the slice
has a parenthesis that closes and none that opens, and is not well formed.
-/

namespace Monkey

open Grammar

/-- The statement that a node is where it stands alone: itself, or an expression as a statement. -/
def Node.alone? : Node → Option Stmt
  | .program _ | .stmt .absent | .stmt (.block _) => none
  | .stmt s => some s
  | .expr e => some (.expr default e)

/-- No operand at the left edge of a node stands in parentheses. A statement starts with a token of
its own, so that it has none. -/
def Node.isBare (source : Text) : Node → Bool
  | .expr e => e.isBare source
  | .program _ | .stmt _ => true

/-- The slice of a source within a span, read alone, gives no diagnostics and a single statement,
which is a given one up to spans and to the tokens that programs and expression statements start
with. -/
structure ReadsAlone (source : Text) (s : Span) (stmt : Stmt) : Prop where
  diagnostics : (parse (source.between s.start.offset s.stop.offset)).diagnostics = []
  program : (parse (source.between s.start.offset s.stop.offset)).program.shape
    = ⟨default, [stmt.shape]⟩

/-- Any sentence may stand last. -/
theorem mayPrecede_eof (c : Sentence) : c.MayPrecede .eof := by
  cases c with
  | bind _ _ _ | ret _ _ | expr _ _ => exact fun _ => ⟨by decide, rfl⟩
  | bare _ => exact fun _ => .inr rfl

variable {source : Text} {before mid after : List Token} {s : Span}

theorem terminals_around (htokens : tokenize source = before ++ (mid ++ after))
    (hafter : after ≠ [])
    (hs : s.Around mid) :
    terminals (source.between s.start.offset s.stop.offset) = mid.map Token.terminal := by
  obtain ⟨first, last, hfirst, hlast, hstart, hstop⟩ := hs
  rw [hstart, hstop]
  exact terminals_slice htokens hafter hfirst hlast

/-- A slice with just the terminals of a sentence is read as its statement: there is no other way to
derive them. -/
theorem readsAlone_of_yield {stmt : Stmt} {c : Sentence} (hproper : c.Proper)
    (htree : c.tree = stmt.shape)
    (hyield : c.yield = terminals (source.between s.start.offset s.stop.offset)) :
    ReadsAlone source s stmt := by
  have hyields : yieldStatements [c] = terminals (source.between s.start.offset s.stop.offset) := by
    rw [yieldStatements, yieldStatements, List.append_nil, hyield]
  let d : Derivation (terminals (source.between s.start.offset s.stop.offset)) :=
    ⟨[c], ⟨hproper, mayPrecede_eof c, trivial⟩, hyields⟩
  have hdiagnostics := diagnostics_of_derivation d
  obtain ⟨d', hprogram⟩ := derivation_of_diagnostics hdiagnostics
  refine ⟨hdiagnostics, ?_⟩
  rw [hprogram, d'.unique d, ← htree]
  rfl

theorem brackets_opening {opens : List Token} (h : ∀ t ∈ opens, t.kind = .lparen) :
    brackets (opens.map Token.terminal) = List.replicate opens.length .lparen := by
  have hkinds :
      (opens.map Token.terminal).map Terminal.kind = List.replicate opens.length .lparen := by
    rw [List.map_map, List.eq_replicate_iff]
    exact ⟨List.length_map _, List.forall_mem_map.mpr h⟩
  rw [brackets, hkinds, List.filter_replicate]
  rfl

/-- Terminals that are nested do not stay nested after parentheses that only open. -/
theorem eq_nil_of_nested {opens mid : List Token} (hopens : ∀ t ∈ opens, t.kind = .lparen)
    (hwhole : Nested (brackets ((opens ++ mid).map Token.terminal)))
    (hmid : Nested (brackets (mid.map Token.terminal))) : opens = [] := by
  have hwholeCount : List.count Kind.lparen _ = List.count Kind.rparen _ := hwhole.count_pair rfl
  have hmidCount : List.count Kind.lparen _ = List.count Kind.rparen _ := hmid.count_pair rfl
  -- the parentheses within balance, so those that open before would have to close before
  rw [List.map_append, brackets_append, brackets_opening hopens, List.count_append,
    List.count_append, hmidCount, List.count_replicate_self] at hwholeCount
  have hnone : List.count Kind.rparen (List.replicate opens.length .lparen) = 0 :=
    List.count_eq_zero.mpr fun hmem => by cases List.eq_of_mem_replicate hmem
  exact List.length_eq_zero_iff.mp (by omega)

/-- The slice of an expression is read as the expression where no parenthesis opens before it that
closes within it. Otherwise there is none that the one within it could close. -/
theorem Expr.Excerpted.readsAlone {e : Expr} (h : e.Excerpted source) (hs : e.span? = some s) :
    (e.isBare source = true → ReadsAlone source s (.expr default e)) ∧
    (e.isBare source = false →
      (parse (source.between s.start.offset s.stop.offset)).diagnostics ≠ []) := by
  obtain ⟨opens, mid, before, after, c, htokens, hafter, hwrapped, hproper, htree, hyield⟩ := h
  obtain ⟨s', hs', haround⟩ := hwrapped.span
  obtain rfl : s' = s := Option.some.inj (hs'.symm.trans hs)
  rw [List.append_assoc, ← List.append_assoc] at htokens
  have hterminals := terminals_around htokens hafter haround
  refine ⟨fun hbare => ?_, fun hbare hdiagnostics => ?_⟩
  · obtain rfl : opens = [] := hwrapped.bare.mpr ⟨rfl, hbare⟩
    refine readsAlone_of_yield (c := .expr c false) hproper ?_ ?_
    · rw [Sentence.tree, htree, Stmt.shape_expr]
    · rw [hterminals, Sentence.yield, hyield]
      exact List.append_nil _
  · -- the phrase derives the opening parentheses too, so they and the slice cannot both be nested
    have hnested := nested_of_diagnostics hdiagnostics
    rw [bracketKinds_eq, hterminals] at hnested
    have hopens : opens = [] := eq_nil_of_nested hwrapped.opening (hyield ▸ c.nested) hnested
    rw [(hwrapped.bare.mp hopens).2] at hbare
    cases hbare

/-- The slice of a statement is always read as the statement. -/
theorem Stmt.Excerpted.readsAlone {stmt : Stmt} (h : stmt.Excerpted source)
    (hs : (Node.stmt stmt).span? = some s) : ReadsAlone source s stmt := by
  obtain ⟨mid, before, after, s', c, htokens, hafter, hs', haround, hproper, htree, hyield⟩ := h
  obtain rfl : s' = s := Option.some.inj (hs'.symm.trans hs)
  have haround := terminals_around htokens hafter haround
  exact readsAlone_of_yield hproper htree (hyield.trans haround.symm)

/-- **A node's text is its own unless a left operand stands in parentheses.** In a source that is
read without diagnostics, take any let, return or expression statement or any expression. If no
operand at its left edge stands in parentheses, then the slice of the source within its span,
read alone, gives no diagnostics and just that node, as a statement. Otherwise the slice has
diagnostics. -/
theorem own_text_or_unread {source : Text} (h : (parse source).diagnostics = []) {n : Node}
    (hn : (Node.program (parse source).program).Contains n) {s : Span} (hs : n.span? = some s)
    {stmt : Stmt} (hstmt : n.alone? = some stmt) :
    (n.isBare source = true → ReadsAlone source s stmt) ∧
    (n.isBare source = false →
      (parse (source.between s.start.offset s.stop.offset)).diagnostics ≠ []) := by
  have hexcerpted := sound_program h n hn
  cases n with
  | program p => cases hstmt
  | expr e =>
      obtain rfl : Stmt.expr default e = stmt := Option.some.inj hstmt
      cases e with
      | absent => cases hs
      | _ => exact Expr.Excerpted.readsAlone hexcerpted hs
  | stmt st =>
      refine ⟨fun _ => ?_, fun hbare => by cases hbare⟩
      cases st with
      | absent | block _ => cases hstmt
      | bind _ _ _ | ret _ _ | expr _ _ =>
          obtain rfl := Option.some.inj hstmt
          exact Stmt.Excerpted.readsAlone hexcerpted hs

/-- In a source of one statement with one child: where that child lies. -/
theorem exists_child (source : Text) (start stop : Int) (bare : Bool)
    (h : (parse source).program.statements.map (fun st => (Node.stmt st).children.map fun n =>
      (n.span?.map fun s => (s.start.offset, s.stop.offset), n.alone?.isSome, n.isBare source))
      = [[(some (start, stop), true, bare)]]) :
    ∃ (n : Node) (s : Span) (stmt : Stmt), (Node.program (parse source).program).Contains n ∧
      n.span? = some s ∧ n.alone? = some stmt ∧ s.start.offset = start ∧ s.stop.offset = stop ∧
      n.isBare source = bare := by
  obtain ⟨st, hst, hchildren⟩ := List.map_eq_singleton_iff.mp h
  obtain ⟨n, hn, hf⟩ := List.map_eq_singleton_iff.mp hchildren
  have hst' : st ∈ (parse source).program.statements := hst ▸ List.mem_singleton_self st
  have hn' : n ∈ (Node.stmt st).children := hn ▸ List.mem_singleton_self n
  simp only [Prod.mk.injEq, Option.map_eq_some_iff, Option.isSome_iff_exists] at hf
  obtain ⟨⟨s, hs, hstart, hstop⟩, ⟨stmt, hstmt⟩, hbare⟩ := hf
  exact ⟨n, s, stmt, .step (List.mem_map_of_mem hst') (.step hn' (.self n)), hs, hstmt, hstart,
    hstop, hbare⟩

/-- The parentheses around a right operand are part of the text of the product. -/
theorem own_text_or_unread_right :
    ∃ (n : Node) (s : Span) (stmt : Stmt),
      (parse (text "a * (b + c)")).diagnostics = [] ∧
      (Node.program (parse (text "a * (b + c)")).program).Contains n ∧ n.span? = some s ∧
      n.alone? = some stmt ∧ s.start.offset = 0 ∧ s.stop.offset = 11 ∧
      n.isBare (text "a * (b + c)") = true ∧ ReadsAlone (text "a * (b + c)") s stmt := by
  have h : (parse (text "a * (b + c)")).diagnostics = [] := by decide +kernel
  obtain ⟨n, s, stmt, hn, hs, hstmt, hstart, hstop, hbare⟩ :=
    exists_child (text "a * (b + c)") 0 11 true (by decide +kernel)
  exact ⟨n, s, stmt, h, hn, hs, hstmt, hstart, hstop, hbare,
    (own_text_or_unread h hn hs hstmt).1 hbare⟩

/-- The parentheses around the left operand are cut apart: the text of the product is
`a + b) * c`. -/
theorem left_operand_cut_apart :
    ∃ (n : Node) (s : Span) (stmt : Stmt),
      (parse (text "(a + b) * c")).diagnostics = [] ∧
      (Node.program (parse (text "(a + b) * c")).program).Contains n ∧ n.span? = some s ∧
      n.alone? = some stmt ∧
      (text "(a + b) * c").between s.start.offset s.stop.offset = text "a + b) * c" ∧
      ¬ ReadsAlone (text "(a + b) * c") s stmt := by
  obtain ⟨n, s, stmt, hn, hs, hstmt, hstart, hstop, -⟩ :=
    exists_child (text "(a + b) * c") 1 11 false (by decide +kernel)
  have hslice : (text "(a + b) * c").between s.start.offset s.stop.offset = text "a + b) * c" := by
    rw [hstart, hstop]
    decide +kernel
  refine ⟨n, s, stmt, by decide +kernel, hn, hs, hstmt, hslice, fun halone => ?_⟩
  have hdiagnostics := halone.diagnostics
  rw [hslice] at hdiagnostics
  exact absurd hdiagnostics (by decide +kernel)

end Monkey
