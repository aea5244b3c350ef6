import Monkey.Proofs.Concatenation
import Monkey.Proofs.Nodes

/-!
# Positions are exact

The scanner counts lines and columns as it goes, byte by byte, and never looks back. What it has
counted after a text is what can be read off the text: one more line than there are newlines
(`Position.line_after`), and one more column than there are bytes after the last newline
(`Position.column_after`). So every position that the scanner reaches is exact (`exact_after`). A
span of the tree takes both its ends from tokens, whatever the source is like, and so does the span
of a diagnostic.
-/

namespace Monkey

/-- The bytes after the last newline of a text, or all of them if there is none. -/
def Text.lastLine (t : Text) : Text :=
  (t.reverse.takeWhile (· != 0x0a)).reverse

/-- A position is exact for a source: it lies in the source, and its line and its column are those
of its offset. -/
structure Position.Exact (source : Text) (p : Position) : Prop where
  inside : 0 ≤ p.offset ∧ p.offset ≤ source.length
  line : p.line = 1 + (source.take p.offset.toNat).count 0x0a
  column : p.column = 1 + (Text.lastLine (source.take p.offset.toNat)).length

/-- Both ends of a span are exact. -/
def Span.Exact (source : Text) (s : Span) : Prop :=
  s.start.Exact source ∧ s.stop.Exact source

/-! ## Columns -/

/-- A text is lines that are ended by newlines, and a last line with none in it. -/
theorem lastLine_split (t : Text) : ∃ lines, t = lines ++ t.lastLine ∧ 0x0a ∉ t.lastLine ∧
    (lines = [] ∨ ∃ earlier, lines = earlier ++ [0x0a]) := by
  have hsplit : t.reverse.takeWhile (· != 0x0a) ++ t.reverse.dropWhile (· != 0x0a) = t.reverse :=
    List.takeWhile_append_dropWhile
  have hinside : (t.reverse.takeWhile (· != 0x0a)).all (· != 0x0a) = true := List.all_takeWhile
  have hnewline := List.head?_dropWhile_not (· != 0x0a) t.reverse
  refine ⟨(t.reverse.dropWhile (· != 0x0a)).reverse, ?_, ?_, ?_⟩
  · rw [Text.lastLine, ← List.reverse_append, hsplit, List.reverse_reverse]
  · intro hmem
    have hne := List.all_eq_true.mp hinside _ (List.mem_reverse.mp hmem)
    exact absurd hne (by decide)
  · cases hrest : t.reverse.dropWhile (· != 0x0a) with
    | nil => exact .inl rfl
    | cons b earlier =>
        rw [hrest] at hnewline
        obtain rfl : b = 0x0a := by simpa using hnewline
        exact .inr ⟨earlier.reverse, List.reverse_cons⟩

namespace Position

/-- On one line each byte is a column. -/
theorem column_after_of_not_mem (p : Position) {t : Text} (h : 0x0a ∉ t) :
    (p.after t).column = p.column + t.length := by
  induction t generalizing p with
  | nil => exact (Int.add_zero _).symm
  | cons b t ih =>
      obtain ⟨hb, ht⟩ := List.ne_and_not_mem_of_not_mem_cons h
      have hnext : (p.next b).column = p.column + 1 := by
        rw [next, if_neg (Ne.symm hb)]
      show ((p.next b).after t).column = _
      rw [ih (p.next b) ht, hnext, List.length_cons]
      omega

/-- After a text, the column counts the bytes of its last line. -/
theorem column_after (t : Text) : (start.after t).column = 1 + t.lastLine.length := by
  obtain ⟨lines, hsplit, hlast, hlines⟩ := lastLine_split t
  have hcolumn : (start.after lines).column = 1 := by
    rcases hlines with rfl | ⟨earlier, rfl⟩
    · rfl
    · -- a newline takes the column back to one
      rw [after_append]
      rfl
  calc (start.after t).column
      = ((start.after lines).after t.lastLine).column := by rw [← after_append, ← hsplit]
    _ = 1 + t.lastLine.length := by rw [column_after_of_not_mem _ hlast, hcolumn]

/-- What the scanner has counted after the first part of a source is exact. -/
theorem exact_after (t rest : Text) : (start.after t).Exact (t ++ rest) := by
  have hoffset : (start.after t).offset = t.length :=
    (offset_after start t).trans (Int.zero_add _)
  have htake : (t ++ rest).take (start.after t).offset.toNat = t := by
    rw [toNat_offset, List.take_left]
  refine ⟨⟨?_, ?_⟩, ?_, ?_⟩
  · rw [hoffset]
    exact Int.natCast_nonneg _
  · rw [hoffset, List.length_append]
    omega
  · rw [htake, line_after]
    rfl
  · rw [htake, column_after]

end Position

/-! ## Tokens -/

/-- A law of reading for positions that are exact. -/
def ReadingLaw.exact (source : Text) : ReadingLaw where
  token t := t.span.Exact source
  start p := p.Exact source
  stop p := p.Exact source
  start_token := And.left
  stop_token := And.right

/-- Both ends of every token are exact. -/
theorem exact_of_mem_tokenize {source : Text} {t : Token} (ht : t ∈ tokenize source) :
    t.span.Exact source := by
  have htiling := tiling_tokenize source
  obtain ⟨l, r, htokens⟩ := List.append_of_mem ht
  rw [htokens] at htiling
  obtain ⟨before, here, rfl, hhere⟩ := htiling.split
  cases hhere with
  | done hgap =>
      -- the end token stands after the last blanks
      have hend := Position.exact_after (before ++ here) []
      rw [List.append_nil, Position.after_append] at hend
      exact ⟨hend, hend⟩
  | @token _ gap bytes rest _ _ hgap hreads hspan hrest =>
      have hstart := Position.exact_after (before ++ gap) (bytes ++ rest)
      have hstop := Position.exact_after (before ++ (gap ++ bytes)) rest
      rw [Position.after_append] at hstart hstop
      simp only [List.append_assoc] at hstart hstop
      rw [hspan]
      exact ⟨hstart, hstop⟩

/-- **Positions are exact.** Of every token of a source, of every node of the tree that is read from
it, well formed or not, and of every diagnostic, both ends lie in the source, each on the line that
one more than the newlines before it gives, and in the column that one more than the bytes since the
last of them gives. -/
theorem positions_are_exact (source : Text) :
    (∀ t ∈ tokenize source, t.span.Exact source) ∧
    (∀ n : Node, (Node.program (parse source).program).Contains n →
      ∀ s ∈ n.span?, s.Exact source) ∧
    ∀ d ∈ (parse source).diagnostics, d.span.Exact source := by
  have htokens : ∀ t ∈ tokenize source, (ReadingLaw.exact source).token t :=
    fun t ht => exact_of_mem_tokenize ht
  refine ⟨htokens, ?_, ?_⟩
  · intro n hn s hs
    exact spans_of_contains (.exact source) htokens hn hs
  · intro d hd
    obtain ⟨problem, hproblem, rfl⟩ := List.mem_map.mp hd
    exact (grown_parse (.exact source) htokens).2 problem hproblem

/-- A parenthesis that no expression starts with, after a string of two lines: the diagnostic is on
the second line. -/
theorem positions_are_exact_string :
    ∃ d ∈ (parse (text "\"a\nb\" )")).diagnostics, d.span.start = ⟨6, 2, 4⟩ ∧
      d.span.Exact (text "\"a\nb\" )") := by
  have hstarts :
      (parse (text "\"a\nb\" )")).diagnostics.map (fun d => d.span.start) = [⟨6, 2, 4⟩] := by
    decide +kernel
  have hmem : ⟨6, 2, 4⟩ ∈ (parse (text "\"a\nb\" )")).diagnostics.map fun d => d.span.start := by
    rw [hstarts]
    exact List.mem_singleton_self _
  obtain ⟨d, hd, hstart⟩ := List.mem_map.mp hmem
  exact ⟨d, hd, hstart, (positions_are_exact _).2.2 d hd⟩

end Monkey
