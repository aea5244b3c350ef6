import Monkey.Proofs.Tiling
import Monkey.Proofs.Transfer

/-!
# One source below another

A blank ends every token but a string that is still open. So when a source stands below another one,
with a newline between them, the tokens are those of the first and then those of the second, moved
down. That a token ends where it did is `Token.Reads.before_blank`; tilings are put together from
such tokens (`Tiling.above`), and since a text has only one tiling (`Tiling.tokens_eq`), what is put
together is what the scanner reads (`tokenize_above`). An open string would take the newline and
more, so that the tokens are put together only where there is none (`tokens_compose_at_newline`).
-/

namespace Monkey

/-! ## What follows a blank does not matter -/

/-- A blank goes on no number, no word, no operator and no encoding. -/
theorem class_of_blank (b : UInt8) : isBlank b = true →
    Text.isDigit b = false ∧ isLetter b = false ∧ b ≠ 0x3d ∧ Text.tail? b = none := by
  revert b
  refine forall_byte ?_
  decide +kernel

namespace Text

variable {stop : UInt8}

/-- No encoding goes on after a byte that is no continuation byte. -/
theorem decode?_before_stop (hstop : tail? stop = none) (b : UInt8) (rest after : Text) :
    (decode? (b :: (rest ++ stop :: after))).map Prod.fst
      = (decode? (b :: rest)).map Prod.fst := by
  -- an encoding takes up to three bytes after the first, and the stop may be any of them
  rcases rest with _ | ⟨x, _ | ⟨y, _ | ⟨z, rest⟩⟩⟩
  all_goals
    simp only [decode?, List.nil_append, List.cons_append, hstop]
    repeat' split
  all_goals
    simp only [Option.pure_def, Option.bind_eq_bind, Option.map_bind, Function.comp_def,
      Option.map_some, Option.map_none, Option.bind_none, Option.bind_fun_none]

theorem firstRune_before_stop (hstop : tail? stop = none) (b : UInt8) (rest after : Text) :
    firstRune b (rest ++ stop :: after) = firstRune b rest := by
  have hrune (t : Text) : firstRune b t
      = ((decode? (b :: t)).map Prod.fst).elim [b] String.utf8EncodeChar := by
    rw [firstRune]
    cases decode? (b :: t) <;> rfl
  rw [hrune, hrune, decode?_before_stop hstop]

end Text

theorem takeWhile_before_stop {p : UInt8 → Bool} {stop : UInt8} (hstop : p stop = false)
    (s after : Text) : (s ++ stop :: after).takeWhile p = s.takeWhile p := by
  induction s with
  | nil => exact List.takeWhile_cons_of_neg (by rw [hstop]; decide)
  | cons b s ih => rw [List.cons_append, List.takeWhile_cons, List.takeWhile_cons, ih]

namespace Lexeme

variable {blank : UInt8}

/-- A string that is closed ends at its quote, whatever follows. -/
theorem string_append {rest : Text} (hclosed : 0x22 ∈ rest) (after : Text) :
    string (rest ++ after) = string rest := by
  obtain ⟨content, tail, rfl, hquote⟩ := List.eq_append_cons_of_mem hclosed
  have hcontent := all_isUnquoted_iff.mpr hquote
  rw [List.append_assoc, List.cons_append, string_closed hcontent, string_closed hcontent]

theorem symbol_before_blank (hblank : isBlank blank = true) (b : UInt8) (rest after : Text) :
    symbol b (rest ++ blank :: after) = symbol b rest := by
  obtain ⟨-, -, hequals, htail⟩ := class_of_blank blank hblank
  simp only [symbol, Text.firstRune_before_stop htail]
  cases rest with
  | nil =>
      cases Kind.ofByte? b with
      | none => rfl
      | some kind =>
          -- the blank is seen as the next byte, but it is no equals sign
          have hhead : ¬ ([] ++ blank :: after : Text).head? = some 0x3d := fun h =>
            hequals (Option.some.inj h)
          dsimp only
          split
          · exact absurd ‹_› hhead
          · cases kind.withEquals? <;> rfl
  | cons c rest => rfl

/-- A token that starts before a blank is the same whatever follows the blank, unless it is a string
that is not closed before it. -/
theorem read_before_blank (hblank : isBlank blank = true) {b : UInt8} {rest : Text}
    (hclosed : b = 0x22 → 0x22 ∈ rest) (after : Text) :
    read b (rest ++ blank :: after) = read b rest := by
  obtain ⟨hdigit, hletter, -, -⟩ := class_of_blank blank hblank
  rw [read, read, ← List.cons_append, takeWhile_before_stop hdigit, takeWhile_before_stop hletter,
    symbol_before_blank hblank]
  by_cases hquote : b = 0x22
  · rw [if_pos hquote, if_pos hquote, string_append (hclosed hquote)]
  · rw [if_neg hquote, if_neg hquote]

theorem size_string_le (rest : Text) : (string rest).size ≤ rest.length + 1 := by
  have hle := (List.takeWhile_prefix (l := rest) isUnquoted).length_le
  simp only [string]
  split <;> omega

theorem size_symbol_le (b : UInt8) (rest : Text) : (symbol b rest).size ≤ rest.length + 1 := by
  rw [symbol]
  split
  · split
    · rename_i hhead
      obtain ⟨tail, rfl⟩ := List.head?_eq_some_iff.mp hhead
      exact Nat.le_add_left 2 tail.length
    · exact Nat.le_add_left 1 rest.length
  · exact (Text.prefix_firstRune b rest).length_le

/-- A token takes no more bytes than there are. -/
theorem size_read_le (b : UInt8) (rest : Text) : (read b rest).size ≤ rest.length + 1 := by
  rw [read]
  split
  · exact size_string_le rest
  split
  · exact (List.takeWhile_prefix (l := b :: rest) Text.isDigit).length_le
  split
  · exact (List.takeWhile_prefix (l := b :: rest) isLetter).length_le
  · exact size_symbol_le b rest

end Lexeme

/-! ## Tokens before a blank -/

/-- A string has both its quotes: its span is longer than its literal by two bytes. -/
def Token.Closed (t : Token) : Prop :=
  t.kind = .str → t.span.length = t.literal.length + 2

namespace Token.Reads

variable {t : Token} {bytes rest : Text}

/-- The two ways to say that a string is closed. -/
theorem closed_iff {p : Position} {gap : Text} (h : t.Reads bytes rest)
    (hspan : t.span = ⟨p.after gap, p.after (gap ++ bytes)⟩) :
    t.Closed ↔ (t.kind = .str → bytes = 0x22 :: (t.literal ++ [0x22])) := by
  have hlength : t.span.length = bytes.length := by
    rw [hspan, Span.length, Position.offset_after, Position.offset_after, List.length_append]
    omega
  refine forall_congr' fun hkind => ?_
  have hcases := h.spelt.string_cases hkind
  rw [show t.terminal.literal = t.literal from rfl] at hcases
  rw [hlength]
  obtain ⟨-, hquoted | ⟨hbytes, -⟩⟩ := hcases
  · refine iff_of_true ?_ hquoted
    rw [hquoted, List.length_cons, List.length_append, List.length_singleton]
    omega
  · -- one quote is missing, and so is its byte
    refine iff_of_false ?_ fun hquoted => ?_
    · rw [hbytes, List.length_cons]
      omega
    · have hsame := congrArg List.length (hbytes.symm.trans hquoted)
      rw [List.length_cons, List.length_cons, List.length_append, List.length_singleton] at hsame
      omega

/-- A token that is no open string ends where it did when a blank and more follow. -/
theorem before_blank (h : t.Reads bytes rest)
    (hclosed : t.kind = .str → bytes = 0x22 :: (t.literal ++ [0x22])) {blank : UInt8}
    (hblank : isBlank blank = true) (after : Text) : t.Reads bytes (rest ++ blank :: after) := by
  obtain ⟨b, tail, hb, htext, hterminal, hbytes⟩ := h
  have hquote : b = 0x22 → 0x22 ∈ tail := by
    rintro rfl
    have hkind : t.kind = .str := congrArg Terminal.kind hterminal
    rw [hclosed hkind] at htext
    injection htext with _ htail
    rw [← htail]
    simp
  refine ⟨b, tail ++ blank :: after, hb, ?_, ?_, ?_⟩
  · rw [← List.append_assoc, htext, List.cons_append]
  · rw [Lexeme.read_before_blank hblank hquote, hterminal]
  · rw [Lexeme.read_before_blank hblank hquote, ← List.cons_append,
      List.take_append_of_le_length (Lexeme.size_read_le b tail)]
    exact hbytes

end Token.Reads

/-! ## Positions further down -/

/-- Where a position of a source is when the source stands below another one. -/
def Position.below (upper : Text) (p : Position) : Position :=
  ⟨p.offset + (upper.length + 1), p.line + (upper.count 0x0a + 1), p.column⟩

namespace Position

variable (upper : Text) (p : Position)

theorem next_below (b : UInt8) : (p.below upper).next b = (p.next b).below upper := by
  rw [next, next]
  split
  · simp only [below, mk.injEq, and_true]
    constructor <;> omega
  · simp only [below, mk.injEq, and_true]
    omega

theorem after_below (t : Text) : (p.below upper).after t = (p.after t).below upper := by
  induction t generalizing p with
  | nil => rfl
  | cons b t ih =>
      show ((p.below upper).next b).after t = ((p.next b).after t).below upper
      rw [next_below, ih]

theorem line_after (t : Text) : (p.after t).line = p.line + t.count 0x0a := by
  induction t generalizing p with
  | nil => exact (Int.add_zero _).symm
  | cons b t ih =>
      show ((p.next b).after t).line = _
      rw [ih, next, List.count_cons]
      by_cases hb : b = 0x0a
      · simp [hb]
        omega
      · simp [hb]

/-- A source starts below another one where that one and a newline have passed. -/
theorem start_below : start.below upper = start.after (upper ++ [0x0a]) := by
  have hoffset := offset_after start upper
  have hline := line_after start upper
  rw [after_append]
  show _ = (start.after upper).next 0x0a
  rw [next, if_pos rfl, hoffset, hline, below]
  simp only [mk.injEq, start, and_true]
  constructor <;> omega

/-- Positions keep their order, so that spans are joined as they were. -/
theorem join_below (s s' : Span) :
    (s.move (below upper)).join (s'.move (below upper)) = (s.join s').move (below upper) := by
  simp only [Span.join, Span.move, below, Int.add_lt_add_iff_right, Span.mk.injEq]
  constructor <;> split <;> rfl

end Position

/-! ## Tilings -/

namespace Tiling

variable {p : Position} {upper lower gap : Text} {ts us : List Token}

/-- Blanks may come before a tiling. -/
theorem after_blanks (hgap : gap.all isBlank = true) (h : Tiling (p.after gap) lower ts) :
    Tiling p (gap ++ lower) ts := by
  cases h with
  | @done _ gap' hgap' =>
      rw [← Position.after_append]
      exact .done (by rw [List.all_append, hgap, hgap']; rfl)
  | @token _ gap' bytes rest t ts hgap' hreads hspan hrest =>
      rw [← Position.after_append, ← Position.after_append, ← List.append_assoc] at hspan
      rw [← Position.after_append, ← List.append_assoc] at hrest
      rw [← List.append_assoc]
      exact .token (by rw [List.all_append, hgap, hgap']; rfl) hreads hspan hrest

/-- A tiling of a source without an open string, and one of what stands below it, without the first
end token. -/
theorem above (h : Tiling p upper ts) (hclosed : ∀ t ∈ ts, t.Closed)
    (hlower : Tiling (p.after (upper ++ [0x0a])) lower us) :
    Tiling p (upper ++ 0x0a :: lower) (ts.dropLast ++ us) := by
  induction h with
  | @done p gap hgap =>
      -- the blanks at the end of the upper source and the newline come before what stands below
      have hblanks : (gap ++ [0x0a]).all isBlank = true := by
        rw [List.all_append, hgap]
        rfl
      have htiling := after_blanks hblanks hlower
      rwa [List.append_assoc] at htiling
  | @token p gap bytes rest t ts hgap hreads hspan hrest ih =>
      obtain ⟨htclosed, htsclosed⟩ := List.forall_mem_cons.mp hclosed
      have hne : ts ≠ [] := by
        obtain ⟨inner, rfl, -⟩ := hrest.ends
        exact List.append_ne_nil_of_right_ne_nil inner (List.cons_ne_nil _ _)
      have hbelow : Tiling ((p.after (gap ++ bytes)).after (rest ++ [0x0a])) lower us := by
        rw [← Position.after_append]
        simpa only [List.append_assoc] using hlower
      have hreads' : t.Reads bytes (rest ++ 0x0a :: lower) :=
        hreads.before_blank ((hreads.closed_iff hspan).mp htclosed) rfl lower
      rw [List.dropLast_cons_of_ne_nil hne, List.append_assoc, List.append_assoc]
      exact .token hgap hreads' hspan (ih htsclosed hbelow)

/-- The tiling of a source further down. -/
theorem moved_below (h : Tiling p lower ts) (upper : Text) :
    Tiling (p.below upper) lower (ts.map (Token.move (.below upper))) := by
  induction h with
  | @done p gap hgap =>
      have hend : (Token.atEnd (p.after gap)).move (.below upper)
          = .atEnd ((p.below upper).after gap) := by
        rw [Position.after_below]
        rfl
      rw [List.map_singleton, hend]
      exact .done hgap
  | @token p gap bytes rest t ts hgap hreads hspan hrest ih =>
      rw [← Position.after_below] at ih
      refine .token hgap hreads ?_ ih
      show t.span.move _ = _
      rw [hspan, Position.after_below, Position.after_below]
      rfl

/-- A text has only one tiling: the tokens that the scanner reads. -/
theorem tokens_eq (h : Tiling p lower ts) : (Cursor.mk lower p).tokens.1 = ts := by
  induction h with
  | @done p gap hgap =>
      have hnone : gap.dropWhile isBlank = [] := by
        rw [← List.append_nil gap, List.dropWhile_append_of_pos (List.all_eq_true.mp hgap)]
        rfl
      rw [Cursor.tokens_of_blanks hnone]
  | @token p gap bytes rest t ts hgap hreads hspan hrest ih =>
      obtain ⟨kind, literal, span⟩ := t
      obtain ⟨b, after, hb, htext, hterminal, hbytes⟩ := hreads
      obtain ⟨rfl, rfl⟩ := Terminal.mk.inj hterminal
      obtain rfl : span = _ := hspan
      have hdrop : (gap ++ (bytes ++ rest)).dropWhile isBlank = b :: after := by
        rw [List.dropWhile_append_of_pos (List.all_eq_true.mp hgap), htext,
          List.dropWhile_cons_of_neg (by rw [hb]; decide)]
      have htake : (gap ++ (bytes ++ rest)).takeWhile isBlank = gap :=
        takeWhile_append_eq hgap (by rw [htext]; rintro _ ⟨⟩; exact hb)
      -- the size of the lexeme decides how the text is cut
      have hrest' : rest = (b :: after).drop (Lexeme.read b after).size := by
        rw [← List.take_append_drop (Lexeme.read b after).size (b :: after), ← hbytes] at htext
        exact List.append_cancel_left htext
      have hnext : (Cursor.mk (gap ++ (bytes ++ rest)) p).next
          = (⟨(Lexeme.read b after).kind, (Lexeme.read b after).literal,
            ⟨p.after gap, p.after (gap ++ bytes)⟩⟩, ⟨rest, p.after (gap ++ bytes)⟩) := by
        rw [Cursor.next, Cursor.skipBlanks_eq, hdrop, htake, Position.after_append, hbytes, hrest']
        rfl
      rw [Cursor.tokens_of_lexeme hdrop, hnext, ih]

/-- Only the last token before the end can be an open string. -/
theorem closed (h : Tiling p upper ts) (hlast : ∀ t ∈ ts.dropLast.getLast?, t.kind ≠ .str) :
    ∀ t ∈ ts, t.Closed := by
  induction h with
  | done hgap =>
      intro t ht hkind
      obtain rfl := List.mem_singleton.mp ht
      cases hkind
  | @token p gap bytes rest t ts hgap hreads hspan hrest ih =>
      have hdrop : (t :: ts).dropLast = t :: ts.dropLast := by
        obtain ⟨inner, rfl, -⟩ := hrest.ends
        exact List.dropLast_cons_of_ne_nil
          (List.append_ne_nil_of_right_ne_nil inner (List.cons_ne_nil _ _))
      rw [hdrop, List.getLast?_cons] at hlast
      refine List.forall_mem_cons.mpr ⟨(hreads.closed_iff hspan).mpr fun hkind => ?_, ih ?_⟩
      · obtain ⟨-, hquoted | ⟨-, rfl⟩⟩ := hreads.spelt.string_cases hkind
        · exact hquoted
        · -- nothing is left after the token, so that it is the last one
          rw [hrest.eq_of_nil] at hlast
          exact absurd hkind (hlast t rfl)
      · intro u hu
        exact hlast u (by rw [Option.mem_def.mp hu]; rfl)

end Tiling

/-- **The tokens of one source below another.** Those of the upper one without its end token come
first, and those of the lower one follow, moved down. -/
theorem tokenize_above {upper : Text} (hclosed : ∀ t ∈ tokenize upper, t.Closed) (lower : Text) :
    tokenize (upper ++ 0x0a :: lower)
      = (tokenize upper).dropLast ++ (tokenize lower).map (Token.move (.below upper)) := by
  have hbelow := (tiling_tokenize lower).moved_below upper
  rw [Position.start_below] at hbelow
  exact ((tiling_tokenize upper).above hclosed hbelow).tokens_eq

/-- A string of a source with more text below it is closed: an open one would go on to the end of
that text, too. -/
theorem closed_of_mem_above {upper lower : Text} {t : Token} (hupper : t ∈ tokenize upper)
    (hwhole : t ∈ tokenize (upper ++ 0x0a :: lower)) : t.Closed := by
  intro hkind
  have heof : t.kind ≠ .eof := by
    rw [hkind]
    decide
  obtain ⟨before, bytes, rest, rfl, -, hspan⟩ := reads_of_mem_tokenize hupper heof
  obtain ⟨before', bytes', rest', htext, hreads, hspan'⟩ := reads_of_mem_tokenize hwhole heof
  have hrest : rest' ≠ [] := by
    rintro rfl
    -- the token stops both inside the upper source and at the end of the whole
    have hstop :
        Position.start.after (before ++ bytes) = Position.start.after (before' ++ bytes') :=
      congrArg Span.stop (hspan.symm.trans hspan')
    have hoffset := Position.toNat_offset (before ++ bytes)
    rw [hstop, Position.toNat_offset] at hoffset
    have hlength := congrArg List.length htext
    simp only [List.length_append, List.length_cons, List.length_nil] at hoffset hlength
    omega
  refine (hreads.closed_iff hspan').mpr (fun hstr => ?_) hkind
  obtain ⟨-, hquoted | ⟨-, hnil⟩⟩ := hreads.spelt.string_cases hstr
  · exact hquoted
  · exact absurd hnil hrest

/-- **Tokens compose at a newline.** Let one source stand below another, after a newline. If the
upper one leaves no string open, the tokens of the whole are those of the upper source without its
end token, spans and all, and then those of the lower source, each position of which is moved: the
offset by the length of the upper source and one, the line by its newlines and one, and the column
not at all. If it does leave a string open, this fails whatever the lower source is. -/
theorem tokens_compose_at_newline (upper lower : Text) :
    (∀ t ∈ tokenize upper, t.Closed) ↔
      tokenize (upper ++ 0x0a :: lower)
        = (tokenize upper).dropLast ++ (tokenize lower).map (Token.move (.below upper)) := by
  constructor
  · intro hclosed
    exact tokenize_above hclosed lower
  · intro htokens t ht hkind
    -- a string of the upper source is a token of the whole as well
    have hwhole : t ∈ tokenize (upper ++ 0x0a :: lower) := by
      rw [htokens]
      exact List.mem_append_left _ (mem_dropLast_tokenize ht (by rw [hkind]; decide))
    exact closed_of_mem_above ht hwhole hkind

/-- Equals signs on two lines are no operator of two bytes. -/
example : tokenize (text "=" ++ 0x0a :: text "=") =
    [⟨.assign, text "=", ⟨⟨0, 1, 1⟩, ⟨1, 1, 2⟩⟩⟩, ⟨.assign, text "=", ⟨⟨2, 2, 1⟩, ⟨3, 2, 2⟩⟩⟩,
      .atEnd ⟨3, 2, 2⟩] := by
  decide +kernel

/-- The last token of a source, before the end token, is a semicolon. -/
def EndsInSemicolon (source : Text) : Prop :=
  (tokenize source).dropLast.getLast?.map Token.kind = some .semicolon

instance (source : Text) : Decidable (EndsInSemicolon source) :=
  inferInstanceAs (Decidable (_ = _))

theorem EndsInSemicolon.closed {source : Text} (h : EndsInSemicolon source) :
    ∀ t ∈ tokenize source, t.Closed := by
  refine (tiling_tokenize source).closed fun t ht hkind => ?_
  rw [EndsInSemicolon, Option.mem_def.mp ht, Option.map_some, hkind] at h
  cases h

end Monkey
