import Monkey.Proofs.Concatenation

/-!
# Slices of a source

A token does not look further than it must: what comes after its last byte may be cut off, and the
same token is read (`Lexeme.read_cut`). So the tokens of a slice that goes from the start of one
token to the stop of another are the tokens between the two, apart from their places
(`terminals_slice`). What comes next after a token is seen in the source at the first byte that is
no blank (`nextByte?_rparen_iff`).
-/

namespace Monkey

/-! ## What is cut off does not matter -/

/-- A run that does not go beyond the first part of a text is a run of that part. -/
theorem takeWhile_cut {sort : UInt8 → Bool} {t more : Text}
    (h : ((t ++ more).takeWhile sort).length ≤ t.length) :
    (t ++ more).takeWhile sort = t.takeWhile sort := by
  rw [List.takeWhile_append] at h ⊢
  split
  · rename_i hall
    rw [if_pos hall, List.length_append] at h
    have hnone : more.takeWhile sort = [] := List.length_eq_zero_iff.mp (by omega)
    rw [hnone, List.append_nil]
    exact ((List.takeWhile_prefix sort).eq_of_length hall).symm
  · rfl

/-- A rune that does not go beyond the first part of a text is the first rune of that part. -/
theorem firstRune_cut {b : UInt8} {rest more : Text}
    (h : (Text.firstRune b (rest ++ more)).length ≤ rest.length + 1) :
    Text.firstRune b rest = Text.firstRune b (rest ++ more) := by
  rw [Text.firstRune] at h ⊢
  rw [Text.firstRune]
  cases hdecode : Text.decode? (b :: (rest ++ more)) with
  | some found =>
      obtain ⟨c, tail⟩ := found
      rw [hdecode] at h
      obtain ⟨tail', htail'⟩ : String.utf8EncodeChar c <+: b :: rest := by
        have htext := Text.decode?_eq_some hdecode
        rw [← List.cons_append] at htext
        refine List.prefix_of_prefix_length_le ⟨tail, htext.symm⟩ (List.prefix_append _ more) ?_
        exact h
      rw [← htail', Text.decode?_encode]
  | none =>
      cases hcut : Text.decode? (b :: rest) with
      | none => rfl
      | some found =>
          -- a character that starts the first part would start the whole text
          obtain ⟨c, tail⟩ := found
          have htext := Text.decode?_eq_some hcut
          refine absurd ⟨tail ++ more, ?_⟩ (Text.no_char_starts hdecode c)
          rw [← List.append_assoc, ← htext, List.cons_append]

namespace Lexeme

theorem string_cut {rest more : Text} (h : (string (rest ++ more)).size ≤ rest.length + 1) :
    string rest = string (rest ++ more) := by
  by_cases hquote : 0x22 ∈ rest
  · exact (string_append hquote more).symm
  · -- a string that is still open takes all there is
    have hall := List.all_eq_true.mp (all_isUnquoted_iff.mpr hquote)
    have hlength : (string (rest ++ more)).size
        = 1 + (rest.length + (more.takeWhile isUnquoted).length)
        + if rest.length + (more.takeWhile isUnquoted).length < rest.length + more.length then 1
          else 0 := by
      simp only [string, List.takeWhile_append_of_pos hall, List.length_append]
    have hnone : more = [] := by
      rw [hlength] at h
      refine List.length_eq_zero_iff.mp ?_
      split at h <;> omega
    rw [hnone, List.append_nil]

theorem symbol_cut {b : UInt8} {rest more : Text}
    (h : (symbol b (rest ++ more)).size ≤ rest.length + 1) :
    symbol b rest = symbol b (rest ++ more) := by
  cases hbyte : Kind.ofByte? b with
  | none =>
      simp only [symbol, hbyte] at h ⊢
      rw [firstRune_cut h]
  | some kind =>
      cases rest with
      | cons c rest => simp only [symbol, hbyte, List.cons_append, List.head?_cons]
      | nil =>
          -- an equals sign that was cut off would have been taken
          have hshort : symbol b [] = ⟨kind, [b], 1⟩ := by
            simp only [symbol, hbyte, List.head?_nil]
            cases kind.withEquals? <;> rfl
          rw [hshort]
          simp only [symbol, hbyte, List.nil_append] at h ⊢
          split at h
          · exact absurd h (Nat.not_succ_le_self 1)
          · rfl

/-- A token that does not go beyond the first part of a text is read from that part alone. -/
theorem read_cut {b : UInt8} {rest more : Text}
    (h : (read b (rest ++ more)).size ≤ rest.length + 1) : read b rest = read b (rest ++ more) := by
  rw [read, read]
  rw [read] at h
  by_cases hquote : b = 0x22
  · rw [if_pos hquote] at h ⊢
    rw [if_pos hquote]
    exact string_cut h
  rw [if_neg hquote] at h ⊢
  rw [if_neg hquote]
  by_cases hdigit : Text.isDigit b = true
  · rw [if_pos hdigit, ← List.cons_append] at h ⊢
    rw [if_pos hdigit, takeWhile_cut h]
  rw [if_neg hdigit] at h ⊢
  rw [if_neg hdigit]
  by_cases hletter : isLetter b = true
  · rw [if_pos hletter, ← List.cons_append] at h ⊢
    rw [if_pos hletter, takeWhile_cut h]
  rw [if_neg hletter] at h ⊢
  rw [if_neg hletter]
  exact symbol_cut h

end Lexeme

/-! ## Tokens of a slice -/

namespace Token.Reads

variable {t : Token} {bytes rest more : Text}

theorem cut (h : t.Reads bytes (rest ++ more)) : t.Reads bytes rest := by
  have hne := h.ne_nil
  obtain ⟨b, after, hb, htext, hterminal, hbytes⟩ := h
  obtain ⟨c, tail, rfl⟩ := List.exists_cons_of_ne_nil hne
  rw [List.cons_append, ← List.append_assoc] at htext
  obtain ⟨rfl, rfl⟩ := List.cons.inj htext
  -- the bytes of the token all stand before the cut
  have hsize : (Lexeme.read c (tail ++ rest ++ more)).size ≤ (tail ++ rest).length + 1 := by
    have hlength := congrArg List.length hbytes
    have hle := Lexeme.size_read_le c (tail ++ rest ++ more)
    rw [List.length_take, List.length_cons, List.length_cons] at hlength
    rw [List.length_append]
    omega
  have hcut := Lexeme.read_cut hsize
  refine ⟨c, tail ++ rest, hb, rfl, ?_, ?_⟩
  · rw [hcut, hterminal]
  · rw [hcut]
    rwa [← List.cons_append, List.take_append_of_le_length hsize] at hbytes

/-- The token is the first terminal, and those of the rest follow. -/
theorem terminals_eq (h : t.Reads bytes rest) :
    terminals (bytes ++ rest) = t.terminal :: terminals rest := by
  obtain ⟨b, after, hb, htext, hterminal, hbytes⟩ := h
  have hrest : (b :: after).drop (Lexeme.read b after).size = rest := by
    have hsplit := List.take_append_drop (Lexeme.read b after).size (b :: after)
    rw [← hbytes, ← htext] at hsplit
    rw [← htext]
    exact List.append_cancel_left hsplit
  rw [htext, terminals_read hb, hterminal, hrest]

end Token.Reads

theorem terminals_blanks {gap : Text} (hgap : gap.all isBlank = true) (t : Text) :
    terminals (gap ++ t) = terminals t := by
  induction gap with
  | nil => rfl
  | cons b gap ih =>
      rw [List.all_cons, Bool.and_eq_true] at hgap
      rw [List.cons_append, terminals_blank hgap.1, ih hgap.2]

/-- Some tokens at the start of a text: what comes after the blanks, up to where the last of them
stops, has just their terminals. -/
theorem Tiling.cut {p : Position} {text : Text} {mid after : List Token} {first last : Token}
    (h : Tiling p text (mid ++ after)) (hafter : after ≠ []) (hfirst : mid.head? = some first)
    (hlast : mid.getLast? = some last) :
    ∃ gap body rest, text = gap ++ (body ++ rest) ∧ gap.all isBlank = true ∧
      first.span.start = p.after gap ∧ last.span.stop = p.after (gap ++ body) ∧
      terminals body = mid.map Token.terminal := by
  induction mid generalizing p text first with
  | nil => cases hfirst
  | cons t mid ih =>
      obtain rfl : t = first := Option.some.inj hfirst
      generalize htokens : t :: mid ++ after = tokens at h
      cases h with
      | done hgap =>
          have hnil := (List.cons.inj htokens).2
          exact absurd (List.append_eq_nil_iff.mp hnil).2 hafter
      | @token _ gap bytes rest _ _ hgap hreads hspan hrest =>
          obtain ⟨rfl, rfl⟩ := List.cons.inj htokens
          refine ⟨gap, ?_⟩
          -- one token is cut out with its bytes; of more, the gap between them is in the body
          cases mid with
          | nil =>
              obtain rfl : t = last := Option.some.inj hlast
              refine ⟨bytes, rest, rfl, hgap, congrArg Span.start hspan,
                congrArg Span.stop hspan, ?_⟩
              have hcut : t.Reads bytes ([] ++ rest) := hreads
              rw [← List.append_nil bytes, hcut.cut.terminals_eq]
              rfl
          | cons u mid =>
              rw [List.getLast?_cons_cons] at hlast
              obtain ⟨gap', body, rest', rfl, hgap', -, hstop, hbody⟩ := ih hrest rfl hlast
              refine ⟨bytes ++ (gap' ++ body), rest', ?_, hgap, congrArg Span.start hspan, ?_, ?_⟩
              · simp only [List.append_assoc]
              · rw [hstop, ← Position.after_append]
                simp only [List.append_assoc]
              · rw [← List.append_assoc gap'] at hreads
                rw [hreads.cut.terminals_eq, terminals_blanks hgap', hbody]
                rfl

/-- The slice of a source from the start of one token to the stop of another has the terminals from
the one to the other. -/
theorem terminals_slice {source : Text} {before mid after : List Token} {first last : Token}
    (h : tokenize source = before ++ (mid ++ after)) (hafter : after ≠ [])
    (hfirst : mid.head? = some first) (hlast : mid.getLast? = some last) :
    terminals (source.between first.span.start.offset last.span.stop.offset)
      = mid.map Token.terminal := by
  have htiling := tiling_tokenize source
  obtain ⟨mid, rfl⟩ := List.head?_eq_some_iff.mp hfirst
  rw [h, List.cons_append] at htiling
  obtain ⟨pre, here, rfl, hhere⟩ := htiling.split
  obtain ⟨gap, body, rest, rfl, -, hstart, hstop, hbody⟩ := Tiling.cut hhere hafter hfirst hlast
  rw [← Position.after_append] at hstart hstop
  rw [hstart, hstop, ← List.append_assoc pre, ← List.append_assoc pre, ← List.append_assoc,
    between_after]
  exact hbody

/-! ## The next token -/

/-- The first byte of a source from an offset on that is no blank. -/
def Text.nextByte? (source : Text) (offset : Int) : Option UInt8 :=
  ((source.drop offset.toNat).dropWhile isBlank).head?

/-- After a token, a closing parenthesis is seen just when it is the next token. -/
theorem nextByte?_rparen_iff {source : Text} {before after : List Token} {t u : Token}
    (h : tokenize source = before ++ t :: u :: after) :
    source.nextByte? t.span.stop.offset = some 0x29 ↔ u.kind = .rparen := by
  have htiling := tiling_tokenize source
  rw [h] at htiling
  obtain ⟨pre, bytes, rest, rfl, -, hspan, hrest⟩ := htiling.split_token (List.cons_ne_nil u after)
  have hdrop : (pre ++ bytes ++ rest).drop t.span.stop.offset.toNat = rest := by
    rw [hspan]
    show List.drop (Position.start.after (pre ++ bytes)).offset.toNat _ = rest
    rw [Position.toNat_offset, List.drop_left]
  rw [Text.nextByte?, hdrop]
  -- the next token is the end, or starts with the next byte that is no blank
  cases hrest with
  | done hgap =>
      have hblank : rest.dropWhile isBlank = [] := by
        rw [← List.append_nil rest, List.dropWhile_append_of_pos (List.all_eq_true.mp hgap)]
        rfl
      rw [hblank]
      constructor
      · intro hnext
        cases hnext
      · intro hk
        cases hk
  | @token _ gap bytes' rest' _ _ hgap hreads hspan' _ =>
      have hliteral := hreads.spelt.literal_eq
      obtain ⟨b, tail, hb, htext, hterminal, hbytes⟩ := hreads
      rw [htext, List.dropWhile_append_of_pos (List.all_eq_true.mp hgap),
        List.dropWhile_cons_of_neg (by rw [hb]; decide), List.head?_cons, Option.some.injEq]
      constructor
      · rintro rfl
        exact congrArg Terminal.kind hterminal
      · intro hk
        -- a closing parenthesis is spelt by one byte only
        have hlexical := lexical_read b tail
        rw [← hterminal] at hlexical
        unfold Terminal.Lexical at hlexical
        have hkind : u.terminal.kind = .rparen := hk
        rw [hkind] at hlexical hliteral
        rw [← hliteral (by decide), hlexical] at htext
        exact (List.cons.inj htext).1.symm

end Monkey
