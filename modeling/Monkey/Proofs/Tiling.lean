import Monkey.Proofs.Runes
import Monkey.Proofs.Scanning

/-!
# The tokens tile their source

Scanning loses nothing: a source is blanks, the bytes of a token, blanks, the bytes of a token, and
so on to its end. What one step does is `Cursor.next_of_blanks` and `Cursor.next_of_lexeme`: the
blanks that are passed over, the bytes that the token takes and what is left make up what was left
before. The relation `Tiling` strings such steps together over a whole text, with the positions that
they reach, and `tiling_tokens` shows by induction that the loop of the scanner gives the tokens of
a tiling. What is said about spans and literals is then read off the tiling, at the place where a
token stands in the list (`Tiling.split`).
-/

namespace Monkey

/-! ## The bytes of a lexeme -/

/-- How a terminal is spelt before the rest of a source: as its literal, but a string as its literal
between quotes, of which the second one is missing only where nothing comes after. -/
inductive Terminal.Spelt : Terminal → Text → Text → Prop where
  | plain {kind : Kind} {bytes rest : Text} (hkind : kind ≠ .str) : Spelt ⟨kind, bytes⟩ bytes rest
  | quoted {content rest : Text} (hcontent : 0x22 ∉ content) :
      Spelt ⟨.str, content⟩ (0x22 :: (content ++ [0x22])) rest
  | unclosed {content : Text} (hcontent : 0x22 ∉ content) :
      Spelt ⟨.str, content⟩ (0x22 :: content) []

namespace Terminal.Spelt

variable {t : Terminal} {bytes rest : Text}

/-- The literal of a token is its bytes, unless it is a string. -/
theorem literal_eq (h : t.Spelt bytes rest) (hkind : t.kind ≠ .str) : t.literal = bytes := by
  cases h with
  | plain _ => rfl
  | quoted _ => exact absurd rfl hkind
  | unclosed _ => exact absurd rfl hkind

/-- A string has its literal between quotes, or after one quote up to the end of the source. -/
theorem string_cases (h : t.Spelt bytes rest) (hkind : t.kind = .str) :
    0x22 ∉ t.literal ∧
      (bytes = 0x22 :: (t.literal ++ [0x22]) ∨ bytes = 0x22 :: t.literal ∧ rest = []) := by
  cases h with
  | plain hne => exact absurd hkind hne
  | quoted hcontent => exact ⟨hcontent, .inl rfl⟩
  | unclosed hcontent => exact ⟨hcontent, .inr ⟨rfl, rfl⟩⟩

end Terminal.Spelt

/-- A lexeme takes some bytes off a text, and is spelt by them. -/
def Lexeme.Takes (l : Lexeme) (text : Text) : Prop :=
  l.terminal.Spelt (text.take l.size) (text.drop l.size)

/-- A lexeme takes the bytes that spell it, whatever follows them. -/
theorem takes_append {l : Lexeme} {bytes rest : Text} (hsize : l.size = bytes.length)
    (hspelt : l.terminal.Spelt bytes rest) : l.Takes (bytes ++ rest) := by
  rw [Lexeme.Takes, hsize, List.take_left, List.drop_left]
  exact hspelt

/-- A lexeme whose literal is not in quotes takes the bytes of its literal. -/
theorem takes_of_starts {kind : Kind} {literal text : Text} (hkind : kind ≠ .str)
    (hstarts : literal <+: text) : (Lexeme.mk kind literal literal.length).Takes text := by
  obtain ⟨rest, rfl⟩ := hstarts
  exact takes_append rfl (.plain hkind)

/-- A string takes its quotes and what is between them. -/
theorem takes_string (rest : Text) : (Lexeme.string rest).Takes (0x22 :: rest) := by
  have hcontent : (rest.takeWhile isUnquoted).all isUnquoted = true := List.all_takeWhile
  have hsplit : rest.takeWhile isUnquoted ++ rest.dropWhile isUnquoted = rest :=
    List.takeWhile_append_dropWhile
  have hend := List.head?_dropWhile_not isUnquoted rest
  generalize rest.takeWhile isUnquoted = content at hcontent hsplit
  generalize rest.dropWhile isUnquoted = tail at hsplit hend
  subst hsplit
  have hquote := all_isUnquoted_iff.mp hcontent
  cases tail with
  | nil =>
      rw [List.append_nil, string_unclosed hcontent, ← List.append_nil (0x22 :: content)]
      exact takes_append rfl (.unclosed hquote)
  | cons q after =>
      obtain rfl : q = 0x22 := Decidable.not_not.mp (of_decide_eq_false hend)
      have htext : 0x22 :: (content ++ 0x22 :: after) = 0x22 :: (content ++ [0x22]) ++ after := by
        rw [List.cons_append, List.append_assoc]
        rfl
      have hlength : content.length + 1 + 1 = (0x22 :: (content ++ [0x22])).length := by
        rw [List.length_cons, List.length_append, List.length_singleton]
      rw [string_closed hcontent, htext]
      exact takes_append hlength (.quoted hquote)

theorem ofWord_ne_str (w : Text) : Kind.ofWord w ≠ .str := by
  intro hstr
  rcases ofWord_cases w with hk | ⟨hk, -⟩
  · rw [hstr] at hk
    cases hk
  · rw [hstr] at hk
    cases hk

theorem ofByte_ne_str {b : UInt8} {k : Kind} (h : Kind.ofByte? b = some k) : k ≠ .str := by
  rintro rfl
  have hspelling : Kind.str.spelling = [b] := (spelling_ofByte h).1
  cases hspelling

theorem withEquals_ne_str {k double : Kind} (h : k.withEquals? = some double) : double ≠ .str := by
  rintro rfl
  cases k <;> cases h

/-- An operator or delimiter takes one byte, or two if an equals sign makes it another one; anything
else takes one rune. -/
theorem takes_symbol (b : UInt8) (rest : Text) : (Lexeme.symbol b rest).Takes (b :: rest) := by
  rw [Lexeme.symbol]
  split
  · rename_i k hk
    split
    -- the equals sign is looked ahead at, and taken if it makes another operator
    · rename_i double hdouble hhead
      obtain ⟨tail, rfl⟩ := List.head?_eq_some_iff.mp hhead
      exact takes_of_starts (withEquals_ne_str hdouble) (List.prefix_append [b, 0x3d] tail)
    · exact takes_of_starts (ofByte_ne_str hk) (List.prefix_append [b] rest)
  · exact takes_of_starts (by decide) (Text.prefix_firstRune b rest)

/-- Every lexeme is spelt by the bytes that it takes. -/
theorem takes_read (b : UInt8) (rest : Text) : (Lexeme.read b rest).Takes (b :: rest) := by
  rw [Lexeme.read]
  -- the first byte decides, in the order in which it is asked
  by_cases hquote : b = 0x22
  · rw [if_pos hquote, hquote]
    exact takes_string rest
  rw [if_neg hquote]
  by_cases hdigit : Text.isDigit b = true
  · rw [if_pos hdigit]
    exact takes_of_starts (by decide) ⟨_, List.takeWhile_append_dropWhile⟩
  rw [if_neg hdigit]
  by_cases hletter : isLetter b = true
  · rw [if_pos hletter]
    exact takes_of_starts (ofWord_ne_str _) ⟨_, List.takeWhile_append_dropWhile⟩
  rw [if_neg hletter]
  exact takes_symbol b rest

/-! ## Positions -/

/-- Positions are counted along a text. -/
theorem Position.after_append (p : Position) (s t : Text) :
    p.after (s ++ t) = (p.after s).after t :=
  List.foldl_append

/-- Every byte counts for the offset. -/
theorem Position.offset_after (p : Position) (t : Text) :
    (p.after t).offset = p.offset + t.length := by
  induction t generalizing p with
  | nil => exact (Int.add_zero _).symm
  | cons b t ih =>
      have hnext : (p.next b).offset = p.offset + 1 := by
        rw [Position.next]
        split <;> rfl
      show ((p.next b).after t).offset = _
      rw [ih, hnext, List.length_cons]
      omega

/-- What comes before a position counts its offset. -/
theorem Position.toNat_offset (t : Text) : (Position.start.after t).offset.toNat = t.length := by
  rw [Position.offset_after]
  show (0 + (t.length : Int)).toNat = t.length
  rw [Int.zero_add, Int.toNat_natCast]

/-- The bytes of a text from one offset up to another. -/
def Text.between (t : Text) (start stop : Int) : Text :=
  (t.take stop.toNat).drop start.toNat

/-- The bytes between the offsets where a part starts and ends are that part. -/
theorem between_after (a b c : Text) : (a ++ b ++ c).between (Position.start.after a).offset
    (Position.start.after (a ++ b)).offset = b := by
  rw [Text.between, Position.toNat_offset, Position.toNat_offset, List.take_left, List.drop_left]

/-! ## One step -/

/-- The end token at a position. -/
def Token.atEnd (p : Position) : Token :=
  ⟨.eof, [], ⟨p, p⟩⟩

/-- A token is what some bytes read as before the rest of a source. -/
def Token.Reads (t : Token) (bytes rest : Text) : Prop :=
  ∃ b after, isBlank b = false ∧ bytes ++ rest = b :: after ∧
    t.terminal = (Lexeme.read b after).terminal ∧
    bytes = (b :: after).take (Lexeme.read b after).size

namespace Token.Reads

variable {t : Token} {bytes rest : Text}

/-- A token that reads some bytes is spelt by them. -/
theorem spelt (h : t.Reads bytes rest) : t.terminal.Spelt bytes rest := by
  obtain ⟨b, after, -, htext, hterminal, hbytes⟩ := h
  have hrest : rest = (b :: after).drop (Lexeme.read b after).size := by
    have hboth : bytes ++ rest = bytes ++ (b :: after).drop (Lexeme.read b after).size := by
      rw [htext, hbytes, List.take_append_drop]
    exact List.append_cancel_left hboth
  rw [hterminal, hbytes, hrest]
  exact takes_read b after

/-- Every token but the end token has bytes. -/
theorem ne_nil (h : t.Reads bytes rest) : bytes ≠ [] := by
  obtain ⟨b, after, -, -, -, hbytes⟩ := h
  have hsize := size_read_pos b after
  intro hnil
  rw [hnil] at hbytes
  rcases List.take_eq_nil_iff.mp hbytes.symm with hzero | hcons
  · exact Nat.ne_of_gt hsize hzero
  · exact List.cons_ne_nil _ _ hcons

theorem kind_ne_eof (h : t.Reads bytes rest) : t.kind ≠ .eof := by
  obtain ⟨b, after, -, -, hterminal, -⟩ := h
  have hlexical := lexical_read b after
  rw [← hterminal] at hlexical
  exact hlexical.kind_ne_eof

end Token.Reads

namespace Cursor

/-- Skipping blanks moves the position along them. -/
theorem skipBlanks_eq (c : Cursor) : c.skipBlanks =
    ⟨c.rest.dropWhile isBlank, c.pos.after (c.rest.takeWhile isBlank)⟩ := by
  have hrest := rest_skipBlanks c
  have htake : c.rest.take (c.rest.takeWhile isBlank).length = c.rest.takeWhile isBlank :=
    (List.prefix_iff_eq_take.mp ⟨_, List.takeWhile_append_dropWhile⟩).symm
  rw [skipBlanks, advance, htake]
  rw [skipBlanks, advance] at hrest
  rw [show c.rest.drop (c.rest.takeWhile isBlank).length = _ from hrest]

/-- When only blanks are left, the end token comes next, and nothing is left. -/
theorem next_of_blanks {c : Cursor} (h : c.rest.dropWhile isBlank = []) :
    c.rest.all isBlank = true ∧
      c.next = (.atEnd (c.pos.after c.rest), ⟨[], c.pos.after c.rest⟩) := by
  have hall : c.rest.takeWhile isBlank = c.rest := by
    have hsplit : c.rest.takeWhile isBlank ++ c.rest.dropWhile isBlank = c.rest :=
      List.takeWhile_append_dropWhile
    rwa [h, List.append_nil] at hsplit
  constructor
  · rw [← hall]
    exact List.all_takeWhile
  · rw [next, skipBlanks_eq, hall, h]
    rfl

/-- Otherwise what is left is blanks, the bytes of the next token, and what is left after it. -/
theorem next_of_lexeme {c : Cursor} {b : UInt8} {after : Text}
    (h : c.rest.dropWhile isBlank = b :: after) :
    ∃ gap bytes rest, c.rest = gap ++ (bytes ++ rest) ∧ gap.all isBlank = true ∧
      c.next.1.Reads bytes rest ∧
      c.next.1.span = ⟨c.pos.after gap, c.pos.after (gap ++ bytes)⟩ ∧
      c.next.2 = ⟨rest, c.pos.after (gap ++ bytes)⟩ := by
  have hsplit : c.rest.takeWhile isBlank ++ c.rest.dropWhile isBlank = c.rest :=
    List.takeWhile_append_dropWhile
  have hb := List.head?_dropWhile_not isBlank c.rest
  have hparts := List.take_append_drop (Lexeme.read b after).size (b :: after)
  have hnext : c.next = (⟨c.rest.dropWhile isBlank, c.pos.after (c.rest.takeWhile isBlank)⟩
      : Cursor).read := by
    rw [next, skipBlanks_eq]
  rw [h] at hsplit hb hnext
  -- the gap are the blanks, and the bytes are as many as the lexeme takes
  refine ⟨c.rest.takeWhile isBlank, (b :: after).take (Lexeme.read b after).size,
    (b :: after).drop (Lexeme.read b after).size, ?_, List.all_takeWhile, ?_, ?_, ?_⟩
  · rw [hparts, hsplit]
  · rw [hnext]
    exact ⟨b, after, hb, hparts, rfl, rfl⟩
  · rw [hnext, Position.after_append]
    rfl
  · rw [hnext, Position.after_append]
    rfl

/-- Scanning comes to an end: what holds when only blanks are left, and before a token if it holds
after it, holds at every cursor. -/
theorem scan_induction {P : Cursor → Prop}
    (hdone : ∀ c : Cursor, c.rest.dropWhile isBlank = [] → P c)
    (hstep : ∀ (c : Cursor) (b : UInt8) (after : Text),
      c.rest.dropWhile isBlank = b :: after → P c.next.2 → P c) (c : Cursor) : P c := by
  cases h : c.rest.dropWhile isBlank with
  | nil => exact hdone c h
  | cons b after =>
      have hshorter := length_rest_lt h
      exact hstep c b after h (scan_induction hdone hstep c.next.2)
termination_by c.rest.length

/-! ## The loop -/

/-- With blanks only, the loop ends at its first token, the end token. -/
theorem tokensUpTo_of_blanks {c : Cursor} (n : Nat) (h : c.rest.dropWhile isBlank = []) :
    c.tokensUpTo n = ([.atEnd (c.pos.after c.rest)], ⟨[], c.pos.after c.rest⟩) := by
  have hnext := (next_of_blanks h).2
  cases n with
  | zero => rw [tokensUpTo, hnext]
  | succ n =>
      rw [tokensUpTo, hnext]
      rfl

/-- With a lexeme ahead, the loop takes its token and goes on after it. -/
theorem tokensUpTo_of_lexeme {c : Cursor} {b : UInt8} {after : Text} (n : Nat)
    (h : c.rest.dropWhile isBlank = b :: after) :
    c.tokensUpTo (n + 1) = (c.next.1 :: (c.next.2.tokensUpTo n).1, (c.next.2.tokensUpTo n).2) := by
  show (if c.next.1.kind = .eof then _ else _ : List Token × Cursor) = _
  rw [if_neg (kind_next_ne h)]
  rfl

/-- As many turns as there are bytes left are enough: with more of them the same is read. -/
theorem tokensUpTo_eq_tokens (c : Cursor) :
    ∀ n, c.rest.length ≤ n → c.tokensUpTo n = c.tokens := by
  induction c using scan_induction with
  | hdone c h =>
      intro n _
      rw [tokens, tokensUpTo_of_blanks n h, tokensUpTo_of_blanks _ h]
  | hstep c b after h ih =>
      intro n hn
      have hlt := length_rest_lt h
      -- a token takes at least one byte, so one turn less is enough after it
      obtain ⟨k, hk⟩ : ∃ k, c.rest.length = k + 1 := ⟨c.rest.length - 1, by omega⟩
      obtain ⟨n, rfl⟩ : ∃ n', n = n' + 1 := ⟨n - 1, by omega⟩
      rw [tokens, hk, tokensUpTo_of_lexeme n h, tokensUpTo_of_lexeme k h, ih n (by omega),
        ih k (by omega)]

/-- When only blanks are left, the end token is all that is scanned. -/
theorem tokens_of_blanks {c : Cursor} (h : c.rest.dropWhile isBlank = []) :
    c.tokens = ([.atEnd (c.pos.after c.rest)], ⟨[], c.pos.after c.rest⟩) :=
  tokensUpTo_of_blanks _ h

/-- Otherwise the next token comes first, and then what is scanned after it. -/
theorem tokens_of_lexeme {c : Cursor} {b : UInt8} {after : Text}
    (h : c.rest.dropWhile isBlank = b :: after) :
    c.tokens = (c.next.1 :: c.next.2.tokens.1, c.next.2.tokens.2) := by
  have hlt := length_rest_lt h
  rw [← tokensUpTo_eq_tokens c (c.rest.length + 1) (Nat.le_succ _), tokensUpTo_of_lexeme _ h,
    tokensUpTo_eq_tokens c.next.2 _ (Nat.le_of_lt hlt)]

/-- The cursor after some tokens. -/
def past (c : Cursor) : Nat → Cursor
  | 0 => c
  | n + 1 => c.next.2.past n

/-- After the end, the end token comes again and again. -/
theorem next_past_end (p : Position) (i : Nat) :
    ((⟨[], p⟩ : Cursor).past i).next.1 = .atEnd p := by
  induction i with
  | zero => rfl
  | succ i ih => exact ih

/-- Reading on gives the tokens one by one, and then the end token forever. -/
theorem next_past (c : Cursor) :
    ∀ i, (c.past i).next.1 = (c.tokens.1[i]?).getD (.atEnd (c.pos.after c.rest)) := by
  induction c using scan_induction with
  | hdone c h =>
      intro i
      have hnext := (next_of_blanks h).2
      rw [tokens_of_blanks h]
      cases i with
      | zero => exact congrArg Prod.fst hnext
      | succ i =>
          rw [past, hnext]
          exact next_past_end _ i
  | hstep c b after h ih =>
      intro i
      rw [tokens_of_lexeme h]
      cases i with
      | zero => rfl
      | succ i =>
          obtain ⟨gap, bytes, rest, htext, -, -, -, hafter⟩ := next_of_lexeme h
          have hend : c.next.2.pos.after c.next.2.rest = c.pos.after c.rest := by
            rw [hafter, htext, ← List.append_assoc, Position.after_append _ (gap ++ bytes)]
          rw [past, ih i, hend]
          rfl

end Cursor

/-! ## Tilings -/

/-- A text from a position on, cut into blanks and the bytes of tokens, up to the end token. -/
inductive Tiling : Position → Text → List Token → Prop where
  | done {p : Position} {gap : Text} (hgap : gap.all isBlank = true) :
      Tiling p gap [.atEnd (p.after gap)]
  | token {p : Position} {gap bytes rest : Text} {t : Token} {ts : List Token}
      (hgap : gap.all isBlank = true) (hreads : t.Reads bytes rest)
      (hspan : t.span = ⟨p.after gap, p.after (gap ++ bytes)⟩)
      (hrest : Tiling (p.after (gap ++ bytes)) rest ts) :
      Tiling p (gap ++ (bytes ++ rest)) (t :: ts)

/-- What is scanned from a cursor tiles the text that is left. The induction is along the scan. -/
theorem tiling_tokens (c : Cursor) : Tiling c.pos c.rest c.tokens.1 := by
  induction c using Cursor.scan_induction with
  | hdone c h =>
      rw [Cursor.tokens_of_blanks h]
      exact .done (Cursor.next_of_blanks h).1
  | hstep c b after h ih =>
      obtain ⟨gap, bytes, rest, htext, hgap, hreads, hspan, hafter⟩ := Cursor.next_of_lexeme h
      rw [hafter] at ih
      rw [Cursor.tokens_of_lexeme h, htext, hafter]
      exact .token hgap hreads hspan ih

namespace Tiling

variable {p : Position} {text : Text} {t u : Token} {ts : List Token}

/-- The last token is the end token, at the end of the text, and no other is. -/
theorem ends (h : Tiling p text ts) :
    ∃ inner, ts = inner ++ [.atEnd (p.after text)] ∧ ∀ t ∈ inner, t.kind ≠ .eof := by
  induction h with
  | done hgap => exact ⟨[], rfl, fun _ ht => absurd ht List.not_mem_nil⟩
  | @token p gap bytes rest t ts hgap hreads hspan hrest ih =>
      obtain ⟨inner, rfl, hinner⟩ := ih
      refine ⟨t :: inner, ?_, ?_⟩
      · rw [← Position.after_append, List.append_assoc]
        rfl
      · exact List.forall_mem_cons.mpr ⟨hreads.kind_ne_eof, hinner⟩

/-- Of an empty text there is only the end token. -/
theorem eq_of_nil (h : Tiling p [] ts) : ts = [.atEnd p] := by
  generalize htext : ([] : Text) = text at h
  cases h with
  | done hgap =>
      rw [← htext]
      rfl
  | token hgap hreads hspan hrest =>
      have hnil := (List.append_eq_nil_iff.mp (List.append_eq_nil_iff.mp htext.symm).2).1
      exact absurd hnil hreads.ne_nil

/-- Each token starts at or after the position that the text starts at, and those after it start
where it stops or later. -/
theorem increasing (h : Tiling p text ts) :
    (∀ t ∈ ts, p.offset ≤ t.span.start.offset) ∧
      ts.Pairwise fun t u => t.span.stop.offset ≤ u.span.start.offset := by
  induction h with
  | @done p gap hgap =>
      refine ⟨?_, List.pairwise_singleton _ _⟩
      intro t ht
      obtain rfl := List.mem_singleton.mp ht
      show p.offset ≤ (p.after gap).offset
      rw [Position.offset_after]
      omega
  | @token p gap bytes rest t ts hgap hreads hspan hrest ih =>
      -- all later tokens start after the bytes of this one
      obtain ⟨hlater, hpairwise⟩ := ih
      rw [Position.offset_after] at hlater
      constructor
      · intro u hu
        rcases List.mem_cons.mp hu with rfl | hu
        · rw [hspan]
          show p.offset ≤ (p.after gap).offset
          rw [Position.offset_after]
          omega
        · have := hlater u hu
          omega
      · refine List.pairwise_cons.mpr ⟨?_, hpairwise⟩
        intro u hu
        rw [hspan]
        show (p.after (gap ++ bytes)).offset ≤ _
        rw [Position.offset_after]
        exact hlater u hu

/-- The first token comes after blanks. -/
theorem head (h : Tiling p text (t :: ts)) :
    ∃ gap here, text = gap ++ here ∧ gap.all isBlank = true ∧ t.span.start = p.after gap := by
  cases h with
  | done hgap => exact ⟨text, [], (List.append_nil _).symm, hgap, rfl⟩
  | token hgap hreads hspan hrest => exact ⟨_, _, rfl, hgap, congrArg Span.start hspan⟩

/-- A token with others after it is no end token. -/
theorem token_inv (h : Tiling p text (t :: ts)) (hts : ts ≠ []) :
    ∃ gap bytes rest, text = gap ++ (bytes ++ rest) ∧ t.Reads bytes rest ∧
      t.span = ⟨p.after gap, p.after (gap ++ bytes)⟩ ∧ Tiling (p.after (gap ++ bytes)) rest ts := by
  cases h with
  | done hgap => exact absurd rfl hts
  | token hgap hreads hspan hrest => exact ⟨_, _, _, rfl, hreads, hspan, hrest⟩

/-- A token and those after it tile what is left where the tokens before it stop. -/
theorem split {l r : List Token} (h : Tiling p text (l ++ t :: r)) :
    ∃ before here, text = before ++ here ∧ Tiling (p.after before) here (t :: r) := by
  induction l generalizing p text with
  | nil => exact ⟨[], text, rfl, h⟩
  | cons v l ih =>
      have hne : l ++ t :: r ≠ [] := List.append_ne_nil_of_right_ne_nil l (List.cons_ne_nil t r)
      obtain ⟨gap, bytes, rest, rfl, -, -, hrest⟩ := token_inv h hne
      obtain ⟨before, here, rfl, hhere⟩ := ih hrest
      refine ⟨gap ++ bytes ++ before, here, by simp only [List.append_assoc], ?_⟩
      rw [Position.after_append]
      exact hhere

/-- A token of a source that has others after it: what comes before its bytes, they, and what comes
after them make up the source. -/
theorem split_token {source : Text} {l r : List Token} (h : Tiling .start source (l ++ t :: r))
    (hr : r ≠ []) :
    ∃ before bytes rest, source = before ++ bytes ++ rest ∧ t.Reads bytes rest ∧
      t.span = ⟨Position.start.after before, Position.start.after (before ++ bytes)⟩ ∧
      Tiling (Position.start.after (before ++ bytes)) rest r := by
  obtain ⟨before, here, rfl, hhere⟩ := h.split
  obtain ⟨gap, bytes, rest, rfl, hreads, hspan, hrest⟩ := hhere.token_inv hr
  rw [← Position.after_append, ← Position.after_append, ← List.append_assoc] at hspan
  rw [← Position.after_append, ← List.append_assoc] at hrest
  exact ⟨before ++ gap, bytes, rest, by simp only [List.append_assoc], hreads, hspan, hrest⟩

end Tiling

/-! ## The tokens of a source -/

/-- The tokens of a source tile it from its start. -/
theorem tiling_tokenize (source : Text) : Tiling .start source (tokenize source) :=
  tiling_tokens (.ofSource source)

/-- The last token of a source is set apart from the others. -/
theorem tokenize_concat (source : Text) : ∃ inner eof, tokenize source = inner ++ [eof] := by
  obtain ⟨inner, htokens, -⟩ := (tiling_tokenize source).ends
  exact ⟨inner, _, htokens⟩

/-- The end token is the last one, and every other stands before it. -/
theorem mem_dropLast_tokenize {source : Text} {t : Token} (ht : t ∈ tokenize source)
    (hkind : t.kind ≠ .eof) : t ∈ (tokenize source).dropLast := by
  obtain ⟨inner, htokens, -⟩ := (tiling_tokenize source).ends
  rw [htokens] at ht ⊢
  rw [List.dropLast_concat]
  rcases List.mem_append.mp ht with hinner | hlast
  · exact hinner
  · obtain rfl := List.mem_singleton.mp hlast
    exact absurd rfl hkind

/-- Every other token has its bytes in the source. -/
theorem reads_of_mem_tokenize {source : Text} {t : Token} (ht : t ∈ tokenize source)
    (hkind : t.kind ≠ .eof) :
    ∃ before bytes rest, source = before ++ bytes ++ rest ∧ t.Reads bytes rest ∧
      t.span = ⟨Position.start.after before, Position.start.after (before ++ bytes)⟩ := by
  have htiling := tiling_tokenize source
  obtain ⟨inner, eof, htokens⟩ := tokenize_concat source
  have hinner := mem_dropLast_tokenize ht hkind
  rw [htokens, List.dropLast_concat] at hinner
  obtain ⟨l, r, rfl⟩ := List.append_of_mem hinner
  rw [htokens, List.append_assoc, List.cons_append] at htiling
  obtain ⟨before, bytes, rest, htext, hreads, hspan, -⟩ :=
    htiling.split_token (List.append_ne_nil_of_right_ne_nil r (List.cons_ne_nil eof []))
  exact ⟨before, bytes, rest, htext, hreads, hspan⟩

/-- **The tokens of a source tile it.** They end with the end token, which is the only one, empty
and at the end of the source; with more turns the loop that reads them gives the same; and tokens
that are read one by one are these, and then the end token forever. They follow one another without
overlap, and before, between and after them there are only blanks. Each of the others has bytes of
its own and lies within the source. It has them as its literal, but a string has its literal between
quotes, with no quote in it; only in the last token, if it goes on to the end of the source, may the
second quote be missing. -/
theorem tokens_tile_source (source : Text) :
    ∃ (inner : List Token) (eof : Token), tokenize source = inner ++ [eof] ∧
      (eof.kind = .eof ∧ eof.literal = [] ∧ eof.span.start.offset = source.length ∧
        eof.span.stop.offset = source.length) ∧
      (∀ n, source.length ≤ n → ((Cursor.ofSource source).tokensUpTo n).1 = tokenize source) ∧
      (∀ i, ((Cursor.ofSource source).past i).next.1 = ((tokenize source)[i]?).getD eof) ∧
      (tokenize source).Pairwise (fun t u => t.span.stop.offset ≤ u.span.start.offset) ∧
      (∀ t ∈ (tokenize source).head?,
        (source.between 0 t.span.start.offset).all isBlank = true) ∧
      (∀ l t u r, tokenize source = l ++ t :: u :: r →
        (source.between t.span.stop.offset u.span.start.offset).all isBlank = true) ∧
      ∀ (l : List Token) (t : Token) (r : List Token), inner = l ++ t :: r →
        t.kind ≠ .eof ∧ 0 ≤ t.span.start.offset ∧
        t.span.start.offset < t.span.stop.offset ∧ t.span.stop.offset ≤ source.length ∧
        (t.kind ≠ .str →
          t.literal = source.between t.span.start.offset t.span.stop.offset) ∧
        (t.kind = .str → 0x22 ∉ t.literal ∧
          (source.between t.span.start.offset t.span.stop.offset = 0x22 :: (t.literal ++ [0x22]) ∨
            source.between t.span.start.offset t.span.stop.offset = 0x22 :: t.literal ∧
              t.span.stop.offset = source.length ∧ r = [])) := by
  have htiling : Tiling .start source (tokenize source) := tiling_tokens (.ofSource source)
  have hoffset : ∀ t : Text, (Position.start.after t).offset = t.length := fun t =>
    (Position.offset_after _ t).trans (Int.zero_add _)
  obtain ⟨inner, htokens, hinner⟩ := htiling.ends
  refine ⟨inner, .atEnd (Position.start.after source), htokens,
    ⟨rfl, rfl, hoffset source, hoffset source⟩, ?_, ?_, htiling.increasing.2, ?_, ?_, ?_⟩
  · intro n hn
    exact congrArg Prod.fst (Cursor.tokensUpTo_eq_tokens (.ofSource source) n hn)
  · exact Cursor.next_past (.ofSource source)
  -- before the first token the tiling has only its first gap
  · intro t ht
    obtain ⟨r, hr⟩ := List.head?_eq_some_iff.mp ht
    rw [hr] at htiling
    obtain ⟨gap, here, rfl, hgap, hstart⟩ := htiling.head
    have hbetween : Text.between (gap ++ here) 0 (Position.start.after gap).offset = gap :=
      between_after [] gap here
    rw [hstart, hbetween]
    exact hgap
  -- between two tokens it has the gap that belongs to the second
  · intro l t u r hltu
    rw [hltu] at htiling
    obtain ⟨before, bytes, rest, rfl, -, hspan, hrest⟩ := htiling.split_token (List.cons_ne_nil u r)
    obtain ⟨gap, here, rfl, hgap, hstart⟩ := hrest.head
    rw [hspan, hstart, ← Position.after_append, ← List.append_assoc, between_after]
    exact hgap
  · intro l t r hltr
    rw [hltr, List.append_assoc, List.cons_append] at htokens
    have hne : r ++ [.atEnd (Position.start.after source)] ≠ [] :=
      List.append_ne_nil_of_right_ne_nil r (List.cons_ne_nil _ _)
    rw [htokens] at htiling
    obtain ⟨before, bytes, rest, rfl, hreads, hspan, hrest⟩ := htiling.split_token hne
    have hpos := List.length_pos_iff.mpr hreads.ne_nil
    have hbetween := between_after before bytes rest
    rw [hspan]
    simp only [hoffset, List.length_append] at hbetween ⊢
    rw [hbetween]
    refine ⟨hreads.kind_ne_eof, by omega, by omega, by omega, hreads.spelt.literal_eq, ?_⟩
    intro hkind
    obtain ⟨hcontent, hquoted | ⟨hbytes, rfl⟩⟩ := hreads.spelt.string_cases hkind
    · exact ⟨hcontent, .inl hquoted⟩
    · -- nothing is left after the token, so that the end token is all that comes
      have hlength := congrArg List.length hrest.eq_of_nil
      simp only [List.length_append, List.length_singleton] at hlength
      have hr : r = [] := List.eq_nil_of_length_eq_zero (by omega)
      exact ⟨hcontent, .inr ⟨hbytes, rfl, hr⟩⟩

example : (tokenize (text "x \"y")).map Token.terminal =
    [⟨.ident, text "x"⟩, ⟨.str, text "y"⟩, ⟨.eof, []⟩] := by
  decide

end Monkey
