import Monkey.Proofs.Tiling

/-!
# The first byte decides

Which kind a token has, and how far it goes, is decided by its first byte and by the bytes that go
on with it. Bytes fall into five classes: the quote, digits, letters, the bytes of operators and
delimiters, and all others. The class of the first byte is that of the token's kind
(`byteClass_read`), which says at once what a kind starts with and what starts a kind. What a token
takes is then read off class by class: a number or a word is the longest run of its bytes
(`longestRun_takeWhile`), an operator is one byte, or two where an equals sign follows the first,
and what belongs to no class is one rune.
-/

namespace Monkey

/-! ## Classes of bytes -/

/-- The classes of bytes that a token can start with. -/
inductive ByteClass where
  | quote | digit | letter | symbol | other
  deriving DecidableEq, Repr

/-- The class of a byte. -/
def ByteClass.of (b : UInt8) : ByteClass :=
  if b = 0x22 then .quote
  else if Text.isDigit b then .digit
  else if isLetter b then .letter
  else if (Kind.ofByte? b).isSome then .symbol
  else .other

/-- The class of the bytes that the tokens of a kind start with. -/
def Kind.byteClass : Kind → ByteClass
  | .str => .quote
  | .int => .digit
  | .ident | .fnWord | .letWord | .trueWord | .falseWord | .ifWord | .elseWord | .returnWord =>
    .letter
  | .illegal | .eof => .other
  | _ => .symbol

/-- The class of a byte says which of the questions about it has the answer yes. -/
theorem ByteClass.of_eq_iff (b : UInt8) :
    (of b = .quote ↔ b = 0x22) ∧ (of b = .digit ↔ Text.isDigit b = true) ∧
      (of b = .letter ↔ isLetter b = true) := by
  revert b
  refine forall_byte ?_
  decide +kernel

/-- A byte of no other class is neither quote nor digit nor letter, and no symbol. -/
theorem ByteClass.of_eq_other_iff (b : UInt8) : of b = .other ↔
    b ≠ 0x22 ∧ Text.isDigit b = false ∧ isLetter b = false ∧ Kind.ofByte? b = none := by
  revert b
  refine forall_byte ?_
  decide +kernel

/-- A kind is spelt as a single byte just when it is the kind of that byte. -/
theorem spelling_eq_singleton_iff {k : Kind} {b : UInt8} :
    k.spelling = [b] ↔ Kind.ofByte? b = some k := by
  constructor
  · intro h
    cases k <;> cases h <;> rfl
  · intro h
    exact (spelling_ofByte h).1

theorem byteClass_ofWord (w : Text) : (Kind.ofWord w).byteClass = .letter := by
  rcases ofWord_cases w with h | ⟨h, -⟩
  · rw [h]
    rfl
  · cases hk : Kind.ofWord w <;> rw [hk] at h <;> first | rfl | cases h

theorem byteClass_ofByte {b : UInt8} {k : Kind} (h : Kind.ofByte? b = some k) :
    k.byteClass = .symbol := by
  have hspelling := spelling_eq_singleton_iff.mpr h
  cases k <;> cases hspelling <;> rfl

theorem byteClass_withEquals {k double : Kind} (h : k.withEquals? = some double) :
    double.byteClass = .symbol := by
  cases k <;> cases h <;> rfl

/-- The kind of an operator or delimiter has its class, and all other kinds are illegal. -/
theorem byteClass_symbol (b : UInt8) (rest : Text) : (Lexeme.symbol b rest).kind.byteClass =
    if (Kind.ofByte? b).isSome then .symbol else .other := by
  rw [Lexeme.symbol]
  split
  · rename_i k hk
    rw [hk, if_pos (Option.isSome_some)]
    split
    · rename_i double hdouble _
      exact byteClass_withEquals hdouble
    · exact byteClass_ofByte hk
  · rename_i hk
    rw [hk]
    rfl

/-- **The first byte decides on the class of the kind.** -/
theorem byteClass_read (b : UInt8) (rest : Text) :
    (Lexeme.read b rest).kind.byteClass = .of b := by
  rw [Lexeme.read, ByteClass.of]
  by_cases hquote : b = 0x22
  · rw [if_pos hquote, if_pos hquote]
    rfl
  rw [if_neg hquote, if_neg hquote]
  by_cases hdigit : Text.isDigit b = true
  · rw [if_pos hdigit, if_pos hdigit]
    rfl
  rw [if_neg hdigit, if_neg hdigit]
  by_cases hletter : isLetter b = true
  · rw [if_pos hletter, if_pos hletter]
    exact byteClass_ofWord _
  rw [if_neg hletter, if_neg hletter]
  exact byteClass_symbol b rest

/-! ## Longest runs -/

/-- A run of bytes of a sort is the longest one that a text starts with. -/
structure LongestRun (sort : UInt8 → Bool) (run text : Text) : Prop where
  starts : run <+: text
  inside : run.all sort = true
  longest : ∀ longer, longer <+: text → longer.all sort = true → longer.length ≤ run.length

/-- What is taken while a byte is of a sort is the longest run of that sort. -/
theorem longestRun_takeWhile (sort : UInt8 → Bool) (text : Text) :
    LongestRun sort (text.takeWhile sort) text := by
  refine ⟨List.takeWhile_prefix sort, List.all_takeWhile, ?_⟩
  rintro longer ⟨rest, rfl⟩ hlonger
  rw [List.takeWhile_append_of_pos (List.all_eq_true.mp hlonger), List.length_append]
  exact Nat.le_add_right _ _

/-! ## What a token takes -/

/-- The bytes that a text starts with and a token takes. -/
def Lexeme.bytes (b : UInt8) (after : Text) : Text :=
  (b :: after).take (Lexeme.read b after).size

namespace Lexeme

variable {b : UInt8} {after : Text}

/-- A digit starts an integer, of all the digits that follow. -/
theorem read_of_digit (h : Text.isDigit b = true) :
    read b after = ⟨.int, (b :: after).takeWhile Text.isDigit,
      ((b :: after).takeWhile Text.isDigit).length⟩ := by
  have hquote := (class_of_digit b h).2.1
  rw [read, if_neg hquote, if_pos h]

/-- A letter starts a word, of all the letters that follow. -/
theorem read_of_letter (h : isLetter b = true) :
    read b after = ⟨Kind.ofWord ((b :: after).takeWhile isLetter),
      (b :: after).takeWhile isLetter, ((b :: after).takeWhile isLetter).length⟩ := by
  obtain ⟨-, hquote, hdigit, -⟩ := class_of_letter b h
  rw [read, if_neg hquote, if_neg (by rw [hdigit]; decide), if_pos h]

/-- A byte that is an operator or delimiter is read as such. -/
theorem read_of_symbol {k : Kind} (h : Kind.ofByte? b = some k) :
    read b after = symbol b after := by
  obtain ⟨-, hquote, hdigit, hletter⟩ := class_of_symbol b (by rw [h]; rfl)
  rw [read, if_neg hquote, if_neg (by rw [hdigit]; decide), if_neg (by rw [hletter]; decide)]

/-- Any other byte starts one illegal rune. -/
theorem read_of_other (h : ByteClass.of b = .other) :
    read b after = ⟨.illegal, Text.firstRune b after, (Text.firstRune b after).length⟩ := by
  obtain ⟨hquote, hdigit, hletter, hsymbol⟩ := (ByteClass.of_eq_other_iff b).mp h
  rw [read, if_neg hquote, if_neg (by rw [hdigit]; decide), if_neg (by rw [hletter]; decide),
    symbol, hsymbol]

theorem take_takeWhile_length (sort : UInt8 → Bool) (text : Text) :
    text.take (text.takeWhile sort).length = text.takeWhile sort :=
  (List.prefix_iff_eq_take.mp (List.takeWhile_prefix sort)).symm

theorem bytes_of_digit (h : Text.isDigit b = true) :
    bytes b after = (b :: after).takeWhile Text.isDigit := by
  rw [bytes, read_of_digit h]
  exact take_takeWhile_length Text.isDigit (b :: after)

theorem bytes_of_letter (h : isLetter b = true) :
    bytes b after = (b :: after).takeWhile isLetter := by
  rw [bytes, read_of_letter h]
  exact take_takeWhile_length isLetter (b :: after)

/-- A symbol that is no half of another is read alone. -/
theorem read_of_single {k : Kind} (h : Kind.ofByte? b = some k) (hk : k.withEquals? = none) :
    (read b after).kind = k ∧ bytes b after = [b] := by
  simp only [bytes, read_of_symbol h, symbol, h, hk]
  exact ⟨trivial, rfl⟩

/-- A symbol that may be half of another is read with the equals sign after it, if there is one. -/
theorem read_of_half {k double : Kind} (h : Kind.ofByte? b = some k)
    (hk : k.withEquals? = some double) :
    (after.head? = some 0x3d → (read b after).kind = double ∧ bytes b after = [b, 0x3d]) ∧
      (after.head? ≠ some 0x3d → (read b after).kind = k ∧ bytes b after = [b]) := by
  simp only [bytes, read_of_symbol h, symbol, h, hk]
  constructor
  · intro hequals
    obtain ⟨tail, rfl⟩ := List.head?_eq_some_iff.mp hequals
    exact ⟨rfl, rfl⟩
  · intro hne
    split
    · rename_i hequals
      exact absurd hequals hne
    · exact ⟨rfl, rfl⟩

/-- What belongs to no class is read as one rune: a character, or a byte at which none starts. -/
theorem bytes_of_other (h : ByteClass.of b = .other) :
    (∃ c, bytes b after = String.utf8EncodeChar c) ∨
      bytes b after = [b] ∧ ∀ c, ¬ String.utf8EncodeChar c <+: b :: after := by
  have hbytes : bytes b after = Text.firstRune b after := by
    rw [bytes, read_of_other h]
    exact (List.prefix_iff_eq_take.mp (Text.prefix_firstRune b after)).symm
  rw [hbytes, Text.firstRune]
  cases hdecode : Text.decode? (b :: after) with
  | some found => exact .inl ⟨found.1, rfl⟩
  | none => exact .inr ⟨rfl, Text.no_char_starts hdecode⟩

end Lexeme

/-! ## Classified tokens -/

/-- A token is classified as the language says: `bytes` are those it takes of a source, of which `b`
is the first, and `after` is all that comes after `b`. -/
structure Token.Classified (t : Token) (bytes : Text) (b : UInt8) (after : Text) : Prop where
  visible : isBlank b = false
  string : t.kind = .str ↔ b = 0x22
  integer : t.kind = .int ↔ Text.isDigit b = true
  digits : Text.isDigit b = true → LongestRun Text.isDigit bytes (b :: after)
  word : t.kind = .ident ∨ t.kind.isKeyword = true ↔ isLetter b = true
  letters : isLetter b = true → LongestRun isLetter bytes (b :: after)
  reserved : isLetter b = true → ∀ k : Kind, k.isKeyword = true → (t.kind = k ↔ bytes = k.spelling)
  equals : b = 0x3d →
    (after.head? = some 0x3d → t.kind = .eq ∧ bytes = [0x3d, 0x3d]) ∧
      (after.head? ≠ some 0x3d → t.kind = .assign ∧ bytes = [0x3d])
  bang : b = 0x21 →
    (after.head? = some 0x3d → t.kind = .notEq ∧ bytes = [0x21, 0x3d]) ∧
      (after.head? ≠ some 0x3d → t.kind = .bang ∧ bytes = [0x21])
  symbol : ∀ k : Kind, k.spelling = [b] → k ≠ .assign → k ≠ .bang → t.kind = k ∧ bytes = [b]
  illegal : t.kind = .illegal ↔ b ≠ 0x22 ∧ Text.isDigit b = false ∧ isLetter b = false ∧
    ∀ k : Kind, k.spelling ≠ [b]
  rune : t.kind = .illegal → t.literal = bytes ∧
    ((∃ c, bytes = String.utf8EncodeChar c) ∨
      bytes = [b] ∧ ∀ c, ¬ String.utf8EncodeChar c <+: b :: after)

/-- Each keyword has a spelling of its own. -/
theorem ofWord_eq_iff {w : Text} {k : Kind} (hk : k.isKeyword = true) :
    Kind.ofWord w = k ↔ w = k.spelling := by
  constructor
  · intro h
    rcases ofWord_cases w with hident | ⟨-, hspelling⟩
    · rw [← h, hident] at hk
      cases hk
    · rw [← h]
      exact hspelling
  · rintro rfl
    cases k <;> first | decide | cases hk

/-- The kinds of a class. -/
theorem Kind.byteClass_eq_iff (k : Kind) :
    (k.byteClass = .quote ↔ k = .str) ∧ (k.byteClass = .digit ↔ k = .int) ∧
      (k.byteClass = .letter ↔ k = .ident ∨ k.isKeyword = true) ∧
      (k.byteClass = .other ↔ k = .illegal ∨ k = .eof) := by
  cases k <;> decide

/-- What a text starts with is classified by its first byte. -/
theorem classified_of_reads {t : Token} {bytes rest : Text} (h : t.Reads bytes rest) :
    ∃ b after, bytes ++ rest = b :: after ∧ t.Classified bytes b after := by
  have heof := h.kind_ne_eof
  have hliteral := h.spelt.literal_eq
  obtain ⟨b, after, hblank, htext, hterminal, hbytes⟩ := h
  obtain ⟨hquote, hdigit, hletter⟩ := ByteClass.of_eq_iff b
  have hother := ByteClass.of_eq_other_iff b
  obtain ⟨hstr, hint, hword, hillegal⟩ := t.kind.byteClass_eq_iff
  have hkind : t.kind = (Lexeme.read b after).kind := congrArg Terminal.kind hterminal
  have hclass : t.kind.byteClass = .of b := by
    rw [hkind, byteClass_read]
  obtain rfl : bytes = Lexeme.bytes b after := hbytes
  rw [hclass] at hstr hint hword hillegal
  -- the class of no other byte has the illegal kind; the end token has it, too, but no bytes
  have hillegal' : t.kind = .illegal ↔ ByteClass.of b = .other :=
    ⟨fun h => hillegal.mpr (.inl h), fun h => (hillegal.mp h).resolve_right heof⟩
  refine ⟨b, after, htext, hblank, hstr.symm.trans hquote, hint.symm.trans hdigit, ?_,
    hword.symm.trans hletter, ?_, ?_, ?_, ?_, ?_, ?_, ?_⟩
  · intro hb
    rw [Lexeme.bytes_of_digit hb]
    exact longestRun_takeWhile Text.isDigit (b :: after)
  · intro hb
    rw [Lexeme.bytes_of_letter hb]
    exact longestRun_takeWhile isLetter (b :: after)
  · intro hb k hk
    rw [hkind, Lexeme.bytes_of_letter hb, Lexeme.read_of_letter hb]
    exact ofWord_eq_iff hk
  · rintro rfl
    rw [hkind]
    exact Lexeme.read_of_half rfl rfl
  · rintro rfl
    rw [hkind]
    exact Lexeme.read_of_half rfl rfl
  -- only two operators go on with an equals sign, so all others take one byte
  · intro k hspelling hassign hbang
    have hsingle : k.withEquals? = none := by
      cases k <;> first | rfl | exact absurd rfl hassign | exact absurd rfl hbang
    rw [hkind]
    exact Lexeme.read_of_single (spelling_eq_singleton_iff.mp hspelling) hsingle
  · rw [hillegal', hother]
    refine and_congr_right fun _ => and_congr_right fun _ => and_congr_right fun _ => ?_
    constructor
    · intro hnone k hspelling
      rw [spelling_eq_singleton_iff, hnone] at hspelling
      cases hspelling
    · intro hnone
      cases hb : Kind.ofByte? b with
      | none => rfl
      | some k => exact absurd (spelling_eq_singleton_iff.mpr hb) (hnone k)
  · intro hk
    refine ⟨hliteral ?_, Lexeme.bytes_of_other (hillegal'.mp hk)⟩
    show t.kind ≠ .str
    rw [hk]
    decide

/-- **The first byte of a token decides on its kind, and the token is as long as can be.** Of every
source and every token of it but the end token: it is a string just when its first byte is a quote;
it is an integer just when that is a digit, and then it is the longest run of digits from there; it
is a name or a reserved word just when that is a letter or an underscore, and then it is the longest
run of these from there, and of the kind of a reserved word just when the run is that word. Where an
equals sign follows, `=` and `!` are operators of two bytes, and of one byte where none does; every
other operator and delimiter is its byte alone. What starts with a byte of no such class is illegal,
and its literal is one character in UTF-8, or one byte at which no character starts. -/
theorem first_byte_decides (source : Text) (t : Token) (ht : t ∈ tokenize source)
    (hkind : t.kind ≠ .eof) :
    ∃ b after, source.drop t.span.start.offset.toNat = b :: after ∧
      t.Classified (source.between t.span.start.offset t.span.stop.offset) b after := by
  obtain ⟨before, bytes, rest, rfl, hreads, hspan⟩ := reads_of_mem_tokenize ht hkind
  obtain ⟨b, after, htext, hclassified⟩ := classified_of_reads hreads
  refine ⟨b, after, ?_, ?_⟩
  · rw [hspan, Position.toNat_offset, List.append_assoc, List.drop_left, htext]
  · rw [hspan, between_after]
    exact hclassified

/-- An equals sign that a cut encoding follows: the token is one byte, and what comes after it is a
byte at which no character starts. -/
theorem first_byte_decides_cut :
    ∃ t u : Token, t ∈ tokenize [0x3d, 0xe2, 0x82] ∧ u ∈ tokenize [0x3d, 0xe2, 0x82] ∧
      t.kind = .assign ∧ u.kind = .illegal ∧ u.literal = [0xe2] ∧
      (∃ b after, [0x3d, 0xe2, 0x82].drop u.span.start.offset.toNat = b :: after ∧
        u.Classified (Text.between [0x3d, 0xe2, 0x82] u.span.start.offset u.span.stop.offset)
          b after) := by
  refine ⟨⟨.assign, [0x3d], ⟨⟨0, 1, 1⟩, ⟨1, 1, 2⟩⟩⟩, ⟨.illegal, [0xe2], ⟨⟨1, 1, 2⟩, ⟨2, 1, 3⟩⟩⟩,
    by decide +kernel, by decide +kernel, rfl, rfl, rfl, ?_⟩
  exact first_byte_decides [0x3d, 0xe2, 0x82] _ (by decide +kernel) (by decide)

end Monkey
