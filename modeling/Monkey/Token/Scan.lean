import Monkey.Token.Basic

/-!
# Scanning

A cursor is what is left of a source and the position reached. `Cursor.next` skips blanks and reads
one token, by longest match: `lexeme` says which kind a stretch of bytes has, what its literal is
and how many bytes it takes, and never fails, since a byte that starts nothing else is an illegal
token. At the end of the source `next` gives the same end token again and again. `tokenize` is the
list of all tokens up to the first end token.
-/

namespace Monkey

/-- Whether a byte only separates tokens: blank, tab, newline or carriage return. -/
def isBlank (b : UInt8) : Bool :=
  b = 0x20 || b = 0x09 || b = 0x0a || b = 0x0d

/-- Whether a byte may stand in a name: an ASCII letter or an underscore. -/
def isLetter (b : UInt8) : Bool :=
  b = 0x5f || (0x61 ≤ b && b ≤ 0x7a) || (0x41 ≤ b && b ≤ 0x5a)

/-- Whether a byte is not the double quote. -/
def isUnquoted (b : UInt8) : Bool :=
  b ≠ 0x22

/-- The kind of an operator or delimiter of one byte. -/
def Kind.ofByte? (b : UInt8) : Option Kind :=
  match b.toNat with
  | 0x3d => some .assign
  | 0x2b => some .plus
  | 0x2d => some .minus
  | 0x21 => some .bang
  | 0x2a => some .asterisk
  | 0x2f => some .slash
  | 0x3c => some .lt
  | 0x3e => some .gt
  | 0x2c => some .comma
  | 0x3b => some .semicolon
  | 0x3a => some .colon
  | 0x28 => some .lparen
  | 0x29 => some .rparen
  | 0x7b => some .lbrace
  | 0x7d => some .rbrace
  | 0x5b => some .lbracket
  | 0x5d => some .rbracket
  | _ => none

/-- The kind of an operator of two bytes, the second of which is an equals sign. -/
def Kind.withEquals? : Kind → Option Kind
  | .assign => some .eq
  | .bang => some .notEq
  | _ => none

/-- What a stretch of bytes starts with: the kind and the literal of a token, and how many bytes the
token takes. -/
structure Lexeme where
  kind : Kind
  literal : Text
  size : Nat
  deriving DecidableEq, Repr

/-- A string: the content up to the next quote, or to the end if there is none. -/
def Lexeme.string (rest : Text) : Lexeme :=
  let content := rest.takeWhile isUnquoted
  let closing := if content.length < rest.length then 1 else 0
  ⟨.str, content, 1 + content.length + closing⟩

/-- An operator, a delimiter, or a rune that is not of the language. -/
def Lexeme.symbol (b : UInt8) (rest : Text) : Lexeme :=
  match Kind.ofByte? b with
  | some kind =>
    match kind.withEquals?, rest.head? with
    | some double, some 0x3d => ⟨double, [b, 0x3d], 2⟩
    | _, _ => ⟨kind, [b], 1⟩
  | none =>
    let rune := Text.firstRune b rest
    ⟨.illegal, rune, rune.length⟩

/-- The token that starts with a byte that is not blank. -/
def Lexeme.read (b : UInt8) (rest : Text) : Lexeme :=
  if b = 0x22 then .string rest
  else if Text.isDigit b then
    let digits := (b :: rest).takeWhile Text.isDigit
    ⟨.int, digits, digits.length⟩
  else if isLetter b then
    let word := (b :: rest).takeWhile isLetter
    ⟨Kind.ofWord word, word, word.length⟩
  else .symbol b rest

/-- What is left of a source, and the position reached in it. -/
structure Cursor where
  rest : Text
  pos : Position
  deriving DecidableEq, Repr

namespace Cursor

/-- The start of a source. -/
def ofSource (source : Text) : Cursor :=
  ⟨source, .start⟩

/-- Move over the next `n` bytes. -/
def advance (c : Cursor) (n : Nat) : Cursor :=
  ⟨c.rest.drop n, c.pos.after (c.rest.take n)⟩

/-- Move over blanks. -/
def skipBlanks (c : Cursor) : Cursor :=
  c.advance (c.rest.takeWhile isBlank).length

/-- The token at a cursor that is not before a blank, and the cursor after it. -/
def read (c : Cursor) : Token × Cursor :=
  match c.rest with
  | [] => (⟨.eof, [], ⟨c.pos, c.pos⟩⟩, c)
  | b :: rest =>
    let lexeme := Lexeme.read b rest
    let after := c.advance lexeme.size
    (⟨lexeme.kind, lexeme.literal, ⟨c.pos, after.pos⟩⟩, after)

/-- The next token, and the cursor after it. -/
def next (c : Cursor) : Token × Cursor :=
  c.skipBlanks.read

/-- The tokens up to the first end token or, if that comes first, up to `n` tokens before the last;
and the cursor after them. -/
def tokensUpTo : Nat → Cursor → List Token × Cursor
  | 0, c => ([c.next.1], c.next.2)
  | n + 1, c =>
    let (token, after) := c.next
    if token.kind = .eof then ([token], after)
    else
      let (tokens, last) := tokensUpTo n after
      (token :: tokens, last)

/-- The tokens up to and including the first end token, and the cursor after them. Each of the
others takes at least one byte, so as many as there are bytes left suffice. -/
def tokens (c : Cursor) : List Token × Cursor :=
  c.tokensUpTo c.rest.length

end Cursor

/-- The tokens of a source, ended by its end token. -/
def tokenize (source : Text) : List Token :=
  (Cursor.ofSource source).tokens.1

end Monkey
