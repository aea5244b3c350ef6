import Monkey.Text.Basic

/-!
# Characters in bytes

A text is read as a sequence of runes: a well-formed UTF-8 encoding is one character, and a byte at
which no well-formed encoding starts is one rune of its own. Nothing is lost: the bytes of the runes
are the text. Counting, quoting and printing for people all go through this view.
-/

namespace Monkey.Text

/-- The six payload bits of a continuation byte. -/
def tail? (b : UInt8) : Option Nat :=
  if 0x80 ≤ b ∧ b < 0xC0 then some (b.toNat - 0x80) else none

/-- The character with a given number, if the number is in range and not a surrogate. -/
def scalar? (least n : Nat) : Option Char :=
  if least ≤ n ∧ n.isValidChar then some (Char.ofNat n) else none

/-- The character whose well-formed encoding a text starts with, and the bytes after it. Encodings
that are longer than need be, surrogates and numbers above U+10FFFF are not well-formed. -/
def decode? : Text → Option (Char × Text)
  | [] => none
  | a :: rest =>
    if a < 0x80 then some (Char.ofNat a.toNat, rest)
    else if a < 0xC0 then none
    else match rest with
      | [] => none
      | b :: rest =>
        if a < 0xE0 then do
          let c ← scalar? 0x80 ((a.toNat - 0xC0) * 64 + (← tail? b))
          return (c, rest)
        else match rest with
          | [] => none
          | c :: rest =>
            if a < 0xF0 then do
              let ch ← scalar? 0x800 (((a.toNat - 0xE0) * 64 + (← tail? b)) * 64 + (← tail? c))
              return (ch, rest)
            else match rest with
              | [] => none
              | d :: rest =>
                if a < 0xF8 then do
                  let ch ← scalar? 0x10000
                    ((((a.toNat - 0xF0) * 64 + (← tail? b)) * 64 + (← tail? c)) * 64 + (← tail? d))
                  return (ch, rest)
                else none

/-- A rune of a text: a character, or a byte at which no character starts. -/
inductive Rune where
  | char (c : Char)
  | byte (b : UInt8)
  deriving DecidableEq, Repr

/-- The bytes that a rune occupies. -/
def Rune.bytes : Rune → Text
  | .char c => String.utf8EncodeChar c
  | .byte b => [b]

/-- The first `n` runes of a text. -/
def runesUpTo : Nat → Text → List Rune
  | 0, _ => []
  | _ + 1, [] => []
  | n + 1, b :: rest =>
    match decode? (b :: rest) with
    | some (c, after) => .char c :: runesUpTo n after
    | none => .byte b :: runesUpTo n rest

/-- The runes of a text. Each takes at least one byte, so as many as there are bytes suffice. -/
def runes (t : Text) : List Rune :=
  runesUpTo t.length t

/-- The first rune's bytes, of a text that is not empty. -/
def firstRune (b : UInt8) (rest : Text) : Text :=
  match decode? (b :: rest) with
  | some (c, _) => String.utf8EncodeChar c
  | none => [b]

/-- The number of runes. -/
def runeCount (t : Text) : Nat :=
  t.runes.length

/-- The character that stands for a rune: itself, or U+FFFD for a stray byte. -/
def Rune.shown : Rune → Char
  | .char c => c
  | .byte _ => Char.ofNat 0xFFFD

/-- The text with U+FFFD in the place of every stray byte. -/
def repair (t : Text) : Text :=
  t.runes.flatMap fun r => String.utf8EncodeChar r.shown

/-- The string with these bytes, if they are valid UTF-8. -/
def toString? (t : Text) : Option String :=
  let rs := t.runes
  if rs.all (fun | .char _ => true | .byte _ => false) then some (String.ofList (rs.map Rune.shown))
  else none

/-- The text, padded with blanks on the right to a width in runes. -/
def padRight (width : Nat) (t : Text) : Text :=
  t ++ List.replicate (width - t.runeCount) 0x20

end Monkey.Text
