import Monkey.Text.Utf8
import Monkey.Text.Printable

/-!
# Quoted text

A text between double quotes, for people to read: printable characters stand for themselves, the
quote and the backslash are escaped, control characters have their names or a number, and a stray
byte is written in hexadecimal.
-/

namespace Monkey.Text

/-- The letter that names a control character after a backslash. -/
def controlName? (c : Char) : Option Char :=
  match c.toNat with
  | 0x07 => some 'a'
  | 0x08 => some 'b'
  | 0x09 => some 't'
  | 0x0a => some 'n'
  | 0x0b => some 'v'
  | 0x0c => some 'f'
  | 0x0d => some 'r'
  | _ => none

/-- A rune as it stands in quoted text. -/
def Rune.quoted : Rune → Text
  | .byte b => text "\\x" ++ hex 2 b.toNat
  | .char c =>
    if c = '"' ∨ c = '\\' then text "\\" ++ String.utf8EncodeChar c
    else if Printable.isPrintable c then String.utf8EncodeChar c
    else match controlName? c with
      | some name => text "\\" ++ String.utf8EncodeChar name
      | none =>
        let n := c.toNat
        if n < 0x80 then text "\\x" ++ hex 2 n
        else if n < 0x10000 then text "\\u" ++ hex 4 n
        else text "\\U" ++ hex 8 n

/-- A text between double quotes. -/
def quoted (t : Text) : Text :=
  text "\"" ++ t.runes.flatMap Rune.quoted ++ text "\""

end Monkey.Text
