import Monkey.Text.Utf8

/-!
# White space

Space between words as Unicode has it, not only the four bytes that separate tokens.
-/

namespace Monkey.Text

/-- Whether a character is white space. -/
def isSpace (c : Char) : Bool :=
  let n := c.toNat
  (0x09 ≤ n && n ≤ 0x0d) || n = 0x20 || n = 0x85 || n = 0xa0 || n = 0x1680
    || (0x2000 ≤ n && n ≤ 0x200a) || n = 0x2028 || n = 0x2029 || n = 0x202f || n = 0x205f
    || n = 0x3000

/-- Whether a rune is white space; a stray byte is not. -/
def Rune.isSpace : Rune → Bool
  | .char c => Text.isSpace c
  | .byte _ => false

/-- The text without white space at its two ends. -/
def trim (t : Text) : Text :=
  let rs := t.runes.dropWhile Rune.isSpace
  (rs.reverse.dropWhile Rune.isSpace).reverse.flatMap Rune.bytes

/-- Whether a text is nothing but white space. -/
def isBlankText (t : Text) : Bool :=
  t.runes.all Rune.isSpace

end Monkey.Text
