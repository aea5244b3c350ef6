/-!
# Text as bytes

Sources, strings, names and output are sequences of bytes, and nothing requires them to be valid
UTF-8. `Text` is that type, `text` turns a string constant into one, and the rest of the module is
the small stock of operations on bytes that the library needs: decimal numerals, joining, padding,
and the bytewise sorted lists of names.
-/

namespace Monkey

/-- A sequence of bytes. -/
abbrev Text := List UInt8

/-- The UTF-8 bytes of a string. -/
def text (s : String) : Text :=
  s.toList.flatMap String.utf8EncodeChar

namespace Text

/-! ## Numerals -/

/-- A natural number in decimal, without leading zeros. -/
def ofNat (n : Nat) : Text :=
  (Nat.toDigits 10 n).map fun c => c.toNat.toUInt8

/-- An integer in decimal, with a minus sign if it is negative. -/
def ofInt : Int → Text
  | .ofNat n => ofNat n
  | .negSucc n => text "-" ++ ofNat (n + 1)

/-- The word for a boolean. -/
def ofBool (b : Bool) : Text :=
  if b then text "true" else text "false"

/-- Whether a byte is an ASCII decimal digit. -/
def isDigit (b : UInt8) : Bool :=
  0x30 ≤ b && b ≤ 0x39

/-- The number that a sequence of ASCII digits denotes in decimal. -/
def decimal (digits : Text) : Nat :=
  digits.foldl (fun n b => n * 10 + (b.toNat - 0x30)) 0

/-- The digit that stands for a number below sixteen, in lower case. -/
def hexDigit (n : Nat) : UInt8 :=
  if n < 10 then (0x30 + n).toUInt8 else (0x57 + n).toUInt8

/-- The last `width` hexadecimal digits of a number. -/
def hex : (width : Nat) → Nat → Text
  | 0, _ => []
  | width + 1, n => hex width (n / 16) ++ [hexDigit (n % 16)]

/-! ## Joining and padding -/

/-- The parts with a separator between any two neighbours. -/
def join (separator : Text) : List Text → Text
  | [] => []
  | [part] => part
  | part :: parts => part ++ separator ++ join separator parts

/-- The lines, each ended by a newline. -/
def unlines (lines : List Text) : Text :=
  lines.flatMap (· ++ text "\n")

/-- The part of a text after a given start, if the text does start so. -/
def afterStart? (start t : Text) : Option Text :=
  if start.isPrefixOf t then some (t.drop start.length) else none

/-! ## Sorted names -/

/-- Insert a name into a strictly increasing list, once. -/
def insertName (name : Text) : List Text → List Text
  | [] => [name]
  | n :: ns =>
    if name < n then name :: n :: ns
    else if name = n then n :: ns
    else n :: insertName name ns

/-- The distinct names of a list in bytewise order. -/
def sortNames (names : List Text) : List Text :=
  names.foldr insertName []

end Text

end Monkey
