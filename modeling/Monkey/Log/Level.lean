import Monkey.Log.Record
import Monkey.Text.Space

/-!
# Names of log levels

A level is named in any case and with white space around the name.
-/

namespace Monkey

/-- A character in lower case, as far as that gives an ASCII letter: the capital letters of ASCII,
the capital I with a dot above, and the sign for kelvin. -/
def lowerLetter (c : Char) : Char :=
  if 'A' ≤ c ∧ c ≤ 'Z' then Char.ofNat (c.toNat + 0x20)
  else if c.toNat = 0x130 then 'i'
  else if c.toNat = 0x212a then 'k'
  else c

/-- A text in lower case, as far as that gives ASCII letters. -/
def Text.lowerLetters (t : Text) : Text :=
  t.runes.flatMap fun
    | .char c => String.utf8EncodeChar (lowerLetter c)
    | .byte b => [b]

namespace LogLevel

/-- The names of the levels. -/
def named : List (Text × LogLevel) :=
  [(text "debug", .debug), (text "info", .info), (text "warn", .warn), (text "warning", .warn),
    (text "error", .error)]

/-- The level with a name. -/
def ofName? (name : Text) : Option LogLevel :=
  named.lookup name.trim.lowerLetters

/-- What is said of a name that no level has. -/
def unknownMessage (name : Text) : Text :=
  text "unknown log level " ++ name.quoted

end LogLevel

end Monkey
