import Monkey.Text.Quoted

/-!
# Log records

A record has a level, a message and attributes. Printed, it is one line of `key=value` pairs, where
a text is quoted if it is empty or would otherwise be ambiguous.
-/

namespace Monkey

/-- The level of a record. -/
inductive LogLevel where
  | debug
  | info
  | warn
  | error
  deriving DecidableEq, Repr, Inhabited

namespace LogLevel

/-- The name of a level. -/
def name : LogLevel → Text
  | .debug => text "DEBUG"
  | .info => text "INFO"
  | .warn => text "WARN"
  | .error => text "ERROR"

/-- How severe a level is. -/
def rank : LogLevel → Nat
  | .debug => 0
  | .info => 1
  | .warn => 2
  | .error => 3

end LogLevel

/-- A record of a log. -/
structure LogRecord where
  level : LogLevel
  message : Text
  attributes : List (Text × Text) := []
  deriving DecidableEq, Repr, Inhabited

namespace LogRecord

/-- Whether a rune makes it necessary to quote the text it stands in. -/
def needsQuotes : Text.Rune → Bool
  | .byte _ => true
  | .char c =>
    if c.toNat < 0x80 then c.toNat < 0x20 || c = ' ' || c = '=' || c = '"'
    else c = Char.ofNat 0xfffd || !Text.Printable.isPrintable c

/-- A text as it stands in a printed record. -/
def shown (t : Text) : Text :=
  if t.isEmpty || t.runes.any needsQuotes then t.quoted else t

/-- A printed record: level, message and attributes. -/
def print (r : LogRecord) : Text :=
  text "level=" ++ r.level.name ++ text " msg=" ++ shown r.message
    ++ r.attributes.flatMap (fun a => text " " ++ shown a.1 ++ text "=" ++ shown a.2)
    ++ text "\n"

end LogRecord

/-- The printed records of a log that are at least as severe as a threshold. -/
def printLog (threshold : LogLevel) (records : List LogRecord) : Text :=
  (records.filter fun r => threshold.rank ≤ r.level.rank).flatMap LogRecord.print

end Monkey
