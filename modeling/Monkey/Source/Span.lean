import Monkey.Text.Basic

/-!
# Places in a source

A position counts bytes: its offset from the start of the source, its line from one, and its column
from one. A span is the stretch from one position up to another. Both are plain numbers, so that a
tree built by hand may carry any.
-/

namespace Monkey

/-- A place in a source. -/
structure Position where
  offset : Int
  line : Int
  column : Int
  deriving DecidableEq, Repr, Inhabited

namespace Position

/-- The start of every source. -/
def start : Position :=
  ⟨0, 1, 1⟩

/-- The position after one more byte: a newline ends the line. -/
def next (p : Position) (b : UInt8) : Position :=
  if b = 0x0a then ⟨p.offset + 1, p.line + 1, 1⟩ else ⟨p.offset + 1, p.line, p.column + 1⟩

/-- The position after a stretch of bytes. -/
def after (p : Position) (t : Text) : Position :=
  t.foldl next p

/-- A position for people: line and column. -/
def describe (p : Position) : Text :=
  Text.ofInt p.line ++ text ":" ++ Text.ofInt p.column

end Position

/-- A stretch of a source, from its start up to but not including its stop. -/
structure Span where
  start : Position
  stop : Position
  deriving DecidableEq, Repr, Inhabited

namespace Span

/-- The number of bytes in a span. -/
def length (s : Span) : Int :=
  s.stop.offset - s.start.offset

/-- The span from the earlier start to the later stop. Of two equal offsets the first span's
position is kept. -/
def join (s other : Span) : Span where
  start := if other.start.offset < s.start.offset then other.start else s.start
  stop := if s.stop.offset < other.stop.offset then other.stop else s.stop

/-- A span for people: where it starts and where it stops. -/
def describe (s : Span) : Text :=
  s.start.describe ++ text ".." ++ s.stop.describe

end Span

end Monkey
