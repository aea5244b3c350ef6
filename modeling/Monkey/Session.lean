import Monkey.Eval.Run

/-!
# Sessions

A session evaluates one source after another in one scope, so that later sources see what earlier
ones bound. The step count starts anew for each source; the output and the log are those of the
source that was evaluated last.
-/

namespace Monkey

/-- A session: its limits and what it works on. Its scope is number zero. -/
structure Session where
  limits : Limits := {}
  world : World := .fresh

namespace Session

/-- Evaluate a node in the scope of the session. -/
def evaluate (s : Session) (node : Node) : Outcome × Session :=
  let (outcome, world) := run s.limits node 0 { s.world with output := [], log := [] }
  (outcome, { s with world })

/-- Bind a name to a datum, and yield the value it has. -/
def define (s : Session) (name : Text) (datum : Datum) : Value × Session :=
  let (value, nextRef) := datum.build.run s.world.nextRef
  (value, { s with world := { s.world with nextRef, heap := s.world.heap.bind 0 name value } })

/-- The value of a name. -/
def get? (s : Session) (name : Text) : Option Value :=
  s.world.heap.get? 0 name

/-- The names that are bound. -/
def names (s : Session) : List Text :=
  s.world.heap.names 0

end Session

end Monkey
