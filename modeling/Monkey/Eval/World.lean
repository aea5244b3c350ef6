import Monkey.Log.Record
import Monkey.Scope
import Monkey.Value.Datum
import Monkey.Value.Shown

/-!
# What an evaluation works on

A world holds all that an evaluation reads and changes: the heap of scopes, the next identity, the
count of nodes evaluated, what was printed, and the log. An interpreter is a world together with the
number of function calls that are open in it.

An evaluation is a function of the state that it works on. It reads the interpreter in it, and it
changes it only by letting events happen, one after the other (`Eventful`). A fault is a value like
any other: whoever evaluates a node has to look whether it yields one. Only a crash ends an
evaluation without a value, and so does running out of the calls it was given.
-/

namespace Monkey

/-- Bounds on an evaluation: how many nodes it may evaluate, and how many function calls may be
inside one another. A bound of zero or less is none. -/
structure Limits where
  steps : Int := 0
  depth : Int := 0
  deriving DecidableEq, Repr, Inhabited

/-- What an evaluation works on. -/
structure World where
  heap : Heap := {}
  nextRef : Ref := 0
  steps : Nat := 0
  output : Text := []
  log : List LogRecord := []
  deriving Inhabited

/-- A world, and the number of function calls that are open. -/
structure Interpreter extends World where
  depth : Nat := 0
  deriving Inhabited

/-! ## Events -/

/-- What happens to a call of a function: it is attempted, it is entered, and it is left. -/
inductive CallMark where
  | attempted
  | entered
  | left
  deriving DecidableEq, Repr, Inhabited

/-- Something that happens in an evaluation: a node is counted, a node or a built-in function or a
limit check yields a value, a node uses the value of an expression, a name is bound, a scope is made
inside another, an identity is taken, a text is printed, a record is logged, or a function is
called. -/
inductive EvalEvent where
  | counted
  | yielded (v : Value)
  | used (e : Expr) (v : Value)
  | bound (scope : ScopeId) (name : Text) (v : Value)
  | enclosed (outer : ScopeId)
  | drew
  | printed (t : Text)
  | logged (r : LogRecord)
  | call (mark : CallMark)

/-- What an event changes in a world. That a value is yielded or used changes nothing. -/
def EvalEvent.effect (w : World) : EvalEvent → World
  | .counted => { w with steps := w.steps + 1 }
  | .yielded _ | .used _ _ | .call _ => w
  | .bound scope name v => { w with heap := w.heap.bind scope name v }
  | .enclosed outer => { w with heap := w.heap.enclose outer }
  | .drew => { w with nextRef := w.nextRef + 1 }
  | .printed t => { w with output := w.output ++ t }
  | .logged r => { w with log := w.log ++ [r] }

/-- The number of open calls after an event. -/
def EvalEvent.depthAfter (depth : Nat) : EvalEvent → Nat
  | .call .entered => depth + 1
  | .call .left => depth - 1
  | _ => depth

/-- What an event changes in an interpreter. -/
def Interpreter.react (i : Interpreter) (e : EvalEvent) : Interpreter :=
  { toWorld := e.effect i.toWorld, depth := e.depthAfter i.depth }

/-- A state that an evaluation can work on: there is an interpreter in it, and events happen to it.
Nothing but events changes the interpreter, and each changes it in its own way. -/
class Eventful (σ : Type) where
  interpreter : σ → Interpreter
  perform : σ → EvalEvent → σ
  interpreter_perform (s : σ) (e : EvalEvent) :
    interpreter (perform s e) = (interpreter s).react e

instance : Eventful Interpreter where
  interpreter := id
  perform := Interpreter.react
  interpreter_perform _ _ := rfl

/-! ## Evaluations -/

/-- Why an evaluation ends without a value: by a crash, or because it used up the calls it was
given. -/
inductive Halt where
  | crash (c : Crash)
  | exhausted
  deriving DecidableEq, Repr, Inhabited

/-- An evaluation. -/
abbrev Interpret (σ : Type) := ExceptT Halt (StateM σ)

namespace Interpret

variable {σ α : Type} [Eventful σ]

/-- Let an event happen. -/
def perform (e : EvalEvent) : Interpret σ Unit :=
  modify fun s => Eventful.perform s e

/-- The interpreter as it is. -/
def interpreter : Interpret σ Interpreter :=
  return Eventful.interpreter (← get)

/-- A computation that may crash as a part of an evaluation. -/
def attempt : Except Crash α → Interpret σ α
  | .ok a => pure a
  | .error c => throw (.crash c)

/-- Take the next identity. -/
def fresh : Interpret σ Ref := do
  let i ← interpreter
  perform .drew
  return i.nextRef

/-- Make a scope inside another, and yield its number. -/
def enclose (outer : ScopeId) : Interpret σ ScopeId := do
  let i ← interpreter
  perform (.enclosed outer)
  return i.heap.nextId

/-- Note in the log that a limit was exceeded, and yield the fault. -/
def exceed (message : Text) (limit : Int) (f : Fault) : Interpret σ Value := do
  perform (.logged { level := .warn, message, attributes := [(text "limit", Text.ofInt limit)] })
  perform (.yielded (.error f))
  return .error f

/-- Evaluate a node by its rule, unless it is one too many. The node is counted before, and what it
yields is said after. -/
def node (limits : Limits) (rule : Interpret σ Value) : Interpret σ Value := do
  perform .counted
  let i ← interpreter
  let v ←
    if 0 < limits.steps ∧ limits.steps < i.steps then
      exceed (text "step limit exceeded") limits.steps (.stepLimit limits.steps)
    else rule
  perform (.yielded v)
  return v

end Interpret

end Monkey
