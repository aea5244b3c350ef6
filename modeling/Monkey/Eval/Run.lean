import Monkey.Eval.Basic
import Monkey.Syntax.Parse

/-!
# Running

A run evaluates a node in a scope of a world, with a step count and a depth of its own. If it yields
a fault, that is noted in the log. Every call takes a step and goes one call deeper, so a run with a
limit never needs more calls inside one another than the limit and one more; a run without limits is
given a number that no machine reaches.
-/

namespace Monkey

/-- The result of a run. -/
inductive Outcome where
  | value (v : Value)
  | crashed (c : Crash)
  | exhausted
  deriving Inhabited

/-- The result of a run whose evaluation ends so. -/
def Outcome.of : Except Halt Value → Outcome
  | .ok v => .value v
  | .error (.crash c) => .crashed c
  | .error .exhausted => .exhausted

/-- How many calls a run without limits may have inside one another. -/
def unlimitedCalls : Nat :=
  1000000000000

/-- How many calls a run may have inside one another. -/
def Limits.calls (limits : Limits) : Nat :=
  if 0 < limits.depth then limits.depth.toNat + 1
  else if 0 < limits.steps then limits.steps.toNat + 1
  else unlimitedCalls

/-- The record that a run ended with a fault. -/
def Fault.report (f : Fault) : LogRecord :=
  { level := .debug, message := text "evaluation failed"
    attributes := [(text "error", f.message)] }

/-- Evaluate a node, with at most `calls` calls inside one another, and report a fault. -/
def Node.interpret {σ : Type} [Eventful σ] (calls : Nat) (limits : Limits) (node : Node)
    (scope : ScopeId) : Interpret σ Value := do
  let v ← node.evaluate (.ofLimits limits calls) scope
  match v with
  | .error f => do
    Interpret.perform (.logged f.report)
    return v
  | _ => return v

/-- An interpreter that begins with a world. -/
def Interpreter.start (w : World) : Interpreter :=
  { w with steps := 0, depth := 0 }

/-- Run a node, with at most `calls` calls inside one another. -/
def runWith (calls : Nat) (limits : Limits) (node : Node) (scope : ScopeId) (w : World) :
    Outcome × World :=
  let (result, i) := (node.interpret calls limits scope).run (Interpreter.start w)
  (.of result, i.toWorld)

/-- Run a node. -/
def run (limits : Limits) (node : Node) (scope : ScopeId) (w : World) : Outcome × World :=
  runWith limits.calls limits node scope w

/-- A world with one empty scope, whose number is zero. -/
def World.fresh : World :=
  { heap := Heap.openTop {} }

end Monkey
