import Monkey.Eval.Run

/-!
# What happens in an evaluation

An evaluation that passes on a fault as soon as it meets one might as well stop there. These are the
rules of evaluation without the checks: a fault ends all that is around it, and so nothing has to
look for it. The depth of a call is not counted but known from where the call stands, and what is
taken from lists and tables is there or null.

A traced evaluation yields, besides its result, the list of the events that happen in it: each node
that is counted, each value that a node, a built-in function or a limit check yields, each value
that another node uses, and each change of the world. It cannot change the world otherwise: the
world after it is the world before it with the effects of its events, and what no event says did not
happen.

Nothing runs like this. It is how evaluations are reasoned about, since what a rule does after a
fault need not be asked at every place; that evaluations come to the same is shown once for all of
them.
-/

namespace Monkey

/-- Why an evaluation stopped: by a fault of the program, by a crash, or because it used up the
calls it was given. -/
inductive Stop where
  | fault (f : Fault)
  | crash (c : Crash)
  | exhausted
  deriving DecidableEq, Repr, Inhabited

/-- The world after some events. -/
def World.after (w : World) (es : List EvalEvent) : World :=
  es.foldl EvalEvent.effect w

@[simp] theorem World.after_append (w : World) (es es' : List EvalEvent) :
    w.after (es ++ es') = (w.after es).after es' :=
  List.foldl_append

/-- An evaluation that yields the events that happen in it. -/
def Traced (α : Type) : Type :=
  World → List EvalEvent × Except Stop α

namespace Traced

variable {α β : Type}

/-- One evaluation, and another one with its value if it has one. -/
protected def bind (x : Traced α) (k : α → Traced β) : Traced β := fun w =>
  match x w with
  | (es, .ok a) => (es ++ (k a (w.after es)).1, (k a (w.after es)).2)
  | (es, .error s) => (es, .error s)

instance : Monad Traced where
  pure a := fun _ => ([], .ok a)
  bind := Traced.bind

theorem bind_of_ok {x : Traced α} {k : α → Traced β} {w : World} {es : List EvalEvent} {a : α}
    (h : x w = (es, .ok a)) :
    (x >>= k) w = (es ++ (k a (w.after es)).1, (k a (w.after es)).2) := by
  show Traced.bind x k w = _
  rw [Traced.bind, h]

theorem bind_of_error {x : Traced α} {k : α → Traced β} {w : World} {es : List EvalEvent} {s : Stop}
    (h : x w = (es, .error s)) : (x >>= k) w = (es, .error s) := by
  show Traced.bind x k w = _
  rw [Traced.bind, h]

/-- Let an event happen. -/
def perform (e : EvalEvent) : Traced Unit :=
  fun _ => ([e], .ok ())

/-- The world as it is. -/
def world : Traced World :=
  fun w => ([], .ok w)

/-- Stop. -/
def stop (s : Stop) : Traced α :=
  fun _ => ([], .error s)

/-- Stop with a fault. -/
def fail (f : Fault) : Traced α :=
  stop (.fault f)

/-- Yield a value that was read; a stored fault takes effect here. -/
def raise : Value → Traced Value
  | .error f => fail f
  | v => pure v

/-- A computation on values as a part of an evaluation. -/
def ofExcept : Except Fault α → Traced α
  | .ok a => pure a
  | .error f => fail f

/-- A computation that may crash as a part of an evaluation. -/
def attempt : Except Crash α → Traced α
  | .ok a => pure a
  | .error c => stop (.crash c)

/-- Take the next identity. -/
def fresh : Traced Ref := do
  let w ← world
  perform .drew
  return w.nextRef

/-- Make a scope inside another, and yield its number. -/
def enclose (outer : ScopeId) : Traced ScopeId := do
  let w ← world
  perform (.enclosed outer)
  return w.heap.nextId

/-- Note in the log that a limit was exceeded, yield the fault, and stop. -/
def exceed (message : Text) (limit : Int) (f : Fault) : Traced α := do
  perform (.logged { level := .warn, message, attributes := [(text "limit", Text.ofInt limit)] })
  perform (.yielded (.error f))
  fail f

/-- Count a node that is about to be evaluated, and stop if it is one too many. -/
def step (limits : Limits) : Traced Unit := do
  perform .counted
  let w ← world
  if 0 < limits.steps ∧ limits.steps < w.steps then
    exceed (text "step limit exceeded") limits.steps (.stepLimit limits.steps)

/-- The event that a result is yielded: a fault is yielded as a value. -/
def yieldOf : Except Stop Value → List EvalEvent
  | .ok v => [.yielded v]
  | .error (.fault f) => [.yielded (.error f)]
  | .error _ => []

/-- Say what an evaluation yields. -/
def noted (x : Traced Value) : Traced Value :=
  fun w => ((x w).1 ++ yieldOf (x w).2, (x w).2)

/-- Say that the value of an expression is used. -/
def used (e : Expr) (x : Traced Value) : Traced Value := do
  let v ← x
  perform (.used e v)
  return v

end Traced

open Traced

/-- A traced call of a built-in function. -/
def Builtin.trace : Builtin → List Value → Traced Value
  | .len, [.str t] => return .int (Int64.ofNat t.runeCount)
  | .len, [.array _ items] => return .int (Int64.ofNat items.length)
  | .len, [v] => fail (.noLength v.tag)
  | .len, args => fail (.wrongArity args.length 1)
  | .puts, args => do
    printAll args
    return .null
  | .first, args => return (← arrayArgument .first args).head?.getD .null
  | .last, args => return (← arrayArgument .last args).getLast?.getD .null
  | .rest, args => do
    match ← arrayArgument .rest args with
    | [] => return .null
    | _ :: tail => return .array (← fresh) tail.dropLast
  | .push, [.array _ items, v] => return .array (← fresh) (items ++ [v])
  | .push, [v, _] => fail (.notArray .push v.tag)
  | .push, args => fail (.wrongArity args.length 2)
where
  arrayArgument (function : Builtin) : List Value → Traced (List Value)
    | [.array _ items] => pure items
    | [v] => fail (.notArray function v.tag)
    | args => fail (.wrongArity args.length 1)
  printAll : List Value → Traced Unit
    | [] => return
    | v :: others => do
      let shown ← attempt v.shown
      perform (.printed (shown ++ text "\n"))
      printAll others

/-- What the traced rules for nodes depend on: the limits, and what it is to call a value. -/
structure Tracer where
  limits : Limits
  apply : Value → List Value → Traced Value

/-- The traced value of a name. -/
def traceLookup (scope : ScopeId) (name : Text) : Traced Value := do
  match (← world).heap.get? scope name with
  | some v => raise v
  | none =>
    match Builtin.ofName? name with
    | some b => return .builtin b
    | none => fail (.unbound name)

mutual

/-- Evaluate an expression in a scope. -/
def Expr.trace (m : Tracer) (scope : ScopeId) : Expr → Traced Value
  | .absent => return .null
  | .nameless => noted do
    step m.limits
    return .null
  | .foreign _ => noted do
    step m.limits
    stop (.crash .unhandledNode)
  | .ident _ name => noted do
    step m.limits
    traceLookup scope name
  | .int _ value => noted do
    step m.limits
    return .int value
  | .bool _ value => noted do
    step m.limits
    return .bool value
  | .str _ value => noted do
    step m.limits
    return .str value
  | .unary _ op operand => noted do
    step m.limits
    if operand.isAbsent then return .null
    else
      let v ← used operand (operand.trace m scope)
      ofExcept (op.apply v)
  | .binary _ op left right => noted do
    step m.limits
    if right.isAbsent then return .null
    else
      let l ← used left (left.trace m scope)
      let r ← used right (right.trace m scope)
      ofExcept (op.apply l r)
  | .cond _ test consequence alternative => noted do
    step m.limits
    let v ← used test (test.trace m scope)
    if v.isTruthy then consequence.trace m scope
    else if alternative.isAbsent then return .null
    else alternative.trace m scope
  | .fn _ params body => noted do
    step m.limits
    return .fn (← fresh) (params.map (Option.map Binder.name)) body scope
  | .call _ callee args => noted do
    step m.limits
    let f ← used callee (callee.trace m scope)
    let vs ← traceExprs m scope args
    m.apply f vs
  | .array _ elements => noted do
    step m.limits
    let vs ← traceExprs m scope elements
    return .array (← fresh) vs
  | .index _ left index => noted do
    step m.limits
    let l ← used left (left.trace m scope)
    let i ← used index (index.trace m scope)
    raise (← ofExcept (l.select i))
  | .hash _ pairs => noted do
    step m.limits
    let entries ← tracePairs m scope pairs []
    return .hash (← fresh) entries

/-- Evaluate expressions from left to right, and use their values. -/
def traceExprs (m : Tracer) (scope : ScopeId) : List Expr → Traced (List Value)
  | [] => return []
  | e :: rest => do
    let v ← used e (e.trace m scope)
    let vs ← traceExprs m scope rest
    return v :: vs

/-- Evaluate keys with their values, and store them in a table one after the other. -/
def tracePairs (m : Tracer) (scope : ScopeId) :
    List (Expr × Expr) → Table Value → Traced (Table Value)
  | [], table => return table
  | (k, v) :: rest, table => do
    let key ← used k (k.trace m scope)
    match key.key? with
    | none => fail (.unusableKey key.tag)
    | some key =>
      let value ← used v (v.trace m scope)
      tracePairs m scope rest (table.insert key value)

/-- Evaluate a statement in a scope. -/
def Stmt.trace (m : Tracer) (scope : ScopeId) : Stmt → Traced Value
  | .absent => return .null
  | .bind _ name value => noted do
    step m.limits
    match name, value.isAbsent with
    | some name, false =>
      let v ← used value (value.trace m scope)
      perform (.bound scope name.name v)
      return .null
    | _, _ => return .null
  | .ret _ value => noted do
    step m.limits
    let v ← used value (value.trace m scope)
    return .returned (← fresh) v
  | .expr _ expr => noted do
    step m.limits
    expr.trace m scope
  | .block block => block.trace m scope

/-- Evaluate statements until one yields a return wrapper. -/
def traceStatements (m : Tracer) (scope : ScopeId) (last : Value) : List Stmt → Traced Value
  | [] => return last
  | s :: rest => do
    let v ← s.trace m scope
    if v.isReturned then return v else traceStatements m scope v rest

/-- Evaluate a block in a scope; a return wrapper is left to the caller. -/
def Block.trace (m : Tracer) (scope : ScopeId) : Block → Traced Value
  | .absent => noted do
    step m.limits
    return .null
  | .of _ statements => noted do
    step m.limits
    traceStatements m scope .null statements

end

/-- Take a return wrapper off a value. -/
def traceUnwrap : Value → Traced Value
  | .returned _ v => raise v
  | v => return v

/-- Bind parameters to arguments. Missing arguments are null, and those left over are dropped. -/
def traceParams (scope : ScopeId) : List (Option Text) → List Value → Traced Unit
  | [], _ => return
  | none :: _, _ => stop (.crash .absent)
  | some p :: ps, args => do
    perform (.bound scope p (args.head?.getD .null))
    traceParams scope ps args.tail

/-- Call a value, with at most `calls` calls inside one another and `depth` calls around. -/
def traceCall (limits : Limits) : (calls depth : Nat) → Value → List Value → Traced Value
  | 0, _, _, _ => stop .exhausted
  | calls + 1, depth, f, args =>
    match f with
    | .fn _ params body outer =>
      if 0 < limits.depth ∧ limits.depth ≤ depth then
        exceed (text "call depth limit exceeded") limits.depth (.depthLimit limits.depth)
      else do
        let scope ← enclose outer
        traceParams scope params args
        let v ← body.trace ⟨limits, traceCall limits calls (depth + 1)⟩ scope
        traceUnwrap v
    | .builtin b => do raise (← noted (b.trace args))
    | f => fail (.notFunction f.tag)

/-- Evaluate any node in a scope. -/
def Node.trace (m : Tracer) (scope : ScopeId) : Node → Traced Value
  | .program p => noted do
    step m.limits
    let v ← traceStatements m scope .null p.statements
    traceUnwrap v
  | .stmt s => s.trace m scope
  | .expr e => e.trace m scope

/-- The tracer of a tree, with at most `calls` calls inside one another. -/
def Tracer.ofLimits (limits : Limits) (calls : Nat) : Tracer :=
  ⟨limits, traceCall limits calls 0⟩

/-! ## How an evaluation ends -/

namespace Traced

variable {α β : Type}

/-- How an evaluation ends, and the world after it. -/
def run (x : Traced α) (w : World) : Except Stop α × World :=
  ((x w).2, w.after (x w).1)

/-- What follows an evaluation that has a value; nothing follows one that stopped. -/
def next (k : α → Traced β) : Except Stop α × World → Except Stop β × World
  | (.ok a, w) => (k a).run w
  | (.error s, w) => (.error s, w)

theorem run_bind (x : Traced α) (k : α → Traced β) (w : World) :
    (x >>= k).run w = next k (x.run w) := by
  rw [run, run]
  rcases hx : x w with ⟨es, s | a⟩
  · rw [bind_of_error hx]
    rfl
  · rw [bind_of_ok hx, World.after_append]
    rfl

/-- That a value is yielded makes no difference to how an evaluation ends. -/
theorem run_noted (x : Traced Value) (w : World) : (noted x).run w = x.run w := by
  show ((x w).2, w.after ((x w).1 ++ yieldOf (x w).2)) = ((x w).2, w.after (x w).1)
  rw [World.after_append]
  rcases (x w).2 with (f | _ | _) | v <;> rfl

/-- That a value is used makes no difference to how an evaluation ends. -/
theorem run_used (e : Expr) (x : Traced Value) (w : World) : (used e x).run w = x.run w := by
  rw [used, run_bind]
  rcases x.run w with ⟨_ | _, _⟩ <;> rfl

/-- Without a limit a step only counts. -/
theorem run_step {limits : Limits} (h : limits.steps ≤ 0) (w : World) :
    (step limits).run w = (.ok (), { w with steps := w.steps + 1 }) := by
  show ((if 0 < limits.steps ∧ limits.steps < ((w.steps + 1 : Nat) : Int) then
      exceed (text "step limit exceeded") limits.steps (.stepLimit limits.steps)
      else Pure.pure () : Traced Unit)).run { w with steps := w.steps + 1 } = _
  rw [if_neg fun hc => Int.not_lt.mpr h hc.1]
  rfl

end Traced

/-- What a run makes of how the evaluation of its tree went: a fault is its result, and is noted in
the log. -/
def conclude : Except Stop Value × World → Outcome × World
  | (.ok v, w) => (.value v, w)
  | (.error (.fault f), w) => (.value (.error f), { w with log := w.log ++ [f.report] })
  | (.error (.crash c), w) => (.crashed c, w)
  | (.error .exhausted, w) => (.exhausted, w)

end Monkey
