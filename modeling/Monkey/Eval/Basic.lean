import Monkey.Eval.Builtin

/-!
# Evaluation

Evaluation follows the tree. Each node that is there counts as one step, and so do a block and a
name that are missing; an expression or a statement that is not there is null at no cost. After each
part of a node the rule looks whether it yielded a fault, and if so passes it on: before another
part is evaluated, before a name is bound and before a function is called.

What a call does is a parameter of the rules for nodes, since a function's body is not part of the
tree that calls it, and `invoke` ties the knot: its number is how many more calls may be inside one
another. How many already are is in the interpreter. A call that is entered adds one, and takes it
off again however the call ends.
-/

namespace Monkey

open Interpret

variable {σ : Type} [Eventful σ]

/-- What the rules for nodes depend on: the limits, and what it is to call a value. -/
structure Engine (σ : Type) where
  limits : Limits
  apply : Value → List Value → Interpret σ Value

/-- The value of a name: what it is bound to, or else the built-in function of that name. -/
def resolve (scope : ScopeId) (name : Text) : Interpret σ Value := do
  let bound := (← interpreter).heap.get? scope name
  if bound.isSome then attempt (present bound)
  else
    match Builtin.ofName? name with
    | some b => return .builtin b
    | none => return .error (.unbound name)

mutual

/-- Evaluate an expression in a scope. -/
def Expr.evaluate (m : Engine σ) (scope : ScopeId) : Expr → Interpret σ Value
  | .absent => return .null
  | .nameless => node m.limits do
    return .null
  | .foreign _ => node m.limits do
    throw (.crash .unhandledNode)
  | .ident _ name => node m.limits do
    resolve scope name
  | .int _ value => node m.limits do
    return .int value
  | .bool _ value => node m.limits do
    return .bool value
  | .str _ value => node m.limits do
    return .str value
  | .unary _ op operand => node m.limits do
    if operand.isAbsent then return .null
    else
      let v ← operand.evaluate m scope
      if v.isError then return v
      else
        perform (.used operand v)
        return .ofExcept (op.apply v)
  | .binary _ op left right => node m.limits do
    if right.isAbsent then return .null
    else
      let l ← left.evaluate m scope
      if l.isError then return l
      else
        perform (.used left l)
        let r ← right.evaluate m scope
        if r.isError then return r
        else
          perform (.used right r)
          attempt (op.compute l r)
  | .cond _ test consequence alternative => node m.limits do
    let v ← test.evaluate m scope
    if v.isError then return v
    else
      perform (.used test v)
      if v.isTruthy then consequence.evaluate m scope
      else if alternative.isAbsent then return .null
      else alternative.evaluate m scope
  | .fn _ params body => node m.limits do
    return .fn (← fresh) (params.map (Option.map Binder.name)) body scope
  | .call _ callee args => node m.limits do
    let f ← callee.evaluate m scope
    if f.isError then return f
    else
      perform (.used callee f)
      match ← evaluateExprs m scope args with
      | .error v => return v
      | .ok vs => m.apply f vs
  | .array _ elements => node m.limits do
    match ← evaluateExprs m scope elements with
    | .error v => return v
    | .ok vs => return .array (← fresh) vs
  | .index _ left index => node m.limits do
    let l ← left.evaluate m scope
    if l.isError then return l
    else
      perform (.used left l)
      let i ← index.evaluate m scope
      if i.isError then return i
      else
        perform (.used index i)
        attempt (l.pick i)
  | .hash _ pairs => node m.limits do
    match ← evaluatePairs m scope pairs [] with
    | .error v => return v
    | .ok entries => return .hash (← fresh) entries

/-- Evaluate expressions from left to right, up to the first that yields a fault. -/
def evaluateExprs (m : Engine σ) (scope : ScopeId) :
    List Expr → Interpret σ (Except Value (List Value))
  | [] => return .ok []
  | e :: rest => do
    let v ← e.evaluate m scope
    if v.isError then return .error v
    else
      perform (.used e v)
      match ← evaluateExprs m scope rest with
      | .error v => return .error v
      | .ok vs => return .ok (v :: vs)

/-- Evaluate keys with their values, and store them in a table one after the other, up to the first
fault. -/
def evaluatePairs (m : Engine σ) (scope : ScopeId) :
    List (Expr × Expr) → Table Value → Interpret σ (Except Value (Table Value))
  | [], table => return .ok table
  | (k, v) :: rest, table => do
    let key ← k.evaluate m scope
    if key.isError then return .error key
    else
      perform (.used k key)
      match key.key? with
      | none => return .error (.error (.unusableKey key.tag))
      | some key =>
        let value ← v.evaluate m scope
        if value.isError then return .error value
        else
          perform (.used v value)
          evaluatePairs m scope rest (table.insert key value)

/-- Evaluate a statement in a scope. -/
def Stmt.evaluate (m : Engine σ) (scope : ScopeId) : Stmt → Interpret σ Value
  | .absent => return .null
  | .bind _ name value => node m.limits do
    if value.isAbsent || name.isNone then return .null
    else
      let v ← value.evaluate m scope
      if v.isError then return v
      else
        perform (.used value v)
        let binder ← attempt (present name)
        perform (.bound scope binder.name v)
        return .null
  | .ret _ value => node m.limits do
    let v ← value.evaluate m scope
    if v.isError then return v
    else
      perform (.used value v)
      return .returned (← fresh) v
  | .expr _ expr => node m.limits do
    expr.evaluate m scope
  | .block block => block.evaluate m scope

/-- Evaluate statements until one yields a return wrapper or a fault. The value is that of the last
one evaluated, or the given one if there is none. -/
def evaluateStatements (m : Engine σ) (scope : ScopeId) (last : Value) :
    List Stmt → Interpret σ Value
  | [] => return last
  | s :: rest => do
    let v ← s.evaluate m scope
    if v.isReturned || v.isError then return v else evaluateStatements m scope v rest

/-- Evaluate a block in a scope; a return wrapper is left to the caller. -/
def Block.evaluate (m : Engine σ) (scope : ScopeId) : Block → Interpret σ Value
  | .absent => node m.limits do
    return .null
  | .of _ statements => node m.limits do
    evaluateStatements m scope .null statements

end

/-- Bind parameters from a place on to the arguments at these places. Missing arguments are null,
and those left over are dropped. -/
def bindFrom (scope : ScopeId) (args : List Value) :
    (place : Nat) → List (Option Text) → Interpret σ Unit
  | _, [] => return
  | place, param :: rest => do
    let name ← attempt (present param)
    if place < args.length then
      let v ← attempt (item args place)
      perform (.bound scope name v)
    else perform (.bound scope name .null)
    bindFrom scope args (place + 1) rest

/-- What a call of a function does once it is entered. -/
def enter (m : Engine σ) (outer : ScopeId) (params : List (Option Text)) (body : Block)
    (args : List Value) : Interpret σ Value := do
  let scope ← enclose outer
  bindFrom scope args 0 params
  let v ← body.evaluate m scope
  return v.unwrapped

/-- Call a value, with at most `calls` calls inside one another. -/
def invoke (limits : Limits) : (calls : Nat) → Value → List Value → Interpret σ Value
  | 0, _, _ => throw .exhausted
  | calls + 1, f, args =>
    match f with
    | .fn _ params body outer => do
      perform (.call .attempted)
      let i ← interpreter
      if 0 < limits.depth ∧ limits.depth ≤ i.depth then
        exceed (text "call depth limit exceeded") limits.depth (.depthLimit limits.depth)
      else
        perform (.call .entered)
        tryFinally (enter ⟨limits, invoke limits calls⟩ outer params body args)
          (perform (.call .left))
    | .builtin b => do
      let v ← b.invoke args
      perform (.yielded v)
      return v
    | f => return .error (.notFunction f.tag)

/-- The engine that evaluates a tree, with at most `calls` calls inside one another. -/
def Engine.ofLimits (limits : Limits) (calls : Nat) : Engine σ :=
  ⟨limits, invoke limits calls⟩

/-- Evaluate any node in a scope. A return wrapper ends a program and is taken off. -/
def Node.evaluate (m : Engine σ) (scope : ScopeId) : Node → Interpret σ Value
  | .program p => node m.limits do
    let v ← evaluateStatements m scope .null p.statements
    return v.unwrapped
  | .stmt s => s.evaluate m scope
  | .expr e => e.evaluate m scope

end Monkey
