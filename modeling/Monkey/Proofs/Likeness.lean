import Monkey.Proofs.Observed
import Monkey.Proofs.Relocation

/-!
# Evaluations that go alike

Two evaluations may differ in where their trees came from, in what was printed and logged before
they began, and in how many nodes were counted. A likeness says how their worlds compare: the second
heap is the first one with its origins rewritten, identities are the same, and counts, outputs and
logs are related in some way that is kept when both go on.

Evaluation looks at none of these but the count. So what is alike in the beginning is alike in the
end, and the second result is the first one with its origins rewritten (`Likeness.mirrors_node`):
one induction over the rules for nodes, from what holds of a single step and of calls.
-/

namespace Monkey

/-- Rewrite the origins in the result of a run. -/
def Outcome.relocate (node statement : Origin → Origin) : Outcome → Outcome
  | .value v => .value (v.relocate node statement)
  | .crashed c => .crashed c
  | .exhausted => .exhausted

/-- A fresh world has nothing to rewrite. -/
theorem World.relocate_fresh (node statement : Origin → Origin) :
    World.fresh.heap.relocate node statement = World.fresh.heap := by
  show Heap.mk ((#[].push {}).map (Scope.relocate node statement)) = ⟨#[].push {}⟩
  rw [Array.map_push, Array.map_empty]
  rfl

theorem Outcome.relocate_id (o : Outcome) : o.relocate id id = o := by
  cases o with
  | value v => exact congrArg Outcome.value v.relocate_id
  | _ => rfl

/-- How two worlds are alike: a way to rewrite origins that keeps literals, and relations between
the counts, the outputs and the logs that are kept when the same is added to both. -/
structure Likeness where
  node : Origin → Origin
  statement : Origin → Origin
  steps : Nat → Nat → Prop
  output : Text → Text → Prop
  log : List LogRecord → List LogRecord → Prop
  literal_node (o : Origin) : (node o).literal = o.literal
  steps_succ {n n' : Nat} : steps n n' → steps (n + 1) (n' + 1)
  output_append {t t' : Text} (more : Text) : output t t' → output (t ++ more) (t' ++ more)
  log_append {l l' : List LogRecord} (r : LogRecord) : log l l' → log (l ++ [r]) (l' ++ [r])

open Traced

namespace Likeness

/-- The worlds are the same but for origins. -/
def rewriting (node statement : Origin → Origin)
    (literal_node : ∀ o, (node o).literal = o.literal) : Likeness where
  node := node
  statement := statement
  steps := Eq
  output := Eq
  log := Eq
  literal_node := literal_node
  steps_succ h := congrArg (· + 1) h
  output_append more h := congrArg (· ++ more) h
  log_append r h := congrArg (· ++ [r]) h

/-- Two worlds are alike. -/
structure Like (L : Likeness) (w w' : World) : Prop where
  heap : w'.heap = w.heap.relocate L.node L.statement
  nextRef : w'.nextRef = w.nextRef
  steps : L.steps w.steps w'.steps
  output : L.output w.output w'.output
  log : L.log w.log w'.log

variable {L : Likeness} {α β γ δ : Type}

/-- From worlds that are alike one evaluation yields what another yields, mapped, or stops as that
one does, and the worlds are alike again. -/
def Mirrors (L : Likeness) (act : α → β) (x : Traced α) (y : Traced β) : Prop :=
  ∀ w w', L.Like w w' →
    (y.run w').1 = (x.run w).1.map act ∧ L.Like (x.run w).2 (y.run w').2

/-- The second form of a value. -/
def value (L : Likeness) : Value → Value :=
  Value.relocate L.node L.statement

/-- The second form of values. -/
def items (L : Likeness) : List Value → List Value :=
  relocateItems L.node L.statement

/-- The second form of a table. -/
def entries (L : Likeness) : Table Value → Table Value :=
  relocateEntries L.node L.statement

/-! ## Rules -/

namespace Mirrors

variable {act : α → β} {act' : γ → δ}

/-- A value mirrors its second form. -/
theorem pure (a : α) : L.Mirrors act (pure a) (pure (act a)) :=
  fun _ _ h => ⟨rfl, h⟩

/-- Both stop, and for the same reason. -/
theorem stop (s : Stop) : L.Mirrors act (stop s) (stop s) :=
  fun _ _ h => ⟨rfl, h⟩

/-- If the parts mirror each other and so does what is done with their values, the whole does. -/
theorem bind {x : Traced α} {y : Traced β} {k : α → Traced γ} {l : β → Traced δ}
    (hx : L.Mirrors act x y) (hk : ∀ a, L.Mirrors act' (k a) (l (act a))) :
    L.Mirrors act' (x >>= k) (y >>= l) := by
  intro w w' h
  obtain ⟨hresult, hlike⟩ := hx w w' h
  rw [run_bind, run_bind]
  rcases hx : x.run w with ⟨s | a, u⟩ <;> rcases hy : y.run w' with ⟨r, u'⟩ <;>
    rw [hx, hy] at hresult hlike <;> obtain rfl := hresult
  · exact ⟨rfl, hlike⟩
  · exact hk a u u' hlike

/-- What an evaluation is said to yield makes no difference. -/
theorem noted {x y : Traced Value} {act : Value → Value} (h : L.Mirrors act x y) :
    L.Mirrors act (noted x) (noted y) := by
  intro w w' hlike
  rw [run_noted, run_noted]
  exact h w w' hlike

/-- For which expression a value is used makes no difference. -/
theorem used {e e' : Expr} {x y : Traced Value} {act : Value → Value} (h : L.Mirrors act x y) :
    L.Mirrors act (used e x) (used e' y) := by
  intro w w' hlike
  rw [run_used, run_used]
  exact h w w' hlike

theorem ite {c : Prop} [Decidable c] {x x' : Traced α} {y y' : Traced β} (hx : L.Mirrors act x y)
    (hy : L.Mirrors act x' y') : L.Mirrors act (if c then x else x') (if c then y else y') := by
  by_cases hc : c
  · rw [if_pos hc, if_pos hc]
    exact hx
  · rw [if_neg hc, if_neg hc]
    exact hy

/-- A stored fault has no origins, so it takes effect in both. -/
theorem raise (v : Value) : L.Mirrors L.value (Traced.raise v) (Traced.raise (L.value v)) := by
  cases v with
  | error f => exact .stop (.fault f)
  | _ => exact .pure _

/-- A computation on values mirrors its mapped result. -/
theorem ofExcept (x : Except Fault α) :
    L.Mirrors act (Traced.ofExcept x) (Traced.ofExcept (x.map act)) := by
  cases x with
  | error f => exact .stop (.fault f)
  | ok a => exact .pure a

theorem logged (r : LogRecord) : L.Mirrors id (perform (.logged r)) (perform (.logged r)) :=
  fun _ _ h => ⟨rfl, { h with log := L.log_append r h.log }⟩

/-- What is printed is added to both outputs. -/
theorem printed (t : Text) : L.Mirrors id (perform (.printed t)) (perform (.printed t)) :=
  fun _ _ h => ⟨rfl, { h with output := L.output_append t h.output }⟩

/-- Saying what is yielded changes neither world. -/
theorem yielded (v : Value) : L.Mirrors id (perform (.yielded v)) (perform (.yielded v)) :=
  fun _ _ h => ⟨rfl, h⟩

/-- The record of a limit is added to both logs before both stop. -/
theorem exceed (message : Text) (limit : Int) (f : Fault) :
    L.Mirrors act (Traced.exceed message limit f) (Traced.exceed message limit f) :=
  (logged _).bind fun _ => Mirrors.bind (yielded _) fun _ => .stop (.fault f)

/-- Identities are the same, so the next one is. -/
theorem fresh : L.Mirrors id Traced.fresh Traced.fresh := by
  intro w w' h
  exact ⟨congrArg Except.ok h.nextRef, { h with nextRef := congrArg (· + 1) h.nextRef }⟩

/-- Binding the second form of a value to a name keeps the heaps alike. -/
theorem bound (scope : ScopeId) (name : Text) (v : Value) :
    L.Mirrors id (perform (.bound scope name v))
      (perform (.bound scope name (L.value v))) := by
  intro w w' h
  refine ⟨rfl, { h with heap := ?_ }⟩
  show w'.heap.bind scope name (L.value v) = (w.heap.bind scope name v).relocate _ _
  rw [h.heap]
  exact w.heap.bind_relocate scope name v

/-- The new scopes have the same number. -/
theorem enclose (outer : ScopeId) : L.Mirrors id (enclose outer) (enclose outer) := by
  intro w w' h
  refine ⟨congrArg Except.ok ?_, { h with heap := ?_ }⟩
  · show w'.heap.nextId = w.heap.nextId
    rw [h.heap, Heap.nextId_relocate]
  · show w'.heap.enclose outer = (w.heap.enclose outer).relocate _ _
    rw [h.heap]
    exact w.heap.enclose_relocate outer

/-- A step is alike if the counts are the same, for only then the limit is exceeded in both. -/
theorem step (limits : Limits) (h : ∀ n n', L.steps n n' → n = n') :
    L.Mirrors id (Traced.step limits) (Traced.step limits) := by
  intro w w' hlike
  have hcounted : L.Like { w with steps := w.steps + 1 } { w' with steps := w'.steps + 1 } :=
    { hlike with steps := L.steps_succ hlike.steps }
  have hrest : L.Mirrors id
      (if 0 < limits.steps ∧ limits.steps < ((w.steps + 1 : Nat) : Int) then
        Traced.exceed (text "step limit exceeded") limits.steps (.stepLimit limits.steps)
        else Pure.pure () : Traced Unit)
      (if 0 < limits.steps ∧ limits.steps < ((w'.steps + 1 : Nat) : Int) then
        Traced.exceed (text "step limit exceeded") limits.steps (.stepLimit limits.steps)
        else Pure.pure () : Traced Unit) := by
    -- both counts are compared with the limit, so they have to be the same
    rw [h _ _ hlike.steps]
    exact .ite (.exceed _ _ _) (.pure ())
  exact hrest _ _ hcounted

/-- Without a limit a step is alike, whatever the counts are. -/
theorem unlimitedStep {limits : Limits} (h : limits.steps ≤ 0) :
    L.Mirrors id (Traced.step limits) (Traced.step limits) := by
  intro w w' hlike
  rw [Traced.run_step h, Traced.run_step h]
  exact ⟨rfl, { hlike with steps := L.steps_succ hlike.steps }⟩

end Mirrors

/-! ## Names and built-in functions -/

/-- What a name stands for, by what it is bound to. -/
def standsFor (name : Text) : Option Value → Traced Value
  | some v => Traced.raise v
  | none =>
    match Builtin.ofName? name with
    | some b => return .builtin b
    | none => Traced.fail (.unbound name)

/-- To look a name up is to ask the heap what it is bound to. -/
theorem run_lookup (scope : ScopeId) (name : Text) (w : World) :
    (traceLookup scope name).run w = (standsFor name (w.heap.get? scope name)).run w :=
  rfl

theorem mirrors_standsFor (name : Text) (v? : Option Value) :
    L.Mirrors L.value (standsFor name v?) (standsFor name (v?.map L.value)) := by
  cases v? with
  | some v => exact .raise v
  | none =>
      rw [Option.map_none, standsFor]
      cases Builtin.ofName? name with
      | some b => exact .pure (Value.builtin b)
      | none => exact .stop _

/-- Names are bound to second forms in the second heap, so looking one up goes alike. -/
theorem mirrors_lookup (scope : ScopeId) (name : Text) :
    L.Mirrors L.value (traceLookup scope name) (traceLookup scope name) := by
  intro w w' h
  have hfound : w'.heap.get? scope name = (w.heap.get? scope name).map L.value := by
    rw [h.heap, Heap.get?_relocate]
    rfl
  rw [run_lookup, run_lookup, hfound]
  exact mirrors_standsFor name _ w w' h

/-- The second form of a list has the second forms of its elements. -/
theorem items_eq_map (vs : List Value) : L.items vs = vs.map L.value :=
  relocateItems_eq_map vs

theorem length_items (vs : List Value) : (L.items vs).length = vs.length := by
  rw [items_eq_map, List.length_map]

/-- What is not there is null in both. -/
theorem getD_null (v? : Option Value) : (v?.map L.value).getD .null = L.value (v?.getD .null) := by
  cases v? <;> rfl

/-- What is called with the wrong number of arguments fails alike. -/
theorem mirrors_wrongArity (args : List Value) (wanted : Nat) :
    L.Mirrors L.value (Traced.fail (.wrongArity args.length wanted))
      (Traced.fail (.wrongArity (L.items args).length wanted)) := by
  rw [length_items]
  exact .stop _

/-- New arrays get the same identity. -/
theorem mirrors_newArray (vs : List Value) :
    L.Mirrors L.value (do return .array (← fresh) vs)
      (do return .array (← fresh) (L.items vs)) :=
  Mirrors.fresh.bind fun ref => .pure (Value.array ref vs)

/-- An argument that is an array stays one in its second form. -/
theorem mirrors_arrayArgument (b : Builtin) (args : List Value) :
    L.Mirrors L.items (Builtin.trace.arrayArgument b args)
      (Builtin.trace.arrayArgument b (L.items args)) := by
  rcases args with _ | ⟨v, _ | ⟨u, rest⟩⟩
  · exact .stop _
  · cases v with
    | array ref vs => exact .pure vs
    | _ => exact .stop _
  · have hmany : L.Mirrors L.items (Traced.fail (.wrongArity (v :: u :: rest).length 1))
        (Traced.fail (.wrongArity (L.items (v :: u :: rest)).length 1)) := by
      rw [length_items]
      exact .stop _
    -- with two arguments or more the first one does not matter
    cases v <;> exact hmany

/-- A text that is shown, or a crash. -/
theorem Mirrors.attempt (x : Except Crash α) :
    L.Mirrors id (Traced.attempt x) (Traced.attempt x) := by
  cases x with
  | ok a => exact .pure a
  | error c => exact .stop _

/-- People see the same text of a value and of its second form. -/
theorem mirrors_printAll (vs : List Value) :
    L.Mirrors id (Builtin.trace.printAll vs) (Builtin.trace.printAll (L.items vs)) := by
  induction vs with
  | nil => exact .pure ()
  | cons v others ih =>
      have hshown : (L.value v).shown = v.shown := v.shown_relocate L.literal_node
      show L.Mirrors id _ (do
        let shown ← attempt (L.value v).shown
        perform (.printed (shown ++ text "\n"))
        Builtin.trace.printAll (L.items others))
      rw [hshown]
      exact (Mirrors.attempt v.shown).bind fun _ => (Mirrors.printed _).bind fun _ => ih

/-- No built-in function looks at an origin. -/
theorem mirrors_builtin (b : Builtin) (args : List Value) :
    L.Mirrors L.value (b.trace args) (b.trace (L.items args)) := by
  cases b with
  | len =>
      rcases args with _ | ⟨v, _ | ⟨u, rest⟩⟩
      · exact .stop _
      · cases v with
        | str t => exact .pure (Value.int _)
        | array ref vs =>
            show L.Mirrors L.value (pure (.int (Int64.ofNat vs.length)))
              (pure (.int (Int64.ofNat (L.items vs).length)))
            rw [length_items]
            exact .pure (Value.int _)
        | _ => exact .stop _
      · have hmany := mirrors_wrongArity (L := L) (v :: u :: rest) 1
        cases v <;> exact hmany
  | puts => exact (mirrors_printAll args).bind fun _ => .pure Value.null
  | first =>
      refine (mirrors_arrayArgument .first args).bind fun vs => ?_
      rw [items_eq_map, List.head?_map, getD_null]
      exact .pure _
  | last =>
      refine (mirrors_arrayArgument .last args).bind fun vs => ?_
      rw [items_eq_map, List.getLast?_map, getD_null]
      exact .pure _
  | rest =>
      refine (mirrors_arrayArgument .rest args).bind fun vs => ?_
      cases vs with
      | nil => exact .pure Value.null
      | cons v tail =>
          show L.Mirrors L.value (do return .array (← fresh) tail.dropLast)
            (do return .array (← fresh) (L.items tail).dropLast)
          -- taking elements of a list goes together with taking second forms
          rw [items_eq_map, ← List.map_dropLast, ← items_eq_map]
          exact mirrors_newArray _
  | push =>
      rcases args with _ | ⟨v, _ | ⟨u, _ | ⟨t, rest⟩⟩⟩
      · exact .stop _
      · cases v <;> exact .stop _
      · cases v with
        | array ref vs =>
            show L.Mirrors L.value (do return .array (← fresh) (vs ++ [u]))
              (do return .array (← fresh) (L.items vs ++ [L.value u]))
            rw [items_eq_map, ← List.map_singleton (f := L.value), ← List.map_append,
              ← items_eq_map]
            exact mirrors_newArray _
        | _ => exact .stop _
      · have hmany := mirrors_wrongArity (L := L) (v :: u :: t :: rest) 2
        cases v <;> exact hmany

/-! ## Nodes -/

/-- The steps and the calls of two tracers are alike. -/
structure Tracers (L : Likeness) (m m' : Tracer) : Prop where
  step : L.Mirrors id (Traced.step m.limits) (Traced.step m'.limits)
  apply (f : Value) (vs : List Value) :
    L.Mirrors L.value (m.apply f vs) (m'.apply (L.value f) (L.items vs))

variable {m m' : Tracer}

/-- A node that is counted goes alike if its rule does. -/
theorem Tracers.node {x y : Traced Value} (h : L.Tracers m m') (hx : L.Mirrors L.value x y) :
    L.Mirrors L.value (noted (Traced.step m.limits >>= fun _ => x))
      (noted (Traced.step m'.limits >>= fun _ => y)) :=
  (h.step.bind fun _ => hx).noted

mutual

/-- A tree goes alike when the origins in it are rewritten. -/
theorem mirrors_expr (h : L.Tracers m m') (scope : ScopeId) : (e : Expr) →
    L.Mirrors L.value (e.trace m scope) ((e.relocate L.node L.statement).trace m' scope)
  | .absent => .pure Value.null
  | .nameless => h.node (.pure Value.null)
  | .foreign _ => h.node (.stop _)
  | .ident _ name => h.node (mirrors_lookup scope name)
  | .int _ value => h.node (.pure (Value.int value))
  | .bool _ value => h.node (.pure (Value.bool value))
  | .str _ value => h.node (.pure (Value.str value))
  | .unary _ op operand => by
      refine h.node ?_
      rw [Expr.isAbsent_relocate]
      refine .ite (.pure Value.null) ((mirrors_expr h scope operand).used.bind fun v => ?_)
      rw [value, op.apply_relocate]
      exact .ofExcept _
  | .binary _ op left right => by
      refine h.node ?_
      rw [Expr.isAbsent_relocate]
      refine .ite (.pure Value.null) ((mirrors_expr h scope left).used.bind fun l =>
        (mirrors_expr h scope right).used.bind fun r => ?_)
      rw [value, op.apply_relocate]
      exact .ofExcept _
  | .cond _ test consequence alternative => by
      refine h.node ((mirrors_expr h scope test).used.bind fun v => ?_)
      rw [value, Value.isTruthy_relocate, Block.isAbsent_relocate]
      exact .ite (mirrors_block h scope consequence)
        (.ite (.pure Value.null) (mirrors_block h scope alternative))
  | .fn _ params body => by
      refine h.node (Mirrors.fresh.bind fun ref => ?_)
      rw [names_relocate]
      exact .pure (Value.fn ref (params.map (Option.map Binder.name)) body scope)
  | .call _ callee args =>
      h.node <| (mirrors_expr h scope callee).used.bind fun f =>
        (mirrors_exprs h scope args).bind fun vs => h.apply f vs
  | .array _ elements =>
      h.node <| (mirrors_exprs h scope elements).bind fun vs =>
        Mirrors.fresh.bind fun ref => .pure (Value.array ref vs)
  | .index _ left index => by
      refine h.node ((mirrors_expr h scope left).used.bind fun l =>
        (mirrors_expr h scope index).used.bind fun i => ?_)
      rw [value, Value.select_relocate]
      exact (Mirrors.ofExcept _).bind fun v => .raise v
  | .hash _ pairs =>
      h.node <| (mirrors_pairs h scope pairs []).bind fun table =>
        Mirrors.fresh.bind fun ref => .pure (Value.hash ref table)

/-- Expressions go alike one after the other. -/
theorem mirrors_exprs (h : L.Tracers m m') (scope : ScopeId) : (es : List Expr) →
    L.Mirrors L.items (traceExprs m scope es)
      (traceExprs m' scope (relocateExprs L.node L.statement es))
  | [] => .pure []
  | e :: rest => (mirrors_expr h scope e).used.bind fun v =>
      (mirrors_exprs h scope rest).bind fun vs => .pure (v :: vs)

/-- Tables stay second forms of each other while pairs are stored in them. -/
theorem mirrors_pairs (h : L.Tracers m m') (scope : ScopeId) :
    (pairs : List (Expr × Expr)) → (table : Table Value) →
    L.Mirrors L.entries (tracePairs m scope pairs table)
      (tracePairs m' scope (relocatePairs L.node L.statement pairs) (L.entries table))
  | [], table => .pure table
  | (k, v) :: rest, table => by
      refine (mirrors_expr h scope k).used.bind fun key => ?_
      rw [value, Value.key?_relocate, Value.tag_relocate]
      cases key.key? with
      | none => exact .stop _
      | some key =>
          refine (mirrors_expr h scope v).used.bind fun value => ?_
          have hrest := mirrors_pairs h scope rest (table.insert key value)
          rw [entries, ← Table.insert_relocate] at hrest
          exact hrest

/-- A statement goes alike when its origins are rewritten. -/
theorem mirrors_stmt (h : L.Tracers m m') (scope : ScopeId) : (s : Stmt) →
    L.Mirrors L.value (s.trace m scope) ((s.relocate L.node L.statement).trace m' scope)
  | .absent => .pure Value.null
  | .bind _ name value => by
      refine h.node ?_
      rw [Expr.isAbsent_relocate]
      cases name with
      | none => exact .pure Value.null
      | some name =>
          cases value.isAbsent with
          | true => exact .pure Value.null
          | false =>
              exact (mirrors_expr h scope value).used.bind fun v =>
                (Mirrors.bound scope name.name v).bind fun _ => .pure Value.null
  | .ret _ value =>
      h.node <| (mirrors_expr h scope value).used.bind fun v =>
        Mirrors.fresh.bind fun ref => .pure (Value.returned ref v)
  | .expr _ expr => h.node (mirrors_expr h scope expr)
  | .block block => mirrors_block h scope block

/-- Statements go alike one after the other, and end at the same one. -/
theorem mirrors_statements (h : L.Tracers m m') (scope : ScopeId) :
    (ss : List Stmt) → (last : Value) →
    L.Mirrors L.value (traceStatements m scope last ss)
      (traceStatements m' scope (L.value last) (relocateStatements L.node L.statement ss))
  | [], last => .pure last
  | s :: rest, last => by
      refine (mirrors_stmt h scope s).bind fun v => ?_
      rw [show (L.value v).isReturned = v.isReturned from Value.isReturned_relocate v]
      exact .ite (.pure v) (mirrors_statements h scope rest v)

/-- A block goes alike when its origins are rewritten. -/
theorem mirrors_block (h : L.Tracers m m') (scope : ScopeId) : (b : Block) →
    L.Mirrors L.value (b.trace m scope) ((b.relocate L.node L.statement).trace m' scope)
  | .absent => h.node (.pure Value.null)
  | .of _ statements => h.node (mirrors_statements h scope statements .null)

end

/-- A return wrapper is taken off both values. -/
theorem mirrors_unwrap (v : Value) :
    L.Mirrors L.value (traceUnwrap v) (traceUnwrap (L.value v)) := by
  cases v with
  | returned ref v => exact .raise v
  | _ => exact .pure _

/-! ## Calls -/

/-- Parameters are bound to second forms of the arguments. -/
theorem mirrors_params (scope : ScopeId) (params : List (Option Text)) (args : List Value) :
    L.Mirrors id (traceParams scope params args) (traceParams scope params (L.items args)) := by
  induction params generalizing args with
  | nil => exact .pure ()
  | cons p ps ih =>
      -- the next argument, or null if it is missing, and those after it
      have hhead : (L.items args).head?.getD .null = L.value (args.head?.getD .null) := by
        rw [items_eq_map, List.head?_map, getD_null]
      have htail : (L.items args).tail = L.items args.tail := by
        rw [items_eq_map, items_eq_map, List.map_tail]
      cases p with
      | none => exact .stop _
      | some p =>
          rw [traceParams, traceParams, hhead, htail]
          exact (Mirrors.bound scope p _).bind fun _ => ih args.tail

/-- What a call of a function does once the depth is checked. -/
theorem mirrors_closure (h : L.Tracers m m') (outer : ScopeId) (params : List (Option Text))
    (body : Block) (args : List Value) :
    L.Mirrors L.value
      (do
        let scope ← enclose outer
        traceParams scope params args
        let v ← body.trace m scope
        traceUnwrap v)
      (do
        let scope ← enclose outer
        traceParams scope params (L.items args)
        let v ← (body.relocate L.node L.statement).trace m' scope
        traceUnwrap v) :=
  (Mirrors.enclose outer).bind fun scope => (mirrors_params scope params args).bind fun _ =>
    (mirrors_block h scope body).bind fun v => mirrors_unwrap v

/-- What is not a function of the program is called alike at every depth. -/
theorem mirrors_otherCall {limits : Limits} {calls depth : Nat} {f : Value}
    (hf : ∀ ref params body outer, f ≠ .fn ref params body outer) (args : List Value) :
    L.Mirrors L.value (traceCall limits (calls + 1) depth f args)
      (traceCall limits (calls + 1) depth (L.value f) (L.items args)) := by
  cases f with
  | fn ref params body outer => exact absurd rfl (hf ref params body outer)
  | builtin b => exact (mirrors_builtin b args).noted.bind fun v => .raise v
  | _ => exact .stop _

/-- Calls go alike if steps do. The induction is on the calls that may be inside one another. -/
theorem mirrors_call {limits : Limits}
    (hstep : L.Mirrors id (Traced.step limits) (Traced.step limits)) (calls depth : Nat) (f : Value)
    (args : List Value) :
    L.Mirrors L.value (traceCall limits calls depth f args)
      (traceCall limits calls depth (L.value f) (L.items args)) := by
  induction calls generalizing depth f args with
  | zero => exact .stop .exhausted
  | succ calls ih =>
      cases f with
      | fn ref params body outer =>
          -- inside the call the tracer has one call less, where the induction hypothesis holds
          have hinner : L.Tracers ⟨limits, traceCall limits calls (depth + 1)⟩
              ⟨limits, traceCall limits calls (depth + 1)⟩ := ⟨hstep, ih (depth + 1)⟩
          exact .ite (.exceed _ _ _) (mirrors_closure hinner outer params body args)
      | _ =>
          refine mirrors_otherCall ?_ args
          rintro _ _ _ _ ⟨⟩

/-- Tracers with the same bounds are alike if steps are. -/
theorem tracers_ofLimits {limits : Limits}
    (hstep : L.Mirrors id (Traced.step limits) (Traced.step limits)) (calls : Nat) :
    L.Tracers (.ofLimits limits calls) (.ofLimits limits calls) :=
  ⟨hstep, mirrors_call hstep calls 0⟩

/-! ## Runs -/

/-- Any node goes alike when its origins are rewritten. -/
theorem mirrors_node (h : L.Tracers m m') (scope : ScopeId) (node : Node) :
    L.Mirrors L.value (node.trace m scope) ((node.relocate L.node L.statement).trace m' scope) := by
  cases node with
  | program p =>
      exact h.node <| (mirrors_statements h scope p.statements .null).bind fun v => mirrors_unwrap v
  | stmt s => exact mirrors_stmt h scope s
  | expr e => exact mirrors_expr h scope e

/-- What runs make of evaluations that go alike is alike. -/
theorem conclude_alike {x y : Traced Value} (hx : L.Mirrors L.value x y) {w w' : World}
    (hw : L.Like w w') :
    (conclude (y.run w')).1 = (conclude (x.run w)).1.relocate L.node L.statement ∧
      L.Like (conclude (x.run w)).2 (conclude (y.run w')).2 := by
  obtain ⟨hresult, hlike⟩ := hx w w' hw
  rcases hx : x.run w with ⟨r, u⟩
  rcases hy : y.run w' with ⟨r', u'⟩
  rw [hx, hy] at hresult hlike
  subst hresult
  -- only a fault adds to the logs, the same record to both
  rcases r with (f | _ | _) | v
  · exact ⟨rfl, { hlike with log := L.log_append f.report hlike.log }⟩
  · exact ⟨rfl, hlike⟩
  · exact ⟨rfl, hlike⟩
  · exact ⟨rfl, hlike⟩

end Likeness

end Monkey
