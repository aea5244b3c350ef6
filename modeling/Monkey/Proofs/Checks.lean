import Monkey.Proofs.Inside

/-!
# The checks come to the same as stopping

An evaluation has to look for a fault after every part of a node, and has to count the calls that
are open. One that stops at a fault does neither. They come to the same: from every state, an
evaluation yields the value that the traced one yields, or the fault that it stops with, and its
state is the one before with the events of the traced one, one after the other (`Realizes`). In
particular no rule goes on with a fault, and at the end as many calls are open as in the beginning.

The relation is kept by all that rules are built with. `Realizes.bind` is where the checks are
needed: what follows a part has to hand on its fault unchanged. So one induction over the rules for
nodes gives the relation for trees (`Node.realizes`), from what it is for calls.
-/

namespace Monkey

/-! ## States after events -/

/-- The interpreter after some events. -/
def Interpreter.after (i : Interpreter) (es : List EvalEvent) : Interpreter :=
  es.foldl Interpreter.react i

theorem Interpreter.after_append (i : Interpreter) (es es' : List EvalEvent) :
    i.after (es ++ es') = (i.after es).after es' :=
  List.foldl_append

/-- The world of an interpreter changes by the same events as a world by itself. -/
theorem Interpreter.toWorld_after (i : Interpreter) (es : List EvalEvent) :
    (i.after es).toWorld = i.toWorld.after es := by
  induction es generalizing i with
  | nil => rfl
  | cons e es ih => exact ih (i.react e)

/-- Some events leave as many calls open as there were. -/
def Level (es : List EvalEvent) : Prop :=
  ∀ i : Interpreter, (i.after es).depth = i.depth

theorem Level.nil : Level [] :=
  fun _ => rfl

/-- Events that leave the calls as they were may follow one another. -/
theorem Level.append {es es' : List EvalEvent} (h : Level es) (h' : Level es') :
    Level (es ++ es') := by
  intro i
  rw [Interpreter.after_append, h', h]

section

variable {σ : Type} [Eventful σ]

/-- The state after some events. -/
def Eventful.after (s : σ) (es : List EvalEvent) : σ :=
  es.foldl Eventful.perform s

theorem Eventful.after_append (s : σ) (es es' : List EvalEvent) :
    Eventful.after s (es ++ es') = Eventful.after (Eventful.after s es) es' :=
  List.foldl_append

/-- Whatever else a state holds, the interpreter in it changes by the events alone. -/
theorem Eventful.interpreter_after (s : σ) (es : List EvalEvent) :
    Eventful.interpreter (Eventful.after s es) = (Eventful.interpreter s).after es := by
  induction es generalizing s with
  | nil => rfl
  | cons e es ih =>
      rw [Eventful.after, List.foldl_cons, ← Eventful.after, ih, Eventful.interpreter_perform]
      rfl

/-- The world that an evaluation sees. -/
def Eventful.world (s : σ) : World :=
  (Eventful.interpreter s).toWorld

/-- The world that is seen after some events is the world with their effects. -/
theorem Eventful.world_after (s : σ) (es : List EvalEvent) :
    Eventful.world (Eventful.after s es) = (Eventful.world s).after es := by
  rw [Eventful.world, Eventful.interpreter_after, Interpreter.toWorld_after]
  rfl

end

/-! ## Results -/

/-- How the results of evaluations that stop are told without stopping: a fault is a result, too.
Other results are clear of faults. -/
structure Telling (α β : Type) where
  result : α → β
  fault : Fault → β
  clear : α → Prop

namespace Telling

variable {α β : Type}

/-- The result of an evaluation that does not stop at a fault. -/
def tell (T : Telling α β) : Except Stop α → Except Halt β
  | .ok a => .ok (T.result a)
  | .error (.fault f) => .ok (T.fault f)
  | .error (.crash c) => .error (.crash c)
  | .error .exhausted => .error .exhausted

/-- A value is told as it is. -/
def valueWith (clear : Value → Prop) : Telling Value Value where
  result := id
  fault := .error
  clear := clear

/-- What an evaluation yields: another value than a fault, or else the fault that ends it. -/
abbrev value : Telling Value Value :=
  valueWith fun v => v.isError = false

/-- What is taken from where values are stored, among which there may be faults. -/
abbrev stored : Telling Value Value :=
  valueWith fun _ => True

/-- What is evaluated for a part of a node is told apart from a fault. -/
def part (α : Type) : Telling α (Except Value α) where
  result := .ok
  fault f := .error (.error f)
  clear _ := True

end Telling

/-! ## The relation -/

section

variable {σ : Type} [Eventful σ] {α β γ δ : Type} {d : Nat} {T : Telling α β} {T' : Telling γ δ}

/-- With some number of calls open, an evaluation does what a traced one does and tells its
result. -/
structure Realizes (d : Nat) (T : Telling α β) (x : Interpret σ β) (y : Traced α) : Prop where
  run (s : σ) : (Eventful.interpreter s).depth = d →
    x.run s = (T.tell (y (Eventful.world s)).2, Eventful.after s (y (Eventful.world s)).1)
  level (w : World) : Level (y w).1
  clear (w : World) (es : List EvalEvent) (a : α) : y w = (es, .ok a) → T.clear a

namespace Traced

/-- Traced evaluations may be grouped in any way. -/
theorem bind_assoc (x : Traced α) (k : α → Traced β) (l : β → Traced γ) :
    x >>= k >>= l = x >>= fun a => k a >>= l := by
  funext w
  rcases hx : x w with ⟨es, s | a⟩
  · rw [bind_of_error (bind_of_error hx), bind_of_error hx]
  · rw [bind_of_ok hx]
    rcases hk : k a (w.after es) with ⟨es', s | b⟩
    · have hfirst : (x >>= k) w = (es ++ es', .error s) := by rw [bind_of_ok hx, hk]
      rw [bind_of_error hfirst, bind_of_error hk]
    · have hfirst : (x >>= k) w = (es ++ es', .ok b) := by rw [bind_of_ok hx, hk]
      rw [bind_of_ok hfirst, bind_of_ok hk, World.after_append, List.append_assoc]

end Traced

omit [Eventful σ] in
/-- What is done next, by how the first evaluation ends. -/
theorem Interpret.run_bind (x : Interpret σ β) (k : β → Interpret σ δ) (s : σ) :
    (x >>= k).run s =
      match x.run s with
      | (.ok b, s') => (k b).run s'
      | (.error h, s') => (.error h, s') := by
  show ExceptT.bindCont k (x.run s).1 (x.run s).2 = _
  rcases x.run s with ⟨_ | _, _⟩ <;> rfl

theorem Interpret.run_perform_bind (e : EvalEvent) (x : Interpret σ α) (s : σ) :
    (Interpret.perform e >>= fun _ => x).run s = x.run (Eventful.perform s e) :=
  rfl

namespace Realizes

/-- A value that is clear of faults is told as it is. -/
theorem pure {a : α} (h : T.clear a) :
    Realizes d T (pure (T.result a) : Interpret σ β) (pure a) where
  run _ _ := rfl
  level _ := .nil
  clear _ _ _ heq := by cases heq; exact h

/-- Where the traced evaluation stops with a fault, the fault is the result. -/
theorem fault (f : Fault) :
    Realizes d T (Pure.pure (T.fault f) : Interpret σ β) (Traced.fail f) where
  run _ _ := rfl
  level _ := .nil
  clear _ _ _ heq := by cases heq

/-- A crash ends both. -/
theorem crash (c : Crash) :
    Realizes d T (throw (.crash c) : Interpret σ β) (Traced.stop (.crash c)) where
  run _ _ := rfl
  level _ := .nil
  clear _ _ _ heq := by cases heq

/-- Both run out of calls. -/
theorem exhausted : Realizes d T (throw .exhausted : Interpret σ β) (Traced.stop .exhausted) where
  run _ _ := rfl
  level _ := .nil
  clear _ _ _ heq := by cases heq

/-- What follows a part of a node has to hand on a fault of the part, and does what the traced
evaluation does with any other result. -/
theorem bind {x : Interpret σ β} {y : Traced α} {k : β → Interpret σ δ} {l : α → Traced γ}
    (hx : Realizes d T x y) (hfault : ∀ f, k (T.fault f) = Pure.pure (T'.fault f))
    (hk : ∀ a, T.clear a → Realizes d T' (k (T.result a)) (l a)) :
    Realizes d T' (x >>= k) (y >>= l) where
  run s hs := by
    have hlevel := hx.level (Eventful.world s)
    rw [Interpret.run_bind, hx.run s hs]
    rcases hy : y (Eventful.world s) with ⟨es, (f | c | _) | a⟩
    -- a fault of the part: here it is a value, and what follows has to hand it on
    · rw [Traced.bind_of_error hy]
      show (k (T.fault f)).run _ = _
      rw [hfault]
      rfl
    · rw [Traced.bind_of_error hy]
      rfl
    · rw [Traced.bind_of_error hy]
      rfl
    -- any other value: as many calls are open again, so what follows realizes what it should
    · rw [hy] at hlevel
      have hdepth : (Eventful.interpreter (Eventful.after s es)).depth = d := by
        rw [Eventful.interpreter_after, hlevel]
        exact hs
      rw [Traced.bind_of_ok hy, Eventful.after_append, ← Eventful.world_after]
      exact (hk a (hx.clear _ _ _ hy)).run _ hdepth
  level w := by
    have hlevel := hx.level w
    rcases hy : y w with ⟨es, s | a⟩
    · rw [hy] at hlevel
      rw [Traced.bind_of_error hy]
      exact hlevel
    · rw [hy] at hlevel
      rw [Traced.bind_of_ok hy]
      exact hlevel.append ((hk a (hx.clear _ _ _ hy)).level _)
  clear w es c hc := by
    rcases hy : y w with ⟨es', s | a⟩
    · rw [Traced.bind_of_error hy] at hc
      cases hc
    · rw [Traced.bind_of_ok hy] at hc
      exact (hk a (hx.clear _ _ _ hy)).clear _ _ c (Prod.ext rfl (Prod.mk.inj hc).2)

/-- Both take the same branch. -/
theorem ite {c : Prop} [Decidable c] {x x' : Interpret σ β} {y y' : Traced α}
    (hx : c → Realizes d T x y) (hx' : ¬ c → Realizes d T x' y') :
    Realizes d T (if c then x else x') (if c then y else y') := by
  by_cases hc : c
  · rw [if_pos hc, if_pos hc]
    exact hx hc
  · rw [if_neg hc, if_neg hc]
    exact hx' hc

/-- An event that opens and closes no call, and what is done after it. -/
theorem perform {e : EvalEvent} (he : Level [e]) {x : Interpret σ β} {y : Traced α}
    (hx : Realizes d T x y) :
    Realizes d T (Interpret.perform e >>= fun _ => x) (Traced.perform e >>= fun _ => y) where
  run s hs := by
    have hdepth : (Eventful.interpreter (Eventful.after s [e])).depth = d := by
      rw [Eventful.interpreter_after, he]
      exact hs
    have hrun := hx.run _ hdepth
    rw [Eventful.world_after] at hrun
    exact hrun
  level w := he.append (hx.level _)
  clear w es a heq := hx.clear (w.after [e]) _ a (Prod.ext rfl (Prod.mk.inj heq).2)

/-- What depends on the state does so by what the interpreter is. -/
theorem interpreter {k : Interpreter → Interpret σ β} {l : World → Traced α}
    (h : ∀ i : Interpreter, i.depth = d → Realizes d T (k i) (l i.toWorld)) :
    Realizes d T (Interpret.interpreter >>= k) (Traced.world >>= l) where
  run s hs := (h _ hs).run s hs
  level w := (h ⟨w, d⟩ rfl).level w
  clear w es a heq := (h ⟨w, d⟩ rfl).clear w es a heq

/-- Both take the same identity, since both see the same world. -/
theorem fresh {k : Ref → Interpret σ β} {l : Ref → Traced α}
    (h : ∀ ref, Realizes d T (k ref) (l ref)) :
    Realizes d T (Interpret.fresh >>= k) (Traced.fresh >>= l) :=
  interpreter (k := fun i => Interpret.perform .drew >>= fun _ => k i.nextRef)
    (l := fun w => Traced.perform .drew >>= fun _ => l w.nextRef)
    fun i _ => perform (fun _ => rfl) (h i.nextRef)

/-- Both make the scope of the same number. -/
theorem enclose (outer : ScopeId) {k : ScopeId → Interpret σ β} {l : ScopeId → Traced α}
    (h : ∀ scope, Realizes d T (k scope) (l scope)) :
    Realizes d T (Interpret.enclose outer >>= k) (Traced.enclose outer >>= l) :=
  interpreter (k := fun i => Interpret.perform (.enclosed outer) >>= fun _ => k i.heap.nextId)
    (l := fun w => Traced.perform (.enclosed outer) >>= fun _ => l w.heap.nextId)
    fun i _ => perform (fun _ => rfl) (h i.heap.nextId)

/-- Handing on a stored value without looking at it realizes stopping at it if it is a fault. -/
theorem raise_pure (v : Value) :
    Realizes d .value (Pure.pure v : Interpret σ Value) (Traced.raise v) := by
  cases v with
  | error f => exact fault (T := .value) f
  | _ => exact pure (T := .value) rfl

/-- A value that was read: if it is a fault, the traced evaluation stops here. -/
theorem raise {x : Interpret σ Value} {y : Traced Value} (hx : Realizes d .stored x y) :
    Realizes d .value x (y >>= Traced.raise) := by
  rw [← bind_pure x]
  exact hx.bind (fun _ => rfl) fun v _ => raise_pure v

/-- A computation that gives a fault gives it as a value. -/
theorem ofExcept {p : Value → Prop} {r : Except Fault Value} (h : ∀ v, r = .ok v → p v) :
    Realizes d (.valueWith p) (Pure.pure (Value.ofExcept r) : Interpret σ Value)
      (Traced.ofExcept r) := by
  cases r with
  | ok v => exact pure (T := .valueWith p) (h v rfl)
  | error f => exact fault (T := .valueWith p) f

/-- What is yielded is said, whether it is a fault or not. -/
theorem noted {p : Value → Prop} {x : Interpret σ Value} {y : Traced Value}
    (hx : Realizes d (.valueWith p) x y) :
    Realizes d (.valueWith p)
      (x >>= fun v => Interpret.perform (.yielded v) >>= fun _ => Pure.pure v)
      (Traced.noted y) where
  run s hs := by
    rw [Interpret.run_bind, hx.run s hs]
    show _ = (Telling.tell _ (y (Eventful.world s)).2,
      Eventful.after s ((y (Eventful.world s)).1 ++ Traced.yieldOf (y (Eventful.world s)).2))
    rw [Eventful.after_append]
    rcases (y (Eventful.world s)).2 with (f | c | _) | v <;> rfl
  level w := by
    refine (hx.level w).append ?_
    rcases (y w).2 with (f | c | _) | v <;> exact fun _ => rfl
  clear w es v heq := hx.clear w (y w).1 v (Prod.ext rfl (Prod.mk.inj heq).2)

/-- What a part of a node yields is looked at: a fault is handed on, and the rule goes on with any
other value. -/
theorem used {e : Expr} {x : Interpret σ Value} {y : Traced Value} {handOn : Value → Interpret σ δ}
    {k : Value → Interpret σ δ} {l : Value → Traced γ} (hx : Realizes d .value x y)
    (hfault : ∀ f, handOn (.error f) = Pure.pure (T'.fault f))
    (hk : ∀ v, Realizes d T' (k v) (l v)) :
    Realizes d T'
      (x >>= fun v =>
        if v.isError then handOn v else Interpret.perform (.used e v) >>= fun _ => k v)
      (Traced.used e y >>= l) := by
  rw [Traced.used, Traced.bind_assoc]
  refine hx.bind hfault fun v hv => ?_
  have hclear : v.isError = false := hv
  show Realizes d T' (if v.isError = true then _ else _) _
  rw [if_neg (by rw [hclear]; exact Bool.false_ne_true), Traced.bind_assoc]
  exact perform (fun _ => rfl) (hk v)

/-- A limit that is exceeded is logged, and its fault is said and yielded. -/
theorem exceed (message : Text) (limit : Int) (f : Fault) :
    Realizes d .value (Interpret.exceed message limit f : Interpret σ Value)
      (Traced.exceed message limit f) :=
  perform (fun _ => rfl) (perform (fun _ => rfl) (fault (T := .value) f))

end Realizes

/-! ## Nodes -/

/-- A traced step by its parts: the count, the look at the world and the check. -/
theorem Traced.step_bind (limits : Limits) (y : Traced α) :
    (Traced.step limits >>= fun _ => y) = (Traced.perform .counted >>= fun _ =>
      Traced.world >>= fun w =>
        if 0 < limits.steps ∧ limits.steps < w.steps then
          Traced.exceed (text "step limit exceeded") limits.steps (.stepLimit limits.steps)
        else y) := by
  rw [Traced.step, Traced.bind_assoc]
  refine congrArg _ (funext fun _ => ?_)
  rw [Traced.bind_assoc]
  refine congrArg _ (funext fun w => ?_)
  split
  · rfl
  · rfl

/-- Unless it is one too many, the rule of a node is followed. -/
def Interpret.counted (limits : Limits) (rule : Interpret σ Value) : Interpret σ Value :=
  Interpret.perform .counted >>= fun _ => Interpret.interpreter >>= fun i =>
    if 0 < limits.steps ∧ limits.steps < i.steps then
      Interpret.exceed (text "step limit exceeded") limits.steps (.stepLimit limits.steps)
    else rule

/-- A node is its counted rule, and then what it yields is said. -/
theorem Interpret.node_eq (limits : Limits) (rule : Interpret σ Value) :
    Interpret.node limits rule =
      Interpret.counted limits rule >>= fun v => Interpret.perform (.yielded v) >>= fun _ =>
        pure v := by
  rw [Interpret.node, Interpret.counted, bind_assoc]
  refine congrArg _ (funext fun _ => ?_)
  rw [bind_assoc]
  refine congrArg _ (funext fun i => ?_)
  split <;> rfl

/-- A node realizes the traced node if its rule does: the limit is checked on the same count. -/
theorem Realizes.node {limits : Limits} {x : Interpret σ Value} {y : Traced Value}
    (hx : Realizes d .value x y) :
    Realizes d .value (Interpret.node limits x)
      (Traced.noted (Traced.step limits >>= fun _ => y)) := by
  rw [Interpret.node_eq, Traced.step_bind]
  refine .noted (.perform (fun _ => rfl) (.interpreter fun i _ => ?_))
  exact .ite (fun _ => .exceed _ _ _) fun _ => hx

/-! ## Operations behind their checks -/

/-- A place in a list that is there is no crash. -/
theorem item_eq {items : List α} {place : Int} {a : α} (hplace : 0 ≤ place)
    (h : items[place.toNat]? = some a) : item items place = .ok a := by
  rw [item, if_neg (Int.not_lt.mpr hplace), h]

/-- No division by zero is computed. -/
theorem BinaryOp.compute_eq (op : BinaryOp) (left right : Value) :
    op.compute left right = .ok (.ofExcept (op.apply left right)) := by
  unfold BinaryOp.compute
  split
  case h_1 l r =>
    -- the zero is looked for before the quotient is taken, which would crash
    by_cases hzero : r = 0
    · subst hzero
      rfl
    · show (if r = 0 then _ else _) = Except.ok (Value.ofExcept (if r = 0 then _ else _))
      rw [if_neg hzero, if_neg hzero, quotient, if_neg hzero]
      rfl
  case h_2 => rfl

/-- Nothing is taken from where there is nothing. -/
theorem Value.pick_eq (left index : Value) :
    left.pick index = .ok (.ofExcept (left.select index)) := by
  cases left with
  | array ref items =>
    cases index with
    | int place =>
      show (if _ then _ else _) = Except.ok (itemAt items place)
      rw [itemAt]
      -- the place is compared with both ends before the element is taken
      by_cases hneg : place < 0
      · rw [if_pos (.inl hneg), if_pos hneg]
        rfl
      · have hplace : 0 ≤ place.toInt := by
          rw [Int64.lt_iff_toInt_lt] at hneg
          exact Int.not_lt.mp hneg
        rw [if_neg hneg]
        by_cases hlength : (items.length : Int) ≤ place.toInt
        · rw [if_pos (.inr hlength), List.getElem?_eq_none (by omega)]
          rfl
        · have hget := List.getElem?_eq_getElem (l := items) (i := place.toInt.toNat) (by omega)
          rw [if_neg (not_or.mpr ⟨hneg, hlength⟩), item_eq hplace hget, hget]
          rfl
    | _ => rfl
  | hash ref entries =>
    rw [Value.pick, Value.select]
    cases index.key? with
    | none => rfl
    | some key =>
      show (if _ then _ else _) = Except.ok ((Table.find? key entries).getD .null)
      cases Table.find? key entries <;> rfl
  | _ => rfl

/-- The last element is there if there is any. -/
theorem item_last (v : Value) (others : List Value) :
    item (v :: others) (((v :: others).length : Int) - 1) =
      .ok ((v :: others).getLast?.getD .null) := by
  have hplace : (((v :: others).length : Int) - 1).toNat = (v :: others).length - 1 := by
    omega
  have hlast : (v :: others)[(((v :: others).length : Int) - 1).toNat]? =
      some ((v :: others).getLast (List.cons_ne_nil v others)) := by
    rw [hplace, ← List.getLast?_eq_getElem?, List.getLast?_eq_some_getLast]
  rw [item_eq (by rw [List.length_cons]; omega) hlast, List.getLast?_eq_some_getLast]
  rfl

/-- The elements between the first and the last are there, and so is room for them. -/
theorem slice_rest (v : Value) (others : List Value) {stop : Int}
    (hstop : stop = if ((v :: others).length : Int) - 1 < 1 then 1
      else ((v :: others).length : Int) - 1) :
    room (stop - 1) = .ok () ∧ slice (v :: others) 1 stop = .ok others.dropLast := by
  rw [List.length_cons] at hstop
  -- with one element the bound below is raised to one, so that nothing is taken from nothing
  cases others with
  | nil =>
    subst hstop
    exact ⟨rfl, rfl⟩
  | cons u others =>
    have hlength : stop = ((others.length + 1 : Nat) : Int) := by
      rw [hstop, List.length_cons]
      split <;> omega
    subst hlength
    refine ⟨if_neg (by omega), ?_⟩
    have hstop : ((others.length + 1 : Nat) : Int) ≤ (v :: u :: others).length := by
      rw [List.length_cons, List.length_cons]
      omega
    rw [slice, if_pos ⟨by omega, by omega, hstop⟩, List.dropLast_eq_take]
    rfl

namespace Realizes

/-- The one argument is taken after their number is looked at. -/
theorem arrayArgument (b : Builtin) (args : List Value) :
    Realizes d (.part (List Value))
      (Interpret.attempt (b.arrayOf args) : Interpret σ (Except Value (List Value)))
      (Builtin.trace.arrayArgument b args) := by
  have hfault (f : Fault) := fault (σ := σ) (d := d) (T := .part (List Value)) f
  rcases args with _ | ⟨v, _ | ⟨u, others⟩⟩
  · exact hfault _
  · cases v with
    | array ref items => exact pure (T := .part (List Value)) trivial
    | _ => exact hfault _
  · cases v <;> exact hfault _

/-- Printing stops at a value that cannot be shown, in both at the same one. -/
theorem printLines {k : Unit → Interpret σ β} {l : Unit → Traced α} (vs : List Value)
    (h : Realizes d T (k ()) (l ())) :
    Realizes d T (Builtin.printLines vs >>= k) (Builtin.trace.printAll vs >>= l) := by
  induction vs with
  | nil => exact h
  | cons v others ih =>
    rw [Builtin.printLines, Builtin.trace.printAll, bind_assoc, Traced.bind_assoc]
    cases v.shown with
    | error c => exact crash c
    | ok shown =>
      show Realizes d T ((Interpret.perform _ >>= fun _ => Builtin.printLines others) >>= k)
        ((Traced.perform _ >>= fun _ => Builtin.trace.printAll others) >>= l)
      rw [bind_assoc, Traced.bind_assoc]
      exact perform (fun _ => rfl) ih

/-- A new array takes one identity. -/
theorem newArray (items : List Value) :
    Realizes d .stored (Builtin.makeArray items : Interpret σ Value)
      (Traced.fresh >>= fun ref => Pure.pure (.array ref items)) :=
  fresh fun _ => pure (T := .stored) trivial

/-- The checks of a built-in function come before what they are for. -/
theorem builtin (b : Builtin) (args : List Value) :
    Realizes d .stored (b.invoke args : Interpret σ Value) (b.trace args) := by
  have hfault (f : Fault) := fault (σ := σ) (d := d) (T := .stored) f
  have hstored (v : Value) := pure (σ := σ) (d := d) (T := .stored) (a := v) trivial
  cases b with
  | len =>
    rcases args with _ | ⟨v, _ | ⟨u, others⟩⟩
    · exact hfault _
    · cases v with
      | str | array => exact hstored _
      | _ => exact hfault _
    · cases v <;> exact hfault _
  | puts => exact printLines args (hstored .null)
  | first =>
    refine (arrayArgument .first args).bind (fun _ => rfl) fun items _ => ?_
    cases items <;> exact hstored _
  | last =>
    refine (arrayArgument .last args).bind (fun _ => rfl) fun items _ => ?_
    cases items with
    | nil => exact hstored _
    | cons v others =>
      show Realizes d .stored (Interpret.attempt (item (v :: others) _)) _
      rw [item_last]
      exact hstored _
  | rest =>
    refine (arrayArgument .rest args).bind (fun _ => rfl) fun items _ => ?_
    cases items with
    | nil => exact hstored _
    | cons v others =>
      obtain ⟨hroom, hslice⟩ := slice_rest v others rfl
      show Realizes d .stored (Interpret.attempt (room _) >>= fun _ =>
        Interpret.attempt (slice _ _ _) >>= Builtin.makeArray) _
      -- neither making room nor slicing can crash behind the check for no elements
      rw [hroom, hslice]
      exact newArray others.dropLast
  | push =>
    rcases args with _ | ⟨v, _ | ⟨u, _ | ⟨_, others⟩⟩⟩
    · exact hfault _
    · cases v <;> exact hfault _
    · cases v with
      | array ref items => exact newArray (items ++ [u])
      | _ => exact hfault _
    · cases v <;> exact hfault _

/-- What a name is bound to is read after it is looked whether it is bound. -/
theorem resolve (scope : ScopeId) (name : Text) :
    Realizes d .value (Monkey.resolve scope name : Interpret σ Value) (traceLookup scope name) := by
  refine interpreter fun i _ => ?_
  cases i.heap.get? scope name with
  | some v => exact raise_pure v
  | none =>
    cases Builtin.ofName? name with
    | some b => exact pure (T := .value) rfl
    | none => exact fault (T := .value) _

/-- Taking off a return wrapper may bring out a stored fault, which the traced evaluation raises. -/
theorem unwrapped (v : Value) (hv : v.isError = false) :
    Realizes d .value (Pure.pure v.unwrapped : Interpret σ Value) (traceUnwrap v) := by
  cases v with
  | returned ref v => exact raise_pure v
  | _ => exact pure (T := .value) hv

/-- Each argument is taken after it is looked whether it is there. -/
theorem params {k : Unit → Interpret σ β} {l : Unit → Traced α} (scope : ScopeId)
    (args : List Value) (h : Realizes d T (k ()) (l ())) (place : Nat)
    (names : List (Option Text)) :
    Realizes d T (bindFrom scope args place names >>= k)
      (traceParams scope names (args.drop place) >>= l) := by
  induction names generalizing place with
  | nil => exact h
  | cons name others ih =>
    rw [bindFrom, bind_assoc]
    cases name with
    | none => exact crash .absent
    | some name =>
      -- the traced evaluation drops arguments one by one where this one counts places
      have hrest := ih (place + 1)
      rw [← List.tail_drop] at hrest
      rw [traceParams, Traced.bind_assoc, List.head?_drop]
      show Realizes d T ((if place < args.length then _ else _) >>= k) _
      by_cases hplace : place < args.length
      · have hget := List.getElem?_eq_getElem hplace
        rw [if_pos hplace, hget, item_eq (Int.natCast_nonneg place) hget]
        exact perform (fun _ => rfl) hrest
      · rw [if_neg hplace, List.getElem?_eq_none (Nat.le_of_not_lt hplace)]
        exact perform (fun _ => rfl) hrest

end Realizes

/-! ## Trees -/

/-- With some number of calls open, the calls of an engine do what those of a tracer do. -/
structure Engine.Realizes (d : Nat) (m : Engine σ) (t : Tracer) : Prop where
  limits : m.limits = t.limits
  apply (f : Value) (args : List Value) :
    Monkey.Realizes d .value (m.apply f args) (t.apply f args)

variable {m : Engine σ} {t : Tracer}

/-- A node whose rule is that of the tracer. -/
theorem Engine.Realizes.node (hm : m.Realizes d t) {x : Interpret σ Value} {y : Traced Value}
    (hx : Monkey.Realizes d .value x y) :
    Monkey.Realizes d .value (Interpret.node m.limits x)
      (Traced.noted (Traced.step t.limits >>= fun _ => y)) := by
  rw [hm.limits]
  exact hx.node

mutual

/-- Every node is evaluated as it is traced. -/
theorem Expr.realizes (hm : m.Realizes d t) (scope : ScopeId) :
    (e : Expr) → Realizes d .value (e.evaluate m scope) (e.trace t scope)
  | .absent => .pure (T := .value) rfl
  | .nameless => hm.node (.pure (T := .value) rfl)
  | .foreign _ => hm.node (.crash .unhandledNode)
  | .ident _ name => hm.node (.resolve scope name)
  | .int _ value => hm.node (.pure (T := .value) rfl)
  | .bool _ value => hm.node (.pure (T := .value) rfl)
  | .str _ value => hm.node (.pure (T := .value) rfl)
  | .unary _ op operand => by
    refine hm.node (.ite (fun _ => .pure (T := .value) rfl) fun _ => ?_)
    refine (operand.realizes hm scope).used (fun _ => rfl) fun v => ?_
    exact .ofExcept fun u hu => Value.isError_of_isAtom (UnaryOp.isAtom_apply hu)
  | .binary _ op left right => by
    refine hm.node (.ite (fun _ => .pure (T := .value) rfl) fun _ => ?_)
    refine (left.realizes hm scope).used (fun _ => rfl) fun l => ?_
    refine (right.realizes hm scope).used (fun _ => rfl) fun r => ?_
    rw [BinaryOp.compute_eq]
    exact .ofExcept fun u hu => Value.isError_of_isAtom (BinaryOp.isAtom_apply hu)
  | .cond _ test consequence alternative => by
    refine hm.node ((test.realizes hm scope).used (fun _ => rfl) fun v => ?_)
    refine .ite (fun _ => consequence.realizes hm scope) fun _ => ?_
    exact .ite (fun _ => .pure (T := .value) rfl) fun _ => alternative.realizes hm scope
  | .fn _ params body => hm.node (.fresh fun _ => .pure (T := .value) rfl)
  | .call _ callee args => by
    refine hm.node ((callee.realizes hm scope).used (fun _ => rfl) fun f => ?_)
    exact (realizes_exprs hm scope args).bind (fun _ => rfl) fun vs _ => hm.apply f vs
  | .array _ elements => by
    refine hm.node ((realizes_exprs hm scope elements).bind (fun _ => rfl) fun vs _ => ?_)
    exact .fresh fun _ => .pure (T := .value) rfl
  | .index _ left index => by
    refine hm.node ((left.realizes hm scope).used (fun _ => rfl) fun l => ?_)
    refine (index.realizes hm scope).used (fun _ => rfl) fun i => ?_
    rw [Value.pick_eq]
    exact .raise (.ofExcept fun _ _ => trivial)
  | .hash _ pairs => by
    refine hm.node ((realizes_pairs hm scope pairs []).bind (fun _ => rfl) fun entries _ => ?_)
    exact .fresh fun _ => .pure (T := .value) rfl

/-- Of expressions, the first fault is told apart from the values. -/
theorem realizes_exprs (hm : m.Realizes d t) (scope : ScopeId) :
    (es : List Expr) → Realizes d (.part _) (evaluateExprs m scope es) (traceExprs t scope es)
  | [] => .pure (T := .part _) trivial
  | e :: others => by
    refine (e.realizes hm scope).used (fun _ => rfl) fun v => ?_
    refine (realizes_exprs hm scope others).bind (fun _ => rfl) fun vs _ => ?_
    exact .pure (T := .part _) trivial

/-- Of keys and values, the first fault is told apart from the table. -/
theorem realizes_pairs (hm : m.Realizes d t) (scope : ScopeId) :
    (pairs : List (Expr × Expr)) → (table : Table Value) →
      Realizes d (.part _) (evaluatePairs m scope pairs table) (tracePairs t scope pairs table)
  | [], _ => .pure (T := .part _) trivial
  | (k, v) :: others, table => by
    refine (k.realizes hm scope).used (fun _ => rfl) fun key => ?_
    cases key.key? with
    | none => exact .fault (T := .part _) _
    | some key =>
      refine (v.realizes hm scope).used (fun _ => rfl) fun value => ?_
      exact realizes_pairs hm scope others (table.insert key value)

/-- A statement does what the traced one does. -/
theorem Stmt.realizes (hm : m.Realizes d t) (scope : ScopeId) :
    (s : Stmt) → Realizes d .value (s.evaluate m scope) (s.trace t scope)
  | .absent => .pure (T := .value) rfl
  | .bind _ none value => by
    refine hm.node ?_
    rw [Option.isNone_none, Bool.or_true]
    exact .pure (T := .value) rfl
  | .bind _ (some name) value => by
    refine hm.node ?_
    cases value.isAbsent with
    | true => exact .pure (T := .value) rfl
    | false =>
      refine (value.realizes hm scope).used (fun _ => rfl) fun v => ?_
      exact .perform (fun _ => rfl) (.pure (T := .value) rfl)
  | .ret _ value => by
    refine hm.node ((value.realizes hm scope).used (fun _ => rfl) fun v => ?_)
    exact .fresh fun _ => .pure (T := .value) rfl
  | .expr _ expr => hm.node (expr.realizes hm scope)
  | .block block => block.realizes hm scope

/-- Statements end with a return wrapper or a fault; the traced ones need not look for the fault. -/
theorem realizes_statements (hm : m.Realizes d t) (scope : ScopeId) :
    (ss : List Stmt) → (last : Value) → last.isError = false →
      Realizes d .value (evaluateStatements m scope last ss) (traceStatements t scope last ss)
  | [], _, hlast => .pure (T := .value) hlast
  | s :: others, last, _ => by
    refine (s.realizes hm scope).bind (fun _ => rfl) fun v hv => ?_
    -- the look for a fault is idle: a statement that the traced evaluation goes on after yields
    -- none
    have hclear : v.isError = false := hv
    show Realizes d .value (if (v.isReturned || v.isError) = true then _ else _) _
    rw [hclear, Bool.or_false]
    exact .ite (fun _ => .pure (T := .value) hv) fun _ => realizes_statements hm scope others v hv

/-- A block does what the traced one does. -/
theorem Block.realizes (hm : m.Realizes d t) (scope : ScopeId) :
    (b : Block) → Realizes d .value (b.evaluate m scope) (b.trace t scope)
  | .absent => hm.node (.pure (T := .value) rfl)
  | .of _ statements => hm.node (realizes_statements hm scope statements .null rfl)

end

/-- **Evaluation with checks realizes evaluation that stops.** Any node does what the traced one
does, if calls do. -/
theorem Node.realizes (hm : m.Realizes d t) (scope : ScopeId) (node : Node) :
    Realizes d .value (node.evaluate m scope) (node.trace t scope) := by
  cases node with
  | program p =>
    refine hm.node ?_
    exact (realizes_statements hm scope p.statements .null rfl).bind (fun _ => rfl) .unwrapped
  | stmt s => exact s.realizes hm scope
  | expr e => exact e.realizes hm scope

/-! ## Calls -/

/-- A call that is entered. -/
theorem realizes_enter (hm : m.Realizes d t) (outer : ScopeId) (params : List (Option Text))
    (body : Block) (args : List Value) :
    Realizes d .value (enter m outer params body args) (do
      let scope ← Traced.enclose outer
      traceParams scope params args
      let v ← body.trace t scope
      traceUnwrap v) := by
  refine .enclose outer fun scope => .params scope args ?_ 0 params
  exact (body.realizes hm scope).bind (fun _ => rfl) .unwrapped

end

end Monkey
