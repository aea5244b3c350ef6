import Monkey.Proofs.Checks
import Monkey.Proofs.Law

/-!
# Observing a run

A run can be observed by running it on a state that takes notes. The interpreter in it is changed by
the same events, so that the notes make no difference to the run; what is noted is chosen by the
kind of the notes (`Notes`).

`trace` notes all events but the marks of calls. A state on which such marks leave nothing behind
cannot tell a call whose number of open calls is counted up and down from one that is told how many
are open (`realizes_invoke`). With it the run is that of the traced evaluation (`trace_eq`), and
what is noted is all that happens: the world after a run is the world before with the events of its
trace (`runWith_eq_trace`).
-/

namespace Monkey

/-! ## States that take notes -/

/-- What is noted of an event that happens to an interpreter. -/
class Notes (β : Type) where
  note? : Interpreter → EvalEvent → Option β

/-- An interpreter, and notes of what happened. -/
structure Observed (β : Type) where
  interpreter : Interpreter
  notes : List β

instance {β : Type} [Notes β] : Eventful (Observed β) where
  interpreter := Observed.interpreter
  perform s e := ⟨s.interpreter.react e, s.notes ++ (Notes.note? s.interpreter e).toList⟩
  interpreter_perform _ _ := rfl

/-- What is noted of some events. -/
def notesFrom {β : Type} [Notes β] (i : Interpreter) : List EvalEvent → List β
  | [] => []
  | e :: es => (Notes.note? i e).toList ++ notesFrom (i.react e) es

theorem Observed.after_eq {β : Type} [Notes β] (s : Observed β) (es : List EvalEvent) :
    Eventful.after s es = ⟨s.interpreter.after es, s.notes ++ notesFrom s.interpreter es⟩ := by
  induction es generalizing s with
  | nil => rw [notesFrom, List.append_nil]; rfl
  | cons e es ih =>
    rw [Eventful.after, List.foldl_cons, ← Eventful.after, ih, notesFrom, ← List.append_assoc]
    rfl

/-- Whether an event is the mark of a call. -/
def EvalEvent.isCall : EvalEvent → Bool
  | .call _ => true
  | _ => false

instance : Notes EvalEvent where
  note? _ e := if e.isCall then none else some e

/-- All is noted but the marks of calls. -/
theorem notesFrom_eq_filter (i : Interpreter) (es : List EvalEvent) :
    notesFrom i es = es.filter fun e => !e.isCall := by
  induction es generalizing i with
  | nil => rfl
  | cons e es ih =>
    rw [notesFrom, ih]
    cases e <;> rfl

/-! ## Calls that leave no mark -/

/-- A call that is attempted, or entered and left, leaves no mark on a state. -/
class Eventful.Unmarked (σ : Type) [Eventful σ] : Prop where
  attempted (s : σ) : Eventful.perform s (.call .attempted) = s
  closed (s : σ) (es : List EvalEvent) : Level es →
    Eventful.perform (Eventful.after (Eventful.perform s (.call .entered)) es) (.call .left) =
      Eventful.after s es

theorem Interpreter.closed (i : Interpreter) {es : List EvalEvent} (h : Level es) :
    ((i.react (.call .entered)).after es).react (.call .left) = i.after es := by
  have hworld : ((i.react (.call .entered)).after es).toWorld = (i.after es).toWorld := by
    rw [Interpreter.toWorld_after, Interpreter.toWorld_after]
    rfl
  have hdepth : ((i.react (.call .entered)).after es).depth - 1 = (i.after es).depth := by
    rw [h, h]
    rfl
  show Interpreter.mk ((i.react (.call .entered)).after es).toWorld
      (((i.react (.call .entered)).after es).depth - 1) = _
  rw [hworld, hdepth]

instance : Eventful.Unmarked Interpreter where
  attempted _ := rfl
  closed i _ h := i.closed h

instance : Eventful.Unmarked (Observed EvalEvent) where
  attempted s := by
    show Observed.mk s.interpreter (s.notes ++ []) = s
    rw [List.append_nil]
  closed s es h := by
    rw [Observed.after_eq, Observed.after_eq]
    show Observed.mk _ ((s.notes ++ [] ++ notesFrom _ es) ++ []) = _
    rw [List.append_nil, List.append_nil, notesFrom_eq_filter, notesFrom_eq_filter]
    exact congrArg (Observed.mk · _) (s.interpreter.closed h)

section

variable {σ : Type} [Eventful σ]

/-- What is done last is done however an evaluation ends. -/
theorem Interpret.tryFinally_perform {α : Type} (x : Interpret σ α) (e : EvalEvent) (s : σ) :
    (tryFinally x (Interpret.perform e)).run s = ((x.run s).1, Eventful.perform (x.run s).2 e) := by
  show (tryFinally (ExceptT.mk fun _ => x.run s) (Interpret.perform e)).run s = _
  rcases x.run s with ⟨_ | _, s'⟩ <;> rfl

variable {d : Nat}

/-- What depends on how many calls are open is told it. -/
theorem Realizes.depth {α β : Type} {T : Telling α β} {k : Interpreter → Interpret σ β}
    {y : Traced α} (h : ∀ i : Interpreter, i.depth = d → Realizes d T (k i) y) :
    Realizes d T (Interpret.interpreter >>= k) y :=
  .interpreter (l := fun _ => y) h

/-- Inside a call that is entered one call more is open, and the world is the same. -/
theorem Realizes.run_entered {x : Interpret σ Value} {y : Traced Value}
    (hx : Realizes (d + 1) .value x y) (s : σ) (hs : (Eventful.interpreter s).depth = d) :
    x.run (Eventful.perform s (.call .entered)) =
      (Telling.value.tell (y (Eventful.world s)).2,
        Eventful.after (Eventful.perform s (.call .entered)) (y (Eventful.world s)).1) := by
  have hinterpreter := Eventful.interpreter_perform s (.call .entered)
  have hdepth : (Eventful.interpreter (Eventful.perform s (.call .entered))).depth = d + 1 := by
    rw [hinterpreter, ← hs]
    rfl
  have hworld : Eventful.world (Eventful.perform s (.call .entered)) = Eventful.world s := by
    rw [Eventful.world, hinterpreter]
    rfl
  rw [hx.run _ hdepth, hworld]

variable [Eventful.Unmarked σ]

theorem Realizes.attempted {α β : Type} {T : Telling α β} {x : Interpret σ β} {y : Traced α}
    (hx : Realizes d T x y) :
    Realizes d T (Interpret.perform (.call .attempted) >>= fun _ => x) y where
  run s hs := by
    rw [Interpret.run_perform_bind, Eventful.Unmarked.attempted]
    exact hx.run s hs
  level := hx.level
  clear := hx.clear

/-- A call that is entered and left, however it ends. -/
theorem Realizes.entered {x : Interpret σ Value} {y : Traced Value}
    (hx : Realizes (d + 1) .value x y) :
    Realizes d .value (Interpret.perform (.call .entered) >>= fun _ =>
      tryFinally x (Interpret.perform (.call .left))) y where
  run s hs := by
    rw [Interpret.run_perform_bind, Interpret.tryFinally_perform, hx.run_entered s hs]
    exact congrArg _ (Eventful.Unmarked.closed s _ (hx.level _))
  level := hx.level
  clear := hx.clear

/-- If the marks of calls leave nothing behind, calling a value is the same as being told how many
calls are open. -/
theorem realizes_invoke (limits : Limits) (calls d : Nat) (f : Value) (args : List Value) :
    Realizes d .value (invoke limits calls f args : Interpret σ Value)
      (traceCall limits calls d f args) := by
  induction calls generalizing d f args with
  | zero => exact .exhausted
  | succ calls ih =>
    cases f with
    | fn ref params body outer =>
      refine .attempted (.depth fun i hi => ?_)
      rw [hi]
      refine .ite (fun _ => .exceed _ _ _) fun _ => ?_
      exact (realizes_enter ⟨rfl, ih (d + 1)⟩ outer params body args).entered
    | builtin b => exact (Realizes.builtin b args).noted.raise
    | _ => exact .fault (T := .value) _

theorem realizes_ofLimits (limits : Limits) (calls : Nat) :
    (Engine.ofLimits limits calls : Engine σ).Realizes 0 (.ofLimits limits calls) :=
  ⟨rfl, realizes_invoke limits calls 0⟩

end

/-! ## Runs -/

/-- A fault that a run ends with is reported. -/
def Traced.reported (x : Traced Value) : Traced Value := fun w =>
  match x w with
  | (es, .error (.fault f)) => (es ++ [.logged f.report], .error (.fault f))
  | other => other

theorem Node.realizes_interpret {σ : Type} [Eventful σ] {calls : Nat} {limits : Limits} {t : Tracer}
    (hm : (Engine.ofLimits limits calls : Engine σ).Realizes 0 t) (node : Node) (scope : ScopeId) :
    Realizes 0 .value (node.interpret calls limits scope : Interpret σ Value)
      (node.trace t scope).reported := by
  have hnode := node.realizes hm scope
  constructor
  case run =>
    intro s hs
    rw [Node.interpret, Interpret.run_bind, hnode.run s hs, Traced.reported]
    rcases hrun : node.trace t scope (Eventful.world s) with ⟨es, (f | c | _) | v⟩
    · rw [Eventful.after_append]
      rfl
    · rfl
    · rfl
    -- a value that is no fault is not reported
    · have hclear := hnode.clear _ _ _ hrun
      cases v <;> first | rfl | cases hclear
  case level =>
    intro w
    have hlevel := hnode.level w
    rw [Traced.reported]
    rcases hrun : node.trace t scope w with ⟨es, (f | c | _) | v⟩ <;> rw [hrun] at hlevel
    · exact hlevel.append fun _ => rfl
    · exact hlevel
    · exact hlevel
    · exact hlevel
  case clear =>
    intro w es v heq
    rw [Traced.reported] at heq
    rcases hrun : node.trace t scope w with ⟨es', (f | c | _) | v'⟩ <;> rw [hrun] at heq <;>
      cases heq
    exact hnode.clear _ _ _ hrun

/-- Run a node on a state that takes notes. -/
def observe (β : Type) [Notes β] (calls : Nat) (limits : Limits) (node : Node) (scope : ScopeId)
    (w : World) : Except Halt Value × Observed β :=
  (node.interpret calls limits scope).run ⟨Interpreter.start w, []⟩

/-- The events of a run but the marks of calls, and its result. -/
def trace (calls : Nat) (limits : Limits) (node : Node) (scope : ScopeId) (w : World) :
    List EvalEvent × Outcome :=
  let (result, s) := observe EvalEvent calls limits node scope w
  (s.notes, .of result)

/-- No event of an evaluation that is told how many calls are open is the mark of a call. -/
def unmarked : Law where
  good _ es := ∀ e ∈ es, e.isCall = false
  ended _ _ es := ∀ e ∈ es, e.isCall = false
  lawful.good_nil _ _ he := absurd he List.not_mem_nil
  lawful.good_append hes hes' := List.forall_mem_append.mpr ⟨hes, hes'⟩
  lawful.good_drew _ := List.forall_mem_singleton.mpr rfl
  lawful.good_printed _ _ := List.forall_mem_singleton.mpr rfl
  lawful.good_enclosed _ _ := List.forall_mem_singleton.mpr rfl
  lawful.good_bound _ _ := List.forall_mem_singleton.mpr rfl
  lawful.good_yielded _ := List.forall_mem_singleton.mpr rfl
  lawful.use _ := .inl ⟨fun _ _ => trivial, List.forall_mem_singleton.mpr rfl⟩
  lawful.append_ended hes hes' := List.forall_mem_append.mpr ⟨hes, hes'⟩
  lawful.ended_crash _ _ _ _ he := absurd he List.not_mem_nil
  lawful.ended_fail _ _ he := absurd he List.not_mem_nil
  lawful.ended_raise _ _ he := absurd he List.not_mem_nil
  lawful.ended_yielded hes := List.forall_mem_append.mpr ⟨hes, List.forall_mem_singleton.mpr rfl⟩

theorem unmarked_exceed {α : Type} {p : α → Prop} (message : Text) (limit : Int) (f : Fault) :
    unmarked.Obeys p (Traced.exceed message limit f) :=
  fun _ _ => List.forall_mem_cons.mpr ⟨rfl, List.forall_mem_singleton.mpr rfl⟩

theorem unmarked_ofLimits (limits : Limits) (calls : Nat) :
    unmarked.Governs (.ofLimits limits calls) := by
  have hstep : unmarked.Obeys (fun _ => True) (Traced.step limits) :=
    .step (fun _ => List.forall_mem_singleton.mpr rfl) (unmarked_exceed _ _ _)
  refine ⟨hstep, fun f vs hf hvs => ?_⟩
  exact Law.obeys_call (fun _ _ => trivial) hstep (unmarked_exceed _ _ _)
    (fun _ _ he => absurd he List.not_mem_nil) calls 0 hf hvs

theorem isCall_of_mem_trace {limits : Limits} {calls : Nat} {node : Node} {scope : ScopeId}
    {w : World} {e : EvalEvent} (he : e ∈ (node.trace (.ofLimits limits calls) scope w).1) :
    e.isCall = false := by
  have h := Law.obeys_node (unmarked_ofLimits limits calls) scope node
    ⟨fun _ => .inl trivial, fun _ _ => trivial⟩ w fun _ _ _ _ _ _ _ => trivial
  rcases hr : node.trace (.ofLimits limits calls) scope w with ⟨es, s | v⟩ <;> rw [hr] at h he
  · exact h e he
  · exact (h.resolve_right id).2.2 e he

theorem Observed.notes_after (i : Interpreter) {es : List EvalEvent}
    (h : ∀ e ∈ es, e.isCall = false) :
    (Eventful.after (⟨i, []⟩ : Observed EvalEvent) es).notes = es := by
  rw [Observed.after_eq, notesFrom_eq_filter]
  exact List.filter_eq_self.mpr fun e he => by rw [h e he]; rfl

/-! ## Runs and their traces -/

section

variable (calls : Nat) (limits : Limits) (node : Node) (scope : ScopeId) (w : World)

/-- On a state that marks of calls leave nothing behind on, a run is that of the traced
evaluation. -/
theorem Node.run_interpret {σ : Type} [Eventful σ] [Eventful.Unmarked σ] (s : σ)
    (hs : Eventful.interpreter s = Interpreter.start w) :
    (node.interpret calls limits scope).run s =
      (let (es, result) :=
        (node.trace (.ofLimits limits calls) scope).reported { w with steps := 0 }
       (Telling.value.tell result, Eventful.after s es)) := by
  have h := (node.realizes_interpret (realizes_ofLimits (σ := σ) limits calls) scope).run s
    (by rw [hs]; rfl)
  rw [Eventful.world, hs] at h
  exact h

/-- The trace of a run is that of the traced evaluation, and a fault at its end is reported. -/
theorem trace_eq :
    trace calls limits node scope w =
      match node.trace (.ofLimits limits calls) scope { w with steps := 0 } with
      | (es, .ok v) => (es, .value v)
      | (es, .error (.fault f)) => (es ++ [.logged f.report], .value (.error f))
      | (es, .error (.crash c)) => (es, .crashed c)
      | (es, .error .exhausted) => (es, .exhausted) := by
  have hplain : ∀ e ∈ (node.trace (.ofLimits limits calls) scope { w with steps := 0 }).1,
      e.isCall = false := fun _ => isCall_of_mem_trace
  rw [trace, observe, node.run_interpret calls limits scope w _ rfl, Traced.reported]
  rcases hr : node.trace (.ofLimits limits calls) scope { w with steps := 0 } with
    ⟨es, (f | c | _) | v⟩ <;> rw [hr] at hplain
  · refine congrArg (·, _) (Observed.notes_after _ ?_)
    exact List.forall_mem_append.mpr ⟨hplain, List.forall_mem_singleton.mpr rfl⟩
  · exact congrArg (·, _) (Observed.notes_after _ hplain)
  · exact congrArg (·, _) (Observed.notes_after _ hplain)
  · exact congrArg (·, _) (Observed.notes_after _ hplain)

/-- A run is its trace: the result of the trace, and the world after its events. -/
theorem runWith_eq_trace :
    runWith calls limits node scope w =
      ((trace calls limits node scope w).2,
        ({ w with steps := 0 } : World).after (trace calls limits node scope w).1) := by
  rw [runWith, trace_eq, node.run_interpret calls limits scope w _ rfl, Traced.reported]
  rcases node.trace (.ofLimits limits calls) scope { w with steps := 0 } with
    ⟨es, (f | c | _) | v⟩
  · exact congrArg (_, ·) ((Interpreter.start w).toWorld_after _)
  · exact congrArg (_, ·) ((Interpreter.start w).toWorld_after es)
  · exact congrArg (_, ·) ((Interpreter.start w).toWorld_after es)
  · exact congrArg (_, ·) ((Interpreter.start w).toWorld_after es)

/-- A run is what it makes of how the traced evaluation ends. -/
theorem runWith_eq_conclude :
    runWith calls limits node scope w =
      conclude ((node.trace (.ofLimits limits calls) scope).run { w with steps := 0 }) := by
  rw [runWith_eq_trace, trace_eq, Traced.run]
  rcases node.trace (.ofLimits limits calls) scope { w with steps := 0 } with
    ⟨es, (f | c | _) | v⟩
  · refine congrArg (_, ·) ?_
    rw [World.after_append]
    rfl
  · rfl
  · rfl
  · rfl

end

end Monkey
