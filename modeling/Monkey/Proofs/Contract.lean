import Monkey.Proofs.Law

/-!
# Contracts

A contract is a law about a type of value that only passes: it holds along every traced evaluation
that starts in a heap without that type. What it says of events does not depend on the world that
they happen in, and it allows all trees. Hence all nodes and all calls meet it
(`Contract.meets_node`, `Contract.calls_ofLimits`), with no more asked than its own conditions.
-/

namespace Monkey

/-- Whether an event is neither about values nor about the log. -/
def EvalEvent.isQuiet : EvalEvent → Bool
  | .counted | .enclosed _ | .drew | .printed _ | .call _ => true
  | .yielded _ | .used _ _ | .bound _ _ _ | .logged _ => false

/-- What holds along every evaluation. -/
structure Contract where
  /-- The type that the heap is without. -/
  tag : Tag
  passing : tag.Passing
  /-- What statements and blocks may yield. -/
  passes : Value → Prop
  /-- What an expression may yield. -/
  yields : Expr → Value → Prop
  /-- The events that may happen. -/
  calm : EvalEvent → Prop
  /-- The lists of events after which nothing is asked. -/
  lost : List EvalEvent → Prop
  /-- What holds of the events before a stop. -/
  ended : Stop → List EvalEvent → Prop
  passes_of_without {v : Value} : v.Without tag → passes v
  passes_returned {ref : Ref} {v : Value} : v.Without tag → passes (.returned ref v)
  passes_of_yields {e : Expr} {v : Value} : yields e v → passes v
  yields_of_without {e : Expr} {v : Value} : v.Without tag → yields e v
  yields_cond {origin : Origin} {test : Expr} {consequence alternative : Block} {v : Value} :
    passes v → yields (.cond origin test consequence alternative) v
  without_of_returned {ref : Ref} {v : Value} : passes (.returned ref v) → v.Without tag
  without_of_passes {v : Value} : passes v → v.isReturned = false → v.Without tag
  calm_of_isQuiet {e : EvalEvent} : e.isQuiet = true → calm e
  calm_bound {scope : ScopeId} {name : Text} {v : Value} :
    v.Without tag → calm (.bound scope name v)
  calm_yielded {v : Value} : passes v → calm (.yielded v)
  use {e : Expr} {v : Value} :
    yields e v → v.Without tag ∧ calm (.used e v) ∨ lost [.used e v]
  lost_append {es es' : List EvalEvent} : lost es → lost (es ++ es')
  append_lost {es es' : List EvalEvent} : (∀ e ∈ es, calm e) → lost es' → lost (es ++ es')
  append_ended {s : Stop} {es es' : List EvalEvent} :
    (∀ e ∈ es, calm e) → ended s es' → ended s (es ++ es')
  ended_of_lost {s : Stop} {es : List EvalEvent} : lost es → ended s es
  ended_crash {c : Crash} : ended (.crash c) []
  ended_exhausted : ended .exhausted []
  ended_fail {f : Fault} : f.warning? = none → ended (.fault f) []
  ended_raise {f : Fault} : (Value.error f).Without tag → ended (.fault f) []
  ended_exceed {f : Fault} {r : LogRecord} :
    f.warning? = some r → ended (.fault f) [.logged r, .yielded (.error f)]
  ended_yielded {f : Fault} {es : List EvalEvent} :
    ended (.fault f) es → ended (.fault f) (es ++ [.yielded (.error f)])

namespace Contract

open Traced

variable {C : Contract} {m : Tracer}

/-- A contract as a law: what is kept is without the type. -/
def law (C : Contract) : Law where
  value v := v.tag ≠ C.tag
  passes := C.passes
  yields := C.yields
  good _ es := ∀ e ∈ es, C.calm e
  lost _ := C.lost
  ended s _ := C.ended s
  lawful.value_of_isData := C.passing.ne_of_isData
  lawful.value_of_isFreeOf htag _ h := C.passing.ne_function (htag.symm.trans h)
  lawful.passes_of_kept := C.passes_of_without
  lawful.passes_returned := C.passes_returned
  lawful.passes_of_yields := C.passes_of_yields
  lawful.yields_of_kept := C.yields_of_without
  lawful.yields_cond := C.yields_cond
  lawful.kept_of_returned := C.without_of_returned
  lawful.kept_of_passes := C.without_of_passes
  lawful.good_nil _ _ he := absurd he List.not_mem_nil
  lawful.good_append hes hes' := List.forall_mem_append.mpr ⟨hes, hes'⟩
  lawful.good_drew _ := List.forall_mem_singleton.mpr (C.calm_of_isQuiet rfl)
  lawful.good_printed _ _ := List.forall_mem_singleton.mpr (C.calm_of_isQuiet rfl)
  lawful.good_enclosed _ _ := List.forall_mem_singleton.mpr (C.calm_of_isQuiet rfl)
  lawful.good_bound _ hv := List.forall_mem_singleton.mpr (C.calm_bound hv)
  lawful.good_yielded hv := List.forall_mem_singleton.mpr (C.calm_yielded hv)
  lawful.use hv := (C.use hv).imp_left fun h => ⟨h.1, List.forall_mem_singleton.mpr h.2⟩
  lawful.lost_append := C.lost_append
  lawful.append_lost := C.append_lost
  lawful.append_ended := C.append_ended
  lawful.ended_of_lost := C.ended_of_lost
  lawful.ended_crash _ _ _ := C.ended_crash
  lawful.ended_fail := C.ended_fail
  lawful.ended_raise := C.ended_raise
  lawful.ended_yielded := C.ended_yielded

theorem meets_exceed {α : Type} {p : α → Prop} {message : Text} {limit : Int} {f : Fault}
    (hf : f.warning? = some
      { level := .warn, message, attributes := [(text "limit", Text.ofInt limit)] }) :
    C.law.Obeys p (exceed message limit f) :=
  fun _ _ => C.ended_exceed hf

theorem meets_step (limits : Limits) : C.law.Obeys (fun _ => True) (step limits) :=
  .step (fun _ => List.forall_mem_singleton.mpr (C.calm_of_isQuiet rfl)) (meets_exceed rfl)

/-- The steps and the calls of a run meet a contract. -/
theorem calls_ofLimits (limits : Limits) (calls : Nat) :
    C.law.Governs (.ofLimits limits calls) where
  step := meets_step limits
  apply _ _ hf hargs := Law.obeys_call (fun _ _ => trivial) (meets_step limits) (meets_exceed rfl)
    (fun _ => C.ended_exhausted) calls 0 hf hargs

/-- A program meets a contract, and its value is without the type: the wrapper of a return statement
is taken off. -/
theorem meets_program (hm : C.law.Governs m) (scope : ScopeId) (p : Program) :
    C.law.Obeys (Value.Without C.tag) ((Node.program p).trace m scope) :=
  Law.obeys_program hm scope p ⟨fun _ => .inl trivial, fun _ _ => trivial⟩

theorem meets_node (hm : C.law.Governs m) (scope : ScopeId) (node : Node) :
    C.law.Obeys C.passes (node.trace m scope) :=
  Law.obeys_node hm scope node ⟨fun _ => .inl trivial, fun _ _ => trivial⟩

end Contract

end Monkey
