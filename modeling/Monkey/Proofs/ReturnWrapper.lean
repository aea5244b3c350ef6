import Monkey.Proofs.Contract
import Monkey.Proofs.Observed

/-!
# Where return wrappers can be seen

A return statement yields a wrapper, which blocks pass on until a call or the program takes it off.
On its way it is not meant to be seen: nothing should be bound to a wrapper, hold one, or work on
one, and none should be the result of a run.

A conditional is an expression that passes on what its blocks yield. So if a return statement is
evaluated inside a conditional whose value is used, the wrapper is that value and can be seen from
then on. `wrapper_hidden_iff` says that there is no other way: names, calls, selections and built-in
functions yield wrappers only where one was seen before.
-/

namespace Monkey

/-- The value that the program can see in an event. Of what is yielded it is what remains when the
wrapper is taken off, since a wrapper may be on its way. -/
def EvalEvent.shown : EvalEvent → Option Value
  | .used _ v | .bound _ _ v => some v
  | .yielded v => some v.unwrapped
  | .counted | .enclosed _ | .drew | .printed _ | .logged _ | .call _ => none

/-- No return wrapper can be seen in an event, not even inside a value. -/
def EvalEvent.HidesWrappers (e : EvalEvent) : Prop :=
  ∀ v, e.shown = some v → v.Without .returnValue

/-- No return wrapper can be seen in the events of a run or in its result. -/
def WrapperHidden (t : List EvalEvent × Outcome) : Prop :=
  (∀ e ∈ t.1, e.HidesWrappers) ∧ ∀ v, t.2 = .value v → v.Without .returnValue

/-- The value of a conditional is used, and it is a return wrapper. -/
def OperandReturns (es : List EvalEvent) : Prop :=
  ∃ origin test consequence alternative ref v,
    EvalEvent.used (.cond origin test consequence alternative) (.returned ref v) ∈ es

/-- Whether an expression is a conditional. -/
def Expr.isCond : Expr → Bool
  | .cond _ _ _ _ => true
  | _ => false

theorem Value.Without.unwrapped {t : Tag} {v : Value} (h : v.Without t) :
    v.unwrapped.Without t := by
  cases v with
  | returned ref v => exact ((returned_iff ref v).mp h).2
  | _ => exact h

theorem OperandReturns.mono {es es' : List EvalEvent} (h : OperandReturns es) (hsub : es ⊆ es') :
    OperandReturns es' := by
  obtain ⟨origin, test, consequence, alternative, ref, v, hmem⟩ := h
  exact ⟨origin, test, consequence, alternative, ref, v, hsub hmem⟩

/-- What an expression yields: a value without wrappers, or, if it is a conditional, what a block
passes on. If the latter is a wrapper, its use is where a wrapper is seen first. -/
theorem use_cases {e : Expr} {v : Value}
    (h : v.Without .returnValue ∨ e.isCond = true ∧ v.unwrapped.Without .returnValue) :
    v.Without .returnValue ∧ (EvalEvent.used e v).HidesWrappers ∨ OperandReturns [.used e v] := by
  have hseen (hv : v.Without .returnValue) :
      v.Without .returnValue ∧ (EvalEvent.used e v).HidesWrappers := by
    refine ⟨hv, fun u hu => ?_⟩
    cases hu
    exact hv
  rcases h with hv | ⟨hcond, hv⟩
  · exact .inl (hseen hv)
  · cases e with
    | cond origin test consequence alternative =>
        cases v with
        | returned ref u =>
            exact .inr ⟨origin, test, consequence, alternative, ref, u, List.mem_cons_self⟩
        | _ => exact .inl (hseen hv)
    | _ => cases hcond

theorem hidesWrappers_error (f : Fault) : (EvalEvent.yielded (.error f)).HidesWrappers := by
  intro v hv
  cases hv
  intro u hu
  cases hu
  exact Tag.noConfusion

/-- Along a run from a heap without wrappers none is seen, until the value of a conditional is used
and is one. -/
def hiddenWrapper : Contract where
  tag := .returnValue
  passing := .inr rfl
  passes v := v.unwrapped.Without .returnValue
  yields e v := v.Without .returnValue ∨ e.isCond = true ∧ v.unwrapped.Without .returnValue
  calm := EvalEvent.HidesWrappers
  lost := OperandReturns
  ended _ es := (∀ e ∈ es, e.HidesWrappers) ∨ OperandReturns es
  passes_of_without h := h.unwrapped
  passes_returned h := h
  passes_of_yields h := h.elim Value.Without.unwrapped And.right
  yields_of_without := .inl
  yields_cond h := .inr ⟨rfl, h⟩
  without_of_returned h := h
  without_of_passes {v} h hv := by
    cases v with
    | returned ref v => cases hv
    | _ => exact h
  calm_of_isQuiet {e} h v hv := by
    cases e with
    | counted | enclosed | drew | printed | call => cases hv
    | yielded | used | bound | logged => cases h
  calm_bound h v hv := by
    cases hv
    exact h
  calm_yielded h v hv := by
    cases hv
    exact h
  use := use_cases
  lost_append h := h.mono (List.subset_append_left _ _)
  append_lost _ h := h.mono (List.subset_append_right _ _)
  append_ended hes h := h.imp (fun hes' => List.forall_mem_append.mpr ⟨hes, hes'⟩)
    fun h => h.mono (List.subset_append_right _ _)
  ended_of_lost := .inr
  ended_crash := .inl fun _ h => absurd h List.not_mem_nil
  ended_exhausted := .inl fun _ h => absurd h List.not_mem_nil
  ended_fail _ := .inl fun _ h => absurd h List.not_mem_nil
  ended_raise _ := .inl fun _ h => absurd h List.not_mem_nil
  ended_exceed {f r} _ := .inl (List.forall_mem_cons.mpr
    ⟨nofun, List.forall_mem_singleton.mpr (hidesWrappers_error f)⟩)
  ended_yielded {f es} h := h.imp
    (fun hes => List.forall_mem_append.mpr
      ⟨hes, List.forall_mem_singleton.mpr (hidesWrappers_error f)⟩)
    fun h => h.mono (List.subset_append_left _ _)

/-- How a run of a program goes from a heap without wrappers: none is seen, or the value of a
conditional is used and is one. -/
theorem hidden_or_operandReturns (calls : Nat) (limits : Limits) (p : Program) (scope : ScopeId)
    {w : World} (hw : w.heap.Without .returnValue) :
    WrapperHidden (trace calls limits (.program p) scope w) ∨
      OperandReturns (trace calls limits (.program p) scope w).1 := by
  have hcalls := hiddenWrapper.calls_ofLimits limits calls
  have h := hiddenWrapper.meets_program hcalls scope p { w with steps := 0 } hw
  rw [trace_eq]
  generalize (Node.program p).trace (.ofLimits limits calls) scope { w with steps := 0 } = r at h ⊢
  rcases r with ⟨es, (f | _ | _) | v⟩
  · refine h.imp (fun hes => ⟨?_, fun v hv => ?_⟩) fun h => h.mono (List.subset_append_left _ _)
    · exact List.forall_mem_append.mpr ⟨hes, List.forall_mem_singleton.mpr nofun⟩
    · cases hv
      exact hidesWrappers_error f _ rfl
  · exact h.imp_left fun hes => ⟨hes, nofun⟩
  · exact h.imp_left fun hes => ⟨hes, nofun⟩
  · refine h.imp_left fun hv => ⟨hv.2.2, fun u hu => ?_⟩
    cases hu
    exact hv.1

/-- **When return wrappers stay hidden.** A run of a source is its trace, and no return wrapper can
be seen in it or in its result, exactly if no conditional whose value is used yields one. -/
theorem wrapper_hidden_iff (source : Text) (calls : Nat) (limits : Limits) :
    runWith calls limits (.program (parse source).program) 0 .fresh =
      ((trace calls limits (.program (parse source).program) 0 .fresh).2,
        World.fresh.after (trace calls limits (.program (parse source).program) 0 .fresh).1) ∧
    (WrapperHidden (trace calls limits (.program (parse source).program) 0 .fresh) ↔
      ¬ OperandReturns (trace calls limits (.program (parse source).program) 0 .fresh).1) := by
  refine ⟨runWith_eq_trace calls limits _ 0 .fresh, ?_⟩
  constructor
  · rintro ⟨hes, -⟩ ⟨origin, test, consequence, alternative, ref, v, hmem⟩
    exact (hes _ hmem _ rfl).tag_ne rfl
  · intro h
    exact (hidden_or_operandReturns calls limits _ 0 (World.without_fresh _)).resolve_right h

/-- A conditional that is what a return statement gives: the run yields the wrapper itself. -/
theorem return_of_conditional_yields_wrapper :
    (parse (text "return if (true) \x7b return 1 \x7d;")).diagnostics = [] ∧
    (run {} (.program (parse (text "return if (true) \x7b return 1 \x7d;")).program) 0 .fresh).1 =
      .value (.returned 0 (.int 1)) :=
  ⟨by decide +kernel, rfl⟩

end Monkey
