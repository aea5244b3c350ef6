import Monkey.Proofs.Contract
import Monkey.Proofs.Observed

/-!
# The first error ends a run

Once a node, a built-in function or a limit check yields an error, nothing happens any more but that
every evaluation around it yields the same error and the run reports it: no node is evaluated, no
name is bound and nothing is printed. So the log tells how a run ended: it has one warning if a
limit was exceeded, and then one report if there was an error at all.
-/

namespace Monkey

open Traced

/-- Whether an event is neither that an error is yielded nor that a record is logged. -/
def EvalEvent.isCalm : EvalEvent → Bool
  | .yielded v => !v.isError
  | .logged _ => false
  | .counted | .used _ _ | .bound _ _ _ | .enclosed _ | .drew | .printed _ | .call _ => true

/-- The events from a fault on: a warning if a limit was exceeded, and then that the fault is
yielded, some number of times. -/
def Fault.trail (f : Fault) (n : Nat) : List EvalEvent :=
  f.warning?.toList.map .logged ++ List.replicate n (.yielded (.error f))

/-- How the events before a stop end: a fault leaves its trail at the end and nowhere else. -/
def EndsBy : Stop → List EvalEvent → Prop
  | .fault f, es => ∃ before n, es = before ++ f.trail n ∧ ∀ e ∈ before, e.isCalm = true
  | _, es => ∀ e ∈ es, e.isCalm = true

theorem EndsBy.append {s : Stop} {es es' : List EvalEvent} (hes : ∀ e ∈ es, e.isCalm = true)
    (h : EndsBy s es') : EndsBy s (es ++ es') := by
  cases s with
  | fault f =>
      obtain ⟨before, n, rfl, hbefore⟩ := h
      refine ⟨es ++ before, n, (List.append_assoc es before _).symm, ?_⟩
      exact List.forall_mem_append.mpr ⟨hes, hbefore⟩
  | crash c => exact List.forall_mem_append.mpr ⟨hes, h⟩
  | exhausted => exact List.forall_mem_append.mpr ⟨hes, h⟩

/-- Along a run from a heap without errors no value is or holds an error, and no event but the trail
of a fault yields one. -/
def firstError : Contract where
  tag := .error
  passing := .inl rfl
  passes := Value.Without .error
  yields _ := Value.Without .error
  calm e := e.isCalm = true
  lost _ := False
  ended := EndsBy
  passes_of_without := id
  passes_returned h := (Value.Without.returned_iff _ _).mpr ⟨by decide, h⟩
  passes_of_yields := id
  yields_of_without := id
  yields_cond := id
  without_of_returned h := ((Value.Without.returned_iff _ _).mp h).2
  without_of_passes h _ := h
  calm_of_isQuiet {e} h := by cases e <;> first | rfl | cases h
  calm_bound _ := rfl
  calm_yielded {v} h := by
    cases v with
    | error f => exact absurd rfl h.tag_ne
    | _ => rfl
  use h := .inl ⟨h, rfl⟩
  lost_append := id
  append_lost _ := id
  append_ended := EndsBy.append
  ended_of_lost := False.elim
  ended_crash _ h := absurd h List.not_mem_nil
  ended_exhausted _ h := absurd h List.not_mem_nil
  ended_fail h := ⟨[], 0, by rw [Fault.trail, h]; rfl, fun _ h => absurd h List.not_mem_nil⟩
  ended_raise h := absurd rfl h.tag_ne
  ended_exceed h := ⟨[], 1, by rw [Fault.trail, h]; rfl, fun _ h => absurd h List.not_mem_nil⟩
  ended_yielded h := by
    obtain ⟨before, n, rfl, hbefore⟩ := h
    refine ⟨before, n + 1, ?_, hbefore⟩
    rw [Fault.trail, Fault.trail, List.replicate_succ', List.append_assoc, List.append_assoc]

theorem not_mem_of_calm {es : List EvalEvent} (h : ∀ e ∈ es, e.isCalm = true) (f : Fault) :
    .yielded (.error f) ∉ es :=
  fun hmem => nomatch h _ hmem

theorem not_mem_warning (f g : Fault) :
    .yielded (.error g) ∉ f.warning?.toList.map EvalEvent.logged := by
  intro h
  obtain ⟨r, -, hr⟩ := List.mem_map.mp h
  cases hr

/-- A fault that ends the evaluation of a node is yielded by it: the node is there, since one that
is not has no faults. -/
theorem yielded_of_fault {m : Tracer} {scope : ScopeId} {node : Node} {w : World}
    {es : List EvalEvent} {f : Fault} (h : node.trace m scope w = (es, .error (.fault f))) :
    .yielded (.error f) ∈ es := by
  have hnode : (∃ x, node.trace m scope = noted x) ∨ node.trace m scope = pure .null := by
    cases node with
    | program p => exact .inl ⟨_, rfl⟩
    | expr e => cases e <;> first | exact .inr rfl | exact .inl ⟨_, rfl⟩
    | stmt s =>
        cases s with
        | block b => cases b <;> exact .inl ⟨_, rfl⟩
        | absent => exact .inr rfl
        | _ => exact .inl ⟨_, rfl⟩
  rcases hnode with ⟨x, hx⟩ | hx
  · rw [hx, noted, Prod.mk.injEq] at h
    rw [← h.1, h.2]
    exact List.mem_append_right _ List.mem_cons_self
  · rw [hx] at h
    cases h

/-- How a run from a heap without errors goes: calmly to a value that is no error or to a halt, or
to a fault, whose trail and report are its last events. -/
theorem trace_cases (calls : Nat) (limits : Limits) (node : Node) (scope : ScopeId) {w : World}
    (hw : w.heap.Without .error) :
    ((∀ e ∈ (trace calls limits node scope w).1, e.isCalm = true) ∧
      ∀ f, (trace calls limits node scope w).2 ≠ .value (.error f)) ∨
    ∃ f before n, (trace calls limits node scope w).2 = .value (.error f) ∧
      (trace calls limits node scope w).1 = before ++ (f.trail (n + 1) ++ [.logged f.report]) ∧
      ∀ e ∈ before, e.isCalm = true := by
  have hcalls := firstError.calls_ofLimits limits calls
  have h := firstError.meets_node hcalls scope node { w with steps := 0 } hw
  rw [trace_eq]
  rcases hr : node.trace (.ofLimits limits calls) scope { w with steps := 0 } with
    ⟨es, (f | _ | _) | v⟩
  · rw [hr] at h
    obtain ⟨before, n, rfl, hbefore⟩ := h
    cases n with
    | zero =>
        -- the node yields the fault, but only the trail could hold that event
        rcases List.mem_append.mp (yielded_of_fault hr) with hmem | hmem
        · exact absurd hmem (not_mem_of_calm hbefore f)
        · rw [Fault.trail, List.replicate_zero, List.append_nil] at hmem
          exact absurd hmem (not_mem_warning f f)
    | succ n => exact .inr ⟨f, before, n, rfl, List.append_assoc _ _ _, hbefore⟩
  · rw [hr] at h
    exact .inl ⟨h, nofun⟩
  · rw [hr] at h
    exact .inl ⟨h, nofun⟩
  · rw [hr] at h
    obtain ⟨hv, -, hcalm⟩ := h.resolve_right id
    refine .inl ⟨hcalm, fun f hf => ?_⟩
    cases hf
    exact hv.tag_ne rfl

/-! ## Where the trail starts -/

/-- What is not in the first of two lists is where it is in the second. -/
theorem eq_append_cons_of_not_mem {α : Type} {xs ys before after : List α} {x : α} (hx : x ∉ xs)
    (h : xs ++ ys = before ++ x :: after) : ∃ before', ys = before' ++ x :: after := by
  rcases List.append_eq_append_iff.mp h with ⟨before', -, hys⟩ | ⟨rest, hxs, hrest⟩
  · exact ⟨before', hys⟩
  · cases rest with
    | nil => exact ⟨[], hrest.symm⟩
    | cons first rest =>
        cases hrest
        exact absurd (hxs ▸ List.mem_append_right before List.mem_cons_self) hx

/-- From the first error on, a trail is the same error yielded again and again. -/
theorem trail_tail {f g : Fault} {n : Nat} {before after : List EvalEvent} {last : LogRecord}
    (h : f.trail n ++ [.logged last] = before ++ .yielded (.error g) :: after) :
    g = f ∧ ∃ k, after = List.replicate k (.yielded (.error f)) ++ [.logged last] := by
  rw [Fault.trail, List.append_assoc] at h
  obtain ⟨before', hyields⟩ := eq_append_cons_of_not_mem (not_mem_warning f g) h
  clear h
  -- each yield of the trail is where the split may be, or is before it
  induction n generalizing before' with
  | zero =>
      rw [List.replicate_zero, List.nil_append] at hyields
      have hmem : EvalEvent.yielded (.error g) ∈ [EvalEvent.logged last] :=
        hyields ▸ List.mem_append_right before' List.mem_cons_self
      cases List.mem_singleton.mp hmem
  | succ n ih =>
      rw [List.replicate_succ, List.cons_append] at hyields
      cases before' with
      | nil =>
          cases hyields
          exact ⟨rfl, n, rfl⟩
      | cons first before' =>
          exact ih before' (List.cons.inj hyields).2

/-! ## The log -/

/-- The record that an event logs. -/
def EvalEvent.record? : EvalEvent → Option LogRecord
  | .logged r => some r
  | _ => none

theorem log_after (w : World) (es : List EvalEvent) :
    (w.after es).log = w.log ++ es.filterMap EvalEvent.record? := by
  induction es generalizing w with
  | nil => exact (List.append_nil w.log).symm
  | cons e es ih =>
      rw [World.after, List.foldl_cons, ← World.after, ih]
      cases e with
      | logged r => simp [EvalEvent.effect, EvalEvent.record?]
      | _ => rfl

theorem records_of_calm {es : List EvalEvent} (h : ∀ e ∈ es, e.isCalm = true) :
    es.filterMap EvalEvent.record? = [] := by
  refine List.filterMap_eq_nil_iff.mpr fun e he => ?_
  cases e with
  | logged r => exact nomatch h _ he
  | _ => rfl

theorem records_trail (f : Fault) (n : Nat) :
    (f.trail n).filterMap EvalEvent.record? = f.warning?.toList := by
  have hyields :
      (List.replicate n (EvalEvent.yielded (.error f))).filterMap EvalEvent.record? = [] :=
    List.filterMap_eq_nil_iff.mpr fun e he => (List.mem_replicate.mp he).2 ▸ rfl
  rw [Fault.trail, List.filterMap_append, hyields, List.append_nil, List.filterMap_map]
  exact List.filterMap_some

/-- What a run adds to the log. -/
def Outcome.reports : Outcome → List LogRecord
  | .value (.error f) => f.warning?.toList ++ [f.report]
  | _ => []

theorem Outcome.reports_of_ne {o : Outcome} (h : ∀ f, o ≠ .value (.error f)) : o.reports = [] := by
  unfold Outcome.reports
  split
  · exact absurd rfl (h _)
  · rfl

/-- **The first error ends a run.** A run is its trace. If an error is yielded in it, by a node, a
built-in function or a limit check, then that error is the result of the run, and all that happens
after is that the evaluations around yield it too and that it is reported; and an error that is the
result was yielded. The log gets a warning exactly if the result is that a limit was exceeded, and a
report, as its last record, exactly if the result is an error. -/
theorem error_ends_run (calls : Nat) (limits : Limits) (node : Node) (scope : ScopeId) (w : World)
    (hw : w.heap.Without .error) :
    runWith calls limits node scope w =
      ((trace calls limits node scope w).2,
        ({ w with steps := 0 } : World).after (trace calls limits node scope w).1) ∧
    (∀ before f after,
      (trace calls limits node scope w).1 = before ++ .yielded (.error f) :: after →
        (runWith calls limits node scope w).1 = .value (.error f) ∧
        ∃ n, after = List.replicate n (.yielded (.error f)) ++ [.logged f.report]) ∧
    (∀ f, (runWith calls limits node scope w).1 = .value (.error f) →
      .yielded (.error f) ∈ (trace calls limits node scope w).1) ∧
    (runWith calls limits node scope w).2.log =
      w.log ++ (runWith calls limits node scope w).1.reports := by
  refine ⟨runWith_eq_trace calls limits node scope w, ?_⟩
  rw [runWith_eq_trace, log_after]
  -- the trace is calm, or calm up to the trail of the one fault that it ends with
  rcases trace_cases calls limits node scope hw with
    ⟨hcalm, hresult⟩ | ⟨f, start, n, hresult, hes, hstart⟩
  · refine ⟨fun before f after hes => ?_, fun f hf => absurd hf (hresult f), ?_⟩
    · have hmem : EvalEvent.yielded (.error f) ∈ (trace calls limits node scope w).1 :=
        hes ▸ List.mem_append_right before List.mem_cons_self
      exact absurd hmem (not_mem_of_calm hcalm f)
    · rw [records_of_calm hcalm, Outcome.reports_of_ne hresult]
  · simp only [hresult, hes]
    refine ⟨fun before g after heq => ?_, fun g hg => ?_, ?_⟩
    · obtain ⟨before', htrail⟩ := eq_append_cons_of_not_mem (not_mem_of_calm hstart g) heq
      obtain ⟨rfl, hafter⟩ := trail_tail htrail
      exact ⟨rfl, hafter⟩
    · cases hg
      rw [Fault.trail, List.replicate_succ]
      simp
    · rw [List.filterMap_append, List.filterMap_append, records_of_calm hstart, records_trail]
      rfl

/-- A function that calls itself until the limit, from within an array that is an argument. -/
theorem error_ends_run_depth :
    World.fresh.heap.Without .error ∧
    (runWith 5 { depth := 3 } (.program (parse (text
        "let f = fn(n) \x7b puts(n); f(n + 1) \x7d; puts([f(0)]); puts(9);")).program)
      0 .fresh).2.log =
      (Fault.depthLimit 3).warning?.toList ++ [(Fault.depthLimit 3).report] := by
  have hheap := World.without_fresh .error
  have h := error_ends_run 5 { depth := 3 } (.program (parse (text
    "let f = fn(n) \x7b puts(n); f(n + 1) \x7d; puts([f(0)]); puts(9);")).program) 0 .fresh hheap
  exact ⟨hheap, h.2.2.2.trans (by decide +kernel)⟩

end Monkey
