import Monkey.Proofs.CallHistory
import Monkey.Proofs.Termination

/-!
# A depth limit only cuts a run short

The depth is looked at in one place only, where a function is called. So a run with a depth limit
does what a run with a larger one does, or with none, up to the call that is one too deep for the
smaller limit, and there it stops.

Which call that is can be read off the history of the calls: it is one that is attempted while as
many calls as the limit are open. The interpreter counts them, up when a call is entered and down
when it is left, in whatever way. So a call that was left does not count any more, however many of
them there were.
-/

namespace Monkey

open Traced

variable {limit deeper steps : Int}

/-- A call is the same under a larger depth limit or none, until one is too deep for the smaller
limit. -/
theorem follows_moreDepth (hlimit : 0 < limit) (hdeeper : limit ≤ deeper ∨ deeper ≤ 0)
    (calls around : Nat) (f : Value) (args : List Value) :
    Follows (.fault (.depthLimit limit)) (traceCall ⟨steps, limit⟩ calls around f args)
      (traceCall ⟨steps, deeper⟩ calls around f args) := by
  induction calls generalizing around f args with
  | zero => exact .refl _
  | succ calls ih =>
      have hinner : Tracer.Follows (.fault (.depthLimit limit))
          ⟨⟨steps, limit⟩, traceCall ⟨steps, limit⟩ calls (around + 1)⟩
          ⟨⟨steps, deeper⟩, traceCall ⟨steps, deeper⟩ calls (around + 1)⟩ :=
        ⟨.refl _, ih (around + 1)⟩
      have hreached (h : Limits.ReachedBy ⟨steps, deeper⟩ around) :
          Limits.ReachedBy ⟨steps, limit⟩ around := by
        obtain ⟨hpos, hle⟩ : 0 < deeper ∧ deeper ≤ around := h
        exact ⟨hlimit, show limit ≤ around by omega⟩
      exact follows_traceCall hinner hreached (fun _ => .inl rfl) f args

/-- Trees follow, given the same calls, under a larger depth limit or none. -/
theorem follows_ofDeeper (hlimit : 0 < limit) (hdeeper : limit ≤ deeper ∨ deeper ≤ 0)
    (calls : Nat) :
    (Tracer.ofLimits ⟨steps, limit⟩ calls).Follows (.fault (.depthLimit limit))
      (.ofLimits ⟨steps, deeper⟩ calls) :=
  ⟨.refl _, follows_moreDepth hlimit hdeeper calls 0⟩

/-- **A depth limit only cuts a run short.** A run with a depth limit ends, and so does one with a
larger limit, or with a step limit. If the limit is not exceeded, the run with a larger limit or
none ends as well, with the same result and the same world, which is the heap, the output and the
log. So the two runs are the same, unless the one without limits is given too few calls to end. If
the limit is exceeded, what the run has printed is the first part of what the other run prints, if
that one ends.

However a call ends, as many calls are open in the interpreter after it as were before. Observing
the calls of a run changes nothing, and at its end none is open. If the heap has no errors to begin
with, the number that the interpreter has at any moment of the history of the calls is that of the
calls entered and not left, and the limit is exceeded if and only if a call is attempted inside as
many open calls as the limit. -/
theorem depth_limit_only_cuts {limit deeper : Int} (hlimit : 0 < limit)
    (hdeeper : limit ≤ deeper ∨ deeper ≤ 0) (steps : Int) (node : Node) (scope : ScopeId)
    (w : World) :
    Ends ⟨steps, limit⟩ node scope w (run ⟨steps, limit⟩ node scope w) ∧
    (0 < steps ∨ 0 < deeper →
      Ends ⟨steps, deeper⟩ node scope w (run ⟨steps, deeper⟩ node scope w)) ∧
    ((run ⟨steps, limit⟩ node scope w).1 ≠ .value (.error (.depthLimit limit)) →
      Ends ⟨steps, deeper⟩ node scope w (run ⟨steps, limit⟩ node scope w) ∧
      ((run ⟨steps, deeper⟩ node scope w).1 ≠ .exhausted →
        run ⟨steps, deeper⟩ node scope w = run ⟨steps, limit⟩ node scope w)) ∧
    ((run ⟨steps, limit⟩ node scope w).1 = .value (.error (.depthLimit limit)) →
      ∀ r, Ends ⟨steps, deeper⟩ node scope w r →
        (run ⟨steps, limit⟩ node scope w).2.output <+: r.2.output) ∧
    (∀ (calls : Nat) (f : Value) (args : List Value) (i : Interpreter),
      ((invoke ⟨steps, limit⟩ calls f args).run i).2.depth = i.depth) ∧
    (∀ calls,
      (.of (observe CallNote calls ⟨steps, limit⟩ node scope w).1,
        (observe CallNote calls ⟨steps, limit⟩ node scope w).2.interpreter.toWorld) =
          runWith calls ⟨steps, limit⟩ node scope w ∧
      (observe CallNote calls ⟨steps, limit⟩ node scope w).2.interpreter.depth = 0) ∧
    (w.heap.Without .error →
      (∀ before note after,
        callHistory ⟨steps, limit⟩ node scope w = before ++ note :: after →
          (note.depth : Int) = openCalls (before.map CallNote.mark)) ∧
      openCalls ((callHistory ⟨steps, limit⟩ node scope w).map CallNote.mark) = 0 ∧
      ((run ⟨steps, limit⟩ node scope w).1 = .value (.error (.depthLimit limit)) ↔
        AttemptedInside limit ((callHistory ⟨steps, limit⟩ node scope w).map CallNote.mark))) := by
  have hends : Ends ⟨steps, limit⟩ node scope w (run ⟨steps, limit⟩ node scope w) :=
    ends_run (.inr hlimit) node scope w
  have hfollows (calls : Nat) : (Tracer.ofLimits ⟨steps, limit⟩ calls).Follows
      (.fault (.depthLimit limit)) (.ofLimits ⟨steps, deeper⟩ calls) :=
    follows_ofDeeper hlimit hdeeper calls
  refine ⟨hends, fun h => ends_run h node scope w, ?_, ?_, depth_invoke _, ?_, ?_⟩
  -- a run that was not cut is the same with the other limit, whatever the engine was given
  · intro hresult
    have hsame := hends.of_follows hfollows hresult
    exact ⟨hsame, fun hended => (ends_of_ne_exhausted hended).unique hsame⟩
  · exact fun _ r hr => hends.output_of_follows hfollows hr
  · exact fun calls => observe_same CallNote calls _ node scope w
  · exact fun hheap => callHistory_tells ⟨steps, limit⟩ hlimit node scope hheap

/-- A program that calls a function twice, the second time such that it calls itself. -/
def descent : Node :=
  .program <| Parsed.program <| parse <| text
    "let f = fn(b) \x7b puts(b); if (b) \x7b return f(false) \x7d \x7d; f(false); f(true);"

/-- With a limit of one call the run is cut short in the second call, when that calls itself; the
first call was left before and does not count. With a limit of two it is not cut short, and so the
run without a limit ends too. -/
theorem depth_limit_only_cuts_descent :
    (run { depth := 1 } descent 0 .fresh).1 = .value (.error (.depthLimit 1)) ∧
    AttemptedInside 1 ((callHistory { depth := 1 } descent 0 .fresh).map CallNote.mark) ∧
    (run { depth := 1 } descent 0 .fresh).2.output <+:
      (run { depth := 2 } descent 0 .fresh).2.output ∧
    Ends {} descent 0 .fresh (run { depth := 2 } descent 0 .fresh) := by
  have hcut : (run { depth := 1 } descent 0 .fresh).1 = .value (.error (.depthLimit 1)) :=
    Outcome.fault?_eq_some.mp (by decide +kernel)
  have hwhole : (run { depth := 2 } descent 0 .fresh).1.fault? = none := by decide +kernel
  have h := depth_limit_only_cuts (show (0 : Int) < 1 by decide)
    (.inl (show (1 : Int) ≤ 2 by decide)) 0 descent 0 .fresh
  have h' := depth_limit_only_cuts (show (0 : Int) < 2 by decide)
    (.inr (show (0 : Int) ≤ 0 by decide)) 0 descent 0 .fresh
  refine ⟨hcut, (h.2.2.2.2.2.2 (World.without_fresh .error)).2.2.mp hcut,
    h.2.2.2.1 hcut _ (h.2.1 (.inr (by decide))), (h'.2.2.1 fun hresult => ?_).1⟩
  rw [hresult] at hwhole
  cases hwhole

end Monkey
