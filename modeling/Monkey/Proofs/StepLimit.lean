import Monkey.Proofs.Termination

/-!
# A step limit only cuts a run short

The count of nodes is looked at in one place only, where a node is counted. So a run with a step
limit does what a run with a larger one does, or with none, up to the node that is one too many for
the smaller limit. There it stops, and what it has printed by then the other run has printed as
well.

That a run with a larger limit need not end when there is none is no exception. If the run with the
smaller limit is not cut short by it, the other run ends too, and in the same way.
-/

namespace Monkey

open Traced

variable {limit larger depth : Int}

/-- A step is the same under a larger limit or none, until it is one too many for the smaller
one. -/
theorem follows_step (hlimit : 0 < limit) (hlarger : limit ≤ larger ∨ larger ≤ 0) :
    Follows (.fault (.stepLimit limit)) (step ⟨limit, depth⟩) (step ⟨larger, depth⟩) := by
  intro w
  rcases step_cases ⟨limit, depth⟩ w with ⟨hle, hstep⟩ | ⟨-, hstep⟩
  · have hwithin : (w.steps : Int) + 1 ≤ limit := hle hlimit
    rcases step_cases ⟨larger, depth⟩ w with ⟨-, hstep'⟩ | ⟨⟨hpos, hlt⟩, -⟩
    · exact .inl (hstep.trans hstep'.symm)
    · have hpos' : 0 < larger := hpos
      have hlt' : larger < (w.steps : Int) + 1 := hlt
      omega
  · -- the node is counted in both runs, and only the first one ends with it
    refine .inr ⟨[.counted], 1, ?_, hstep⟩
    rcases step_cases ⟨larger, depth⟩ w with ⟨-, hstep'⟩ | ⟨-, hstep'⟩ <;>
    · rewrite [hstep']
      exact ⟨_, rfl⟩

theorem follows_moreSteps (hlimit : 0 < limit) (hlarger : limit ≤ larger ∨ larger ≤ 0)
    (calls around : Nat) (f : Value) (args : List Value) :
    Follows (.fault (.stepLimit limit)) (traceCall ⟨limit, depth⟩ calls around f args)
      (traceCall ⟨larger, depth⟩ calls around f args) := by
  induction calls generalizing around f args with
  | zero => exact .refl _
  | succ calls ih =>
      have hinner : Tracer.Follows (.fault (.stepLimit limit))
          ⟨⟨limit, depth⟩, traceCall ⟨limit, depth⟩ calls (around + 1)⟩
          ⟨⟨larger, depth⟩, traceCall ⟨larger, depth⟩ calls (around + 1)⟩ :=
        ⟨follows_step hlimit hlarger, ih (around + 1)⟩
      exact follows_traceCall hinner id (fun _ => .inr rfl) f args

/-- Trees follow, given the same calls, under a larger step limit or none. -/
theorem follows_ofLarger (hlimit : 0 < limit) (hlarger : limit ≤ larger ∨ larger ≤ 0)
    (calls : Nat) :
    (Tracer.ofLimits ⟨limit, depth⟩ calls).Follows (.fault (.stepLimit limit))
      (.ofLimits ⟨larger, depth⟩ calls) :=
  ⟨follows_step hlimit hlarger, follows_moreSteps hlimit hlarger calls 0⟩

/-- **A step limit only cuts a run short.** A run with a step limit ends, and so does one with a
larger limit. If the limit is not exceeded, the run with a larger limit or none ends as well, with
the same result and the same world, which is the heap, the output and the log. So the two runs are
the same, unless the one without a limit is given too few calls to end. If the limit is exceeded,
what the run has printed is the first part of what the other run prints, if that one ends. -/
theorem step_limit_only_cuts {limit larger : Int} (hlimit : 0 < limit)
    (hlarger : limit ≤ larger ∨ larger ≤ 0) (depth : Int) (node : Node) (scope : ScopeId)
    (w : World) :
    Ends ⟨limit, depth⟩ node scope w (run ⟨limit, depth⟩ node scope w) ∧
    (0 < larger → Ends ⟨larger, depth⟩ node scope w (run ⟨larger, depth⟩ node scope w)) ∧
    ((run ⟨limit, depth⟩ node scope w).1 ≠ .value (.error (.stepLimit limit)) →
      Ends ⟨larger, depth⟩ node scope w (run ⟨limit, depth⟩ node scope w) ∧
      ((run ⟨larger, depth⟩ node scope w).1 ≠ .exhausted →
        run ⟨larger, depth⟩ node scope w = run ⟨limit, depth⟩ node scope w)) ∧
    ((run ⟨limit, depth⟩ node scope w).1 = .value (.error (.stepLimit limit)) →
      ∀ r, Ends ⟨larger, depth⟩ node scope w r →
        (run ⟨limit, depth⟩ node scope w).2.output <+: r.2.output) := by
  have hends : Ends ⟨limit, depth⟩ node scope w (run ⟨limit, depth⟩ node scope w) :=
    ends_run (.inl hlimit) node scope w
  have hfollows (calls : Nat) : (Tracer.ofLimits ⟨limit, depth⟩ calls).Follows
      (.fault (.stepLimit limit)) (.ofLimits ⟨larger, depth⟩ calls) :=
    follows_ofLarger hlimit hlarger calls
  refine ⟨hends, fun hpos => ends_run (.inl hpos) node scope w, ?_, ?_⟩
  · intro hresult
    have hsame := hends.of_follows hfollows hresult
    exact ⟨hsame, fun hended => (ends_of_ne_exhausted hended).unique hsame⟩
  · exact fun _ r hr => hends.output_of_follows hfollows hr

/-- A program whose function prints and calls itself, from within an array that is an argument. -/
def countdown : Node :=
  .program (parse (text
    "let f = fn(n) \x7b puts(n); if (n > 0) \x7b f(n - 1) \x7d \x7d; puts([f(1)]);")).program

/-- With a limit of 20 nodes the function is cut short in its first call; with 100 it is not, and
so the run without a limit ends too. -/
theorem step_limit_only_cuts_countdown :
    (run { steps := 20 } countdown 0 .fresh).1 = .value (.error (.stepLimit 20)) ∧
    (run { steps := 20 } countdown 0 .fresh).2.output <+:
      (run { steps := 100 } countdown 0 .fresh).2.output ∧
    Ends {} countdown 0 .fresh (run { steps := 100 } countdown 0 .fresh) := by
  have hcut : (run { steps := 20 } countdown 0 .fresh).1 = .value (.error (.stepLimit 20)) :=
    Outcome.fault?_eq_some.mp (by decide +kernel)
  have hwhole : (run { steps := 100 } countdown 0 .fresh).1.fault? = none := by decide +kernel
  have h := step_limit_only_cuts (show (0 : Int) < 20 by decide)
    (.inl (show (20 : Int) ≤ 100 by decide)) 0 countdown 0 .fresh
  have h' := step_limit_only_cuts (show (0 : Int) < 100 by decide)
    (.inr (show (0 : Int) ≤ 0 by decide)) 0 countdown 0 .fresh
  refine ⟨hcut, h.2.2.2 hcut _ (h.2.1 (by decide)), (h'.2.2.1 fun hresult => ?_).1⟩
  rw [hresult] at hwhole
  cases hwhole

end Monkey
