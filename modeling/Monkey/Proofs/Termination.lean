import Monkey.Proofs.Crashes

/-!
# Limits end runs

A program can call itself without end, so nothing in a tree bounds how long its run is. Either limit
does. To use up its calls, a run must have that many calls inside one another. Each of them has
passed the check of the depth, so there are no more than the depth limit allows, and in each of them
the body has been counted, so there are no more than the step limit allows. A run with a limit is
given one call more than that, and so it never uses them up.

Two laws say this: what running out of calls takes (`spending`), and how many nodes are counted
(`counting`).
-/

namespace Monkey

open Traced

/-- Whether an event is that a node is counted. -/
def EvalEvent.isCounted : EvalEvent → Bool
  | .counted => true
  | _ => false

/-- How many nodes are counted in some events. -/
def nodesIn (es : List EvalEvent) : Nat :=
  es.countP EvalEvent.isCounted

theorem nodesIn_append (es es' : List EvalEvent) :
    nodesIn (es ++ es') = nodesIn es + nodesIn es' :=
  List.countP_append

/-- Every node that is evaluated is counted, and nothing else is. -/
theorem steps_after (w : World) (es : List EvalEvent) :
    (w.after es).steps = w.steps + nodesIn es := by
  induction es generalizing w with
  | nil => rfl
  | cons e es ih =>
      rw [World.after, List.foldl_cons, ← World.after, ih]
      cases e with
      | counted =>
          show w.steps + 1 + nodesIn es = w.steps + nodesIn ([.counted] ++ es)
          rw [nodesIn_append]
          exact Nat.add_assoc w.steps 1 _
      | _ => rfl

/-! ## Running out of calls -/

/-- What it takes to run out of calls at some depth: as many nodes are counted as there were calls
left, and as many calls are within the depth limit. -/
def Spent (limits : Limits) (calls depth : Nat) (s : Stop) (es : List EvalEvent) : Prop :=
  s = .exhausted →
    calls ≤ nodesIn es ∧ (0 < limits.depth → ((depth + calls : Nat) : Int) ≤ limits.depth)

/-- What is spent at the end of some events is spent at the end of more. -/
theorem Spent.append {limits : Limits} {calls depth : Nat} {s : Stop} {es' : List EvalEvent}
    (h : Spent limits calls depth s es') (es : List EvalEvent) :
    Spent limits calls depth s (es ++ es') := by
  intro hs
  rw [nodesIn_append]
  exact ⟨Nat.le_add_left_of_le (h hs).1, (h hs).2⟩

/-- A run that ends since it is out of calls has spent them. -/
def spending (limits : Limits) (calls depth : Nat) : Law where
  ended s _ es := Spent limits calls depth s es
  lawful.use _ := .inl ⟨fun _ _ => trivial, trivial⟩
  lawful.append_ended _ h := h.append _
  lawful.ended_crash _ _ _ := nofun
  lawful.ended_fail _ := nofun
  lawful.ended_raise _ := nofun
  lawful.ended_yielded _ := nofun

variable {limits : Limits} {calls depth : Nat} {m : Tracer}

theorem spending_step : (spending limits calls depth).Obeys (fun _ => True) (step limits) :=
  .step (fun _ => trivial) fun _ _ => nofun

/-- A node that is counted is one more than those in its rule. -/
theorem spending_node {x : Traced Value}
    (hx : (spending limits calls (depth + 1)).Obeys (fun _ => True) x) :
    (spending limits (calls + 1) depth).Obeys (fun _ => True)
      (noted (step limits >>= fun _ => x)) := by
  refine .noted ?_ fun _ _ => trivial
  intro w hw
  rcases step_cases limits w with ⟨-, hstep⟩ | ⟨-, hstep⟩
  · rw [bind_of_ok hstep]
    have h := hx (w.after [.counted]) hw
    generalize x (w.after [.counted]) = r at h ⊢
    rcases r with ⟨es, s | v⟩
    · intro hs
      obtain ⟨hnodes, hdepth⟩ := h hs
      have hone : nodesIn ([.counted] ++ es) = 1 + nodesIn es := nodesIn_append _ _
      refine ⟨Nat.le_trans (by omega) (Nat.le_of_eq hone.symm), fun hpos => ?_⟩
      have hle := hdepth hpos
      omega
    · exact .inl ⟨trivial, (h.resolve_right id).2.1, trivial⟩
  · rw [bind_of_error hstep]
    exact nofun

/-- The body of a call is counted as a node, and that pays for the call. -/
theorem spending_block (hlimits : m.limits = limits)
    (hm : (spending limits calls (depth + 1)).Governs m) (scope : ScopeId) (b : Block) :
    (spending limits (calls + 1) depth).Obeys (fun _ => True) (b.trace m scope) := by
  subst hlimits
  cases b with
  | absent => exact spending_node (.pure trivial)
  | of origin statements =>
      exact spending_node
        (Law.obeys_statements hm scope statements .null ⟨fun _ => .inl trivial, fun _ _ => trivial⟩
          trivial)

/-- A call that runs out of calls has as many calls inside one another as it was given. The body of
each has been counted, and each was within the depth limit. -/
theorem spending_call (calls : Nat)
    (hdepth : 0 < limits.depth → (depth : Int) ≤ limits.depth) (f : Value) (args : List Value) :
    (spending limits calls depth).Obeys (spending limits calls depth).Kept
      (traceCall limits calls depth f args) := by
  induction calls generalizing depth f args with
  | zero => exact fun w hw hs => ⟨Nat.zero_le _, hdepth⟩
  | succ calls ih =>
      have hargs : ∀ v ∈ args, (spending limits (calls + 1) depth).Kept v :=
        fun _ _ _ _ => trivial
      cases f with
      | fn ref params body outer =>
          by_cases hreached : limits.ReachedBy depth
          · rw [traceCall_of_reachedBy hreached]
            exact fun _ _ => nofun
          -- the call is entered with one call less to spend and one more around it
          · rw [traceCall_of_not_reachedBy hreached]
            have hinner : 0 < limits.depth → ((depth + 1 : Nat) : Int) ≤ limits.depth := by
              intro hpos
              have hlt := Int.not_le.mp fun hle => hreached ⟨hpos, hle⟩
              omega
            have hgoverns : (spending limits calls (depth + 1)).Governs
                ⟨limits, traceCall limits calls (depth + 1)⟩ :=
              ⟨spending_step, fun f vs _ _ => ih hinner f vs⟩
            refine Law.obeys_closure outer (fun scope => ?_) (fun scope => ?_) hargs
            · exact ⟨.inl trivial, fun _ _ => trivial⟩
            · exact spending_block rfl hgoverns scope body
      | _ =>
          refine Law.obeys_otherCall ?_ hargs
          exact nofun

/-! ## Counting -/

/-- From a world that is within a step limit, some events stay within it. -/
def Within (limit : Int) (w : World) (es : List EvalEvent) : Prop :=
  w.steps ≤ limit → (w.steps + nodesIn es : Int) ≤ limit

theorem Within.nil (limit : Int) (w : World) : Within limit w [] :=
  fun h => Int.le_trans (Int.le_of_eq (Int.add_zero _)) h

theorem Within.quiet {limit : Int} {w : World} {e : EvalEvent} (he : e.isCounted = false) :
    Within limit w [e] := by
  intro h
  rw [show nodesIn [e] = 0 from List.countP_eq_zero.mpr (by simpa using he)]
  exact Within.nil limit w h

/-- Two parts that stay within the limit stay within it one after the other. -/
theorem Within.append {limit : Int} {w : World} {es es' : List EvalEvent} (hes : Within limit w es)
    (hes' : Within limit (w.after es) es') : Within limit w (es ++ es') := by
  intro h
  have hmiddle := hes h
  rw [Within, steps_after] at hes'
  have hlast := hes' (by omega)
  rw [nodesIn_append]
  omega

/-- The events up to the first node that is one too many for a step limit, and the trail of the
fault. -/
def CutAt (limit : Int) (w : World) (es : List EvalEvent) : Prop :=
  ∃ before n, es = before ++ .counted :: (Fault.stepLimit limit).trail n ∧
    (w.steps + nodesIn before : Int) = limit

/-- What is cut in its second part is cut. -/
theorem CutAt.append {limit : Int} {w : World} {es es' : List EvalEvent}
    (h : CutAt limit (w.after es) es') : CutAt limit w (es ++ es') := by
  obtain ⟨before, n, rfl, hbefore⟩ := h
  refine ⟨es ++ before, n, (List.append_assoc es before _).symm, ?_⟩
  rw [steps_after] at hbefore
  rw [nodesIn_append]
  omega

/-- That a cut yields its fault adds no node. -/
theorem CutAt.yielded {limit : Int} {w : World} {es : List EvalEvent} {f : Fault}
    (h : CutAt limit w es) (hf : Stop.fault f = .fault (.stepLimit limit)) :
    CutAt limit w (es ++ [.yielded (.error f)]) := by
  cases hf
  obtain ⟨before, n, rfl, hbefore⟩ := h
  refine ⟨before, n + 1, ?_, hbefore⟩
  rw [List.append_assoc, List.cons_append]
  exact congrArg (before ++ .counted :: ·) (Stop.trail_succ _ n)

/-- The nodes stay within a step limit, unless the limit ends the run at the first node that is one
too many. -/
def counting (limit : Int) : Law where
  good := Within limit
  ended s w es := Within limit w es ∨ s = .fault (.stepLimit limit) ∧ CutAt limit w es
  lawful.good_nil := Within.nil limit
  lawful.good_append := Within.append
  lawful.good_drew _ := .quiet rfl
  lawful.good_printed _ _ := .quiet rfl
  lawful.good_enclosed _ _ := .quiet rfl
  lawful.good_bound _ _ := .quiet rfl
  lawful.good_yielded _ := .quiet rfl
  lawful.use _ := .inl ⟨fun _ _ => trivial, .quiet rfl⟩
  lawful.append_ended hes := Or.imp hes.append (And.imp_right CutAt.append)
  lawful.ended_crash _ _ _ := .inl (.nil limit _)
  lawful.ended_fail _ := .inl (.nil limit _)
  lawful.ended_raise _ := .inl (.nil limit _)
  lawful.ended_yielded := Or.imp (·.append (.quiet rfl)) fun h => ⟨h.1, h.2.yielded h.1⟩

/-- A step stays within the limit, or is the cut itself. -/
theorem counting_step (hpos : 0 < limits.steps) :
    (counting limits.steps).Obeys (fun _ => True) (step limits) := by
  intro w hw
  rcases step_cases limits w with ⟨hle, hstep⟩ | ⟨⟨-, hlt⟩, hstep⟩
  · rw [hstep]
    exact .inl ⟨trivial, hw, fun _ => hle hpos⟩
  · rw [hstep]
    by_cases hw : (w.steps : Int) ≤ limits.steps
    · refine .inr ⟨rfl, [], 1, rfl, ?_⟩
      show (w.steps + (0 : Nat) : Int) = limits.steps
      omega
    · -- nothing is said of a world that is beyond the limit already
      exact .inl fun h => absurd h hw

/-- Trees with any number of calls stay within the limit or are cut at it. -/
theorem counting_governs (hpos : 0 < limits.steps) (calls : Nat) :
    (counting limits.steps).Governs (.ofLimits limits calls) := by
  refine ⟨counting_step hpos, fun f vs hf hvs => ?_⟩
  refine Law.obeys_call (fun _ _ => trivial) (counting_step hpos) ?_ ?_ calls 0 hf hvs
  · intro w _
    exact .inl ((Within.quiet rfl).append (.quiet rfl))
  · exact fun w => .inl (.nil _ w)

/-! ## Runs -/

variable {node : Node} {scope : ScopeId} {w : World}

/-- With a limit, a run does not use up the calls that it is given. -/
theorem trace_ne_exhausted (hlimits : 0 < limits.steps ∨ 0 < limits.depth) (es : List EvalEvent) :
    node.trace (.ofLimits limits limits.calls) scope { w with steps := 0 } ≠
      (es, .error .exhausted) := by
  intro hr
  have hspending : (spending limits limits.calls 0).Governs (.ofLimits limits limits.calls) :=
    ⟨spending_step, fun f vs _ _ => spending_call limits.calls Int.le_of_lt f vs⟩
  have hspent := Law.obeys_node hspending scope node ⟨fun _ => .inl trivial, fun _ _ => trivial⟩
    { w with steps := 0 } fun _ _ _ _ _ _ _ => trivial
  rw [hr] at hspent
  obtain ⟨hnodes, hdepth⟩ := hspent rfl
  -- as many calls were given as one of the limits allows and one more, which is too many for it
  by_cases hpos : 0 < limits.depth
  · have hle := hdepth hpos
    rw [Limits.calls, if_pos hpos] at hle
    omega
  · have hsteps : 0 < limits.steps := hlimits.resolve_right hpos
    have hcounted := Law.obeys_node (counting_governs hsteps limits.calls) scope node
      ⟨fun _ => .inl trivial, fun _ _ => trivial⟩ { w with steps := 0 } fun _ _ _ _ _ _ _ => trivial
    rw [hr] at hcounted
    rcases hcounted with hwithin | ⟨hs, -⟩
    · have hle := hwithin (Int.le_of_lt hsteps)
      rw [Limits.calls, if_neg hpos, if_pos hsteps] at hnodes
      change ((0 : Nat) + nodesIn es : Int) ≤ limits.steps at hle
      omega
    · cases hs

/-- The events of a run with a step limit: no more nodes than the limit are counted, or as many as
the limit, and then one more, after which there is only the error and the report of it. -/
theorem trace_within (hpos : 0 < limits.steps) (calls : Nat) (node : Node) (scope : ScopeId)
    (w : World) :
    (nodesIn (trace calls limits node scope w).1 : Int) ≤ limits.steps ∨
      (trace calls limits node scope w).2 = .value (.error (.stepLimit limits.steps)) ∧
      ∃ before n, (trace calls limits node scope w).1 = before ++ .counted ::
          ((Fault.stepLimit limits.steps).trail n ++
            [.logged (Fault.stepLimit limits.steps).report]) ∧
        (nodesIn before : Int) = limits.steps := by
  have h := Law.obeys_node (counting_governs hpos calls) scope node
    ⟨fun _ => .inl trivial, fun _ _ => trivial⟩ { w with steps := 0 } fun _ _ _ _ _ _ _ => trivial
  have hzero (es : List EvalEvent) (hwithin : Within limits.steps { w with steps := 0 } es) :
      (nodesIn es : Int) ≤ limits.steps := by
    have hle := hwithin (Int.le_of_lt hpos)
    change ((0 : Nat) + nodesIn es : Int) ≤ limits.steps at hle
    omega
  rw [trace_eq]
  generalize node.trace (.ofLimits limits calls) scope { w with steps := 0 } = r at h ⊢
  -- the report of a fault is not a node, so it adds nothing to the count
  rcases r with ⟨es, (f | _ | _) | v⟩
  · rcases h with hwithin | ⟨hs, before, n, rfl, hbefore⟩
    · exact .inl (hzero _ (hwithin.append (.quiet rfl)))
    · cases hs
      refine .inr ⟨rfl, before, n, ?_, ?_⟩
      · exact List.append_assoc before (.counted :: (Fault.stepLimit limits.steps).trail n) _
      · change ((0 : Nat) + nodesIn before : Int) = limits.steps at hbefore
        omega
  · rcases h with hwithin | ⟨hs, -⟩
    · exact .inl (hzero es hwithin)
    · cases hs
  · rcases h with hwithin | ⟨hs, -⟩
    · exact .inl (hzero es hwithin)
    · cases hs
  · exact .inl (hzero es (h.resolve_right id).2.2)

/-- A run with a limit ends, however many calls it is given beyond those that it takes. -/
theorem ends_run (hlimits : 0 < limits.steps ∨ 0 < limits.depth) (node : Node) (scope : ScopeId)
    (w : World) : Ends limits node scope w (run limits node scope w) := by
  refine ends_of_ne_exhausted ?_
  rw [runWith_eq_trace, trace_eq]
  rcases hr : node.trace (.ofLimits limits limits.calls) scope { w with steps := 0 } with
    ⟨es, (f | _ | _) | v⟩
  · rintro ⟨⟩
  · rintro ⟨⟩
  · exact absurd hr (trace_ne_exhausted hlimits es)
  · rintro ⟨⟩

/-- **Either limit ends a run.** With a step limit or a depth limit a run ends, from every world. If
tree and heap have only nodes of the language, it ends with a value, or it looks into something that
is missing from one of them. With a step limit, a run is its trace, and no more nodes are evaluated
than the limit: if one more is attempted, then all that happens is that the limit error is yielded
and reported, and it is the result. -/
theorem limited_run_ends (limits : Limits) (hlimits : 0 < limits.steps ∨ 0 < limits.depth)
    (node : Node) (scope : ScopeId) (w : World) :
    Ends limits node scope w (run limits node scope w) ∧
    (node.isFreeOf .unhandledNode = true → w.heap.FreeOf .unhandledNode →
      (∃ v, (run limits node scope w).1 = .value v) ∨
      (run limits node scope w).1 = .crashed .absent ∧
        ¬ (node.isFreeOf .absent = true ∧ w.heap.FreeOf .absent)) ∧
    run limits node scope w = ((trace limits.calls limits node scope w).2,
      ({ w with steps := 0 } : World).after (trace limits.calls limits node scope w).1) ∧
    (0 < limits.steps →
      (nodesIn (trace limits.calls limits node scope w).1 : Int) ≤ limits.steps ∨
      (run limits node scope w).1 = .value (.error (.stepLimit limits.steps)) ∧
      ∃ before n, (trace limits.calls limits node scope w).1 = before ++ .counted ::
          ((Fault.stepLimit limits.steps).trail n ++
            [.logged (Fault.stepLimit limits.steps).report]) ∧
        (nodesIn before : Int) = limits.steps) := by
  have hends := ends_run hlimits node scope w
  have hrun := runWith_eq_trace limits.calls limits node scope w
  refine ⟨hends, fun hnode hheap => ?_, hrun, fun hpos => ?_⟩
  · cases hresult : (run limits node scope w).1 with
    | value v => exact .inl ⟨v, rfl⟩
    | exhausted => exact absurd hresult hends.1
    | crashed c =>
      -- without nodes of an unknown kind only an absent part can crash a run
      cases crashed_absent hnode hheap hresult
      refine .inr ⟨rfl, fun h => ?_⟩
      exact (run_freeOf limits.calls limits scope h.1 h.2).1 hresult
  · rw [run, hrun]
    exact trace_within hpos limits.calls node scope w

/-- A function that calls itself without end, through an array that holds it. -/
theorem limited_run_ends_recursion :
    (∃ v, (run { depth := 3 } (.program (parse (text
      "let f = fn(g) \x7b g[0](g) \x7d; f([f])")).program) 0 .fresh).1 = .value v) ∧
    ∃ before n, (trace 31 { steps := 30 } (.program (parse (text
      "let f = fn(g) \x7b g[0](g) \x7d; f([f])")).program) 0 .fresh).1 = before ++ .counted ::
        ((Fault.stepLimit 30).trail n ++ [.logged (Fault.stepLimit 30).report]) ∧
      (nodesIn before : Int) = 30 := by
  let p := (parse (text "let f = fn(g) \x7b g[0](g) \x7d; f([f])")).program
  have hdepth := limited_run_ends { depth := 3 } (.inr (by decide)) (.program p) 0 .fresh
  have hsteps := limited_run_ends { steps := 30 } (.inl (by decide)) (.program p) 0 .fresh
  constructor
  · have hwhole : (Node.program p).isFreeOf .absent = true ∧ World.fresh.heap.FreeOf .absent :=
      ⟨by decide +kernel, World.everywhere_fresh _⟩
    exact (hdepth.2.1 (by decide +kernel) (World.everywhere_fresh _)).resolve_right
      fun h => h.2 hwhole
  · refine ((hsteps.2.2.2 (by decide)).resolve_left ?_).2
    decide +kernel

end Monkey
