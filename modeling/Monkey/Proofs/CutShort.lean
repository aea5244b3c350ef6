import Monkey.Proofs.FirstError

/-!
# Runs that are cut short

Two runs of one tree may differ in what bounds them only: the calls that may be inside one another,
or a limit. The one with the smaller bound follows the other until the bound stops it. Up to there
the events are the same, and from there on nothing happens but that the stop is passed outward.

`Traced.Follows` says so of two evaluations. It is kept by everything that evaluations are built
with, so nodes follow if steps and calls do (`Node.follows_trace`), for whichever bound it is. For
the number of calls this gives what a run without that number would do (`Ends`).
-/

namespace Monkey

/-- The events from a stop on. Only a fault is noted on its way outward. -/
def Stop.trail : Stop → Nat → List EvalEvent
  | .fault f, n => f.trail n
  | .crash _, _ | .exhausted, _ => []

/-- The result of a run that stops. -/
def Stop.outcome : Stop → Outcome
  | .fault f => .value (.error f)
  | .crash c => .crashed c
  | .exhausted => .exhausted

/-- The fault that a run ends with. -/
def Outcome.fault? : Outcome → Option Fault
  | .value (.error f) => some f
  | _ => none

/-- A run has a fault exactly if its result is the fault as a value. -/
theorem Outcome.fault?_eq_some {o : Outcome} {f : Fault} :
    o.fault? = some f ↔ o = .value (.error f) := by
  unfold Outcome.fault?
  split
  · exact ⟨fun h => by cases h; rfl, fun h => by cases h; rfl⟩
  · rename_i hne
    exact ⟨nofun, fun h => absurd h (hne f)⟩

/-- One more construct around a fault says it once more. -/
theorem Stop.trail_succ (f : Fault) (n : Nat) :
    (Stop.fault f).trail n ++ [.yielded (.error f)] = (Stop.fault f).trail (n + 1) := by
  show f.trail n ++ [.yielded (.error f)] = f.trail (n + 1)
  rw [Fault.trail, Fault.trail, List.replicate_succ', List.append_assoc]

namespace Traced

variable {α β : Type} {s : Stop}

/-- From every world one evaluation does what another does, or it does the first part of that and
is then stopped. -/
def Follows (s : Stop) (x y : Traced α) : Prop :=
  ∀ w, x w = y w ∨ ∃ common n, common <+: (y w).1 ∧ x w = (common ++ s.trail n, .error s)

/-- What comes after an evaluation takes none of its events away. -/
theorem prefix_bind (x : Traced α) (k : α → Traced β) (w : World) :
    (x w).1 <+: ((x >>= k) w).1 := by
  rcases h : x w with ⟨es, e | a⟩
  · rewrite [bind_of_error h]
    exact List.prefix_rfl
  · rw [bind_of_ok h]
    exact List.prefix_append es _

namespace Follows

/-- An evaluation follows itself. -/
theorem refl (x : Traced α) : Follows s x x :=
  fun _ => .inl rfl

/-- Where the first part is cut short so is the whole; where it is not, the second part is
followed. -/
theorem bind {x y : Traced α} {k l : α → Traced β} (hx : Follows s x y)
    (hk : ∀ a, Follows s (k a) (l a)) : Follows s (x >>= k) (y >>= l) := by
  intro w
  rcases hx w with heq | ⟨common, n, hcommon, hstop⟩
  · rcases hy : y w with ⟨es, e | a⟩
    · left
      rw [bind_of_error (heq.trans hy), bind_of_error hy]
    · rw [bind_of_ok (heq.trans hy), bind_of_ok hy]
      rcases hk a (w.after es) with heq' | ⟨common, n, hcommon, hstop⟩
      · left
        rw [heq']
      · right
        refine ⟨es ++ common, n, (List.prefix_append_right_inj es).mpr hcommon, ?_⟩
        rw [hstop, List.append_assoc]
  · -- the first one has stopped, whatever the second does after this
    exact .inr ⟨common, n, hcommon.trans (prefix_bind y l w), bind_of_error hstop⟩

theorem ite {c : Prop} [Decidable c] {x y x' y' : Traced α} (hx : Follows s x x')
    (hy : Follows s y y') : Follows s (if c then x else y) (if c then x' else y') := by
  by_cases hc : c
  · rw [if_pos hc, if_pos hc]
    exact hx
  · rw [if_neg hc, if_neg hc]
    exact hy

/-- A cut is said to yield its fault by each node around it. -/
theorem noted {x y : Traced Value} (h : Follows s x y) : Follows s (noted x) (noted y) := by
  intro w
  rcases h w with heq | ⟨common, n, hcommon, hstop⟩
  · left
    show (_ ++ yieldOf (x w).2, (x w).2) = (_ ++ yieldOf (y w).2, (y w).2)
    rw [heq]
  · right
    have hprefix : common <+: (Traced.noted y w).1 := hcommon.trans (List.prefix_append _ _)
    have hnoted : Traced.noted x w = (common ++ s.trail n ++ yieldOf (.error s), .error s) := by
      show (_ ++ yieldOf (x w).2, (x w).2) = _
      rw [hstop]
    cases s with
    | fault f =>
        refine ⟨common, n + 1, hprefix, hnoted.trans ?_⟩
        rw [← Stop.trail_succ, List.append_assoc]
        rfl
    | crash c => exact ⟨common, n, hprefix, hnoted.trans (congrArg (·, _) (List.append_nil _))⟩
    | exhausted => exact ⟨common, n, hprefix, hnoted.trans (congrArg (·, _) (List.append_nil _))⟩

/-- A value that was not cut off is used in both. -/
theorem used {e : Expr} {x y : Traced Value} (h : Follows s x y) :
    Follows s (used e x) (used e y) :=
  h.bind fun _ => .refl _

/-- A limit that is exceeded in the first evaluation stops it before the rest of the second. -/
theorem exceed {message : Text} {limit : Int} {f : Fault} (hf : f.warning? = some
      { level := .warn, message, attributes := [(text "limit", Text.ofInt limit)] })
    (y : Traced α) : Follows (.fault f) (exceed message limit f) y := by
  intro w
  refine .inr ⟨[], 1, List.nil_prefix, ?_⟩
  show _ = ([] ++ f.trail 1, _)
  rw [Fault.trail, hf]
  rfl

end Follows

end Traced

open Traced

/-- What counting a node does: it is counted, and if it is one too many for the limit, that is all
that happens but for the trail of the fault. -/
theorem step_cases (limits : Limits) (w : World) :
    (0 < limits.steps → (w.steps : Int) + 1 ≤ limits.steps) ∧
      step limits w = ([.counted], .ok ()) ∨
    (0 < limits.steps ∧ limits.steps < (w.steps : Int) + 1) ∧
      step limits w = (.counted :: (Fault.stepLimit limits.steps).trail 1,
        .error (.fault (.stepLimit limits.steps))) := by
  let counted := w.after [.counted]
  have hstep : step limits w =
      ([.counted] ++ ((if 0 < limits.steps ∧ limits.steps < (counted.steps : Int) then
        exceed (text "step limit exceeded") limits.steps (.stepLimit limits.steps)
        else pure () : Traced Unit) counted).1,
      ((if 0 < limits.steps ∧ limits.steps < (counted.steps : Int) then
        exceed (text "step limit exceeded") limits.steps (.stepLimit limits.steps)
        else pure () : Traced Unit) counted).2) := rfl
  by_cases h : 0 < limits.steps ∧ limits.steps < (counted.steps : Int)
  · right
    rw [if_pos h] at hstep
    exact ⟨h, hstep⟩
  · left
    rw [if_neg h] at hstep
    refine ⟨fun hpos => ?_, hstep⟩
    exact Int.not_lt.mp fun hlt => h ⟨hpos, hlt⟩

/-! ## Nodes -/

variable {s : Stop} {m m' : Tracer}

/-- The steps and the calls of one tracer follow those of another. -/
structure Tracer.Follows (s : Stop) (m m' : Tracer) : Prop where
  step : Traced.Follows s (step m.limits) (step m'.limits)
  apply (f : Value) (vs : List Value) : Traced.Follows s (m.apply f vs) (m'.apply f vs)

/-- A node that is counted follows if its rule does. -/
theorem Tracer.Follows.node {x y : Traced Value} (h : m.Follows s m') (hx : Traced.Follows s x y) :
    Traced.Follows s (noted (Traced.step m.limits >>= fun _ => x))
      (noted (Traced.step m'.limits >>= fun _ => y)) :=
  (h.step.bind fun _ => hx).noted

mutual

/-- A tree is followed if its calls are. -/
theorem Expr.follows_trace (h : m.Follows s m') (scope : ScopeId) :
    (e : Expr) → Follows s (e.trace m scope) (e.trace m' scope)
  | .absent => .refl _
  | .nameless => h.node (.refl _)
  | .foreign _ => h.node (.refl _)
  | .ident _ _ => h.node (.refl _)
  | .int _ _ => h.node (.refl _)
  | .bool _ _ => h.node (.refl _)
  | .str _ _ => h.node (.refl _)
  | .unary _ _ operand =>
      h.node <| .ite (.refl _) <| (operand.follows_trace h scope).used.bind fun _ => .refl _
  | .binary _ _ left right =>
      h.node <| .ite (.refl _) <| (left.follows_trace h scope).used.bind fun _ =>
        (right.follows_trace h scope).used.bind fun _ => .refl _
  | .cond _ test consequence alternative =>
      h.node <| (test.follows_trace h scope).used.bind fun _ =>
        .ite (consequence.follows_trace h scope) <|
          .ite (.refl _) (alternative.follows_trace h scope)
  | .fn _ _ _ => h.node (.refl _)
  | .call _ callee args =>
      h.node <| (callee.follows_trace h scope).used.bind fun f =>
        (follows_traceExprs h scope args).bind fun vs => h.apply f vs
  | .array _ elements => h.node <| (follows_traceExprs h scope elements).bind fun _ => .refl _
  | .index _ left index =>
      h.node <| (left.follows_trace h scope).used.bind fun _ =>
        (index.follows_trace h scope).used.bind fun _ => .refl _
  | .hash _ pairs => h.node <| (follows_tracePairs h scope pairs []).bind fun _ => .refl _

/-- Expressions are followed one after the other, up to the cut. -/
theorem follows_traceExprs (h : m.Follows s m') (scope : ScopeId) :
    (es : List Expr) → Follows s (traceExprs m scope es) (traceExprs m' scope es)
  | [] => .refl _
  | e :: rest => (e.follows_trace h scope).used.bind fun _ =>
      (follows_traceExprs h scope rest).bind fun _ => .refl _

/-- Pairs are followed one after the other, up to the cut. -/
theorem follows_tracePairs (h : m.Follows s m') (scope : ScopeId) :
    (pairs : List (Expr × Expr)) → (table : Table Value) →
      Follows s (tracePairs m scope pairs table) (tracePairs m' scope pairs table)
  | [], _ => .refl _
  | (k, v) :: rest, table => by
      refine (k.follows_trace h scope).used.bind fun key => ?_
      cases key.key? with
      | none => exact .refl _
      | some key =>
          exact (v.follows_trace h scope).used.bind fun value => follows_tracePairs h scope rest _

/-- A statement is followed if its calls are. -/
theorem Stmt.follows_trace (h : m.Follows s m') (scope : ScopeId) :
    (st : Stmt) → Follows s (st.trace m scope) (st.trace m' scope)
  | .absent => .refl _
  | .bind _ name value => by
      refine h.node ?_
      cases name with
      | none => exact .refl _
      | some name =>
          cases value.isAbsent with
          | true => exact .refl _
          | false => exact (value.follows_trace h scope).used.bind fun _ => .refl _
  | .ret _ value => h.node <| (value.follows_trace h scope).used.bind fun _ => .refl _
  | .expr _ expr => h.node (expr.follows_trace h scope)
  | .block block => block.follows_trace h scope

/-- Statements are followed one after the other, up to the cut. -/
theorem follows_traceStatements (h : m.Follows s m') (scope : ScopeId) :
    (ss : List Stmt) → (last : Value) →
      Follows s (traceStatements m scope last ss) (traceStatements m' scope last ss)
  | [], _ => .refl _
  | st :: rest, _ => (st.follows_trace h scope).bind fun v =>
      .ite (.refl _) (follows_traceStatements h scope rest v)

/-- A block is followed if its calls are. -/
theorem Block.follows_trace (h : m.Follows s m') (scope : ScopeId) :
    (b : Block) → Follows s (b.trace m scope) (b.trace m' scope)
  | .absent => h.node (.refl _)
  | .of _ statements => h.node (follows_traceStatements h scope statements .null)

end

/-- Any node is followed if its calls are. -/
theorem Node.follows_trace (h : m.Follows s m') (scope : ScopeId) (node : Node) :
    Follows s (node.trace m scope) (node.trace m' scope) := by
  cases node with
  | program p =>
      exact h.node ((follows_traceStatements h scope p.statements .null).bind fun _ => .refl _)
  | stmt st => exact st.follows_trace h scope
  | expr e => exact e.follows_trace h scope

/-! ## Calls -/

variable {limits limits' : Limits} {calls calls' depth : Nat}

/-- Whether one more call would exceed the depth limit. -/
def Limits.ReachedBy (limits : Limits) (depth : Nat) : Prop :=
  0 < limits.depth ∧ limits.depth ≤ depth

/-- Where the limit is reached a call is not entered. -/
theorem traceCall_of_reachedBy (h : limits.ReachedBy depth) (ref : Ref)
    (params : List (Option Text)) (body : Block) (outer : ScopeId) (args : List Value) :
    traceCall limits (calls + 1) depth (.fn ref params body outer) args =
      exceed (text "call depth limit exceeded") limits.depth (.depthLimit limits.depth) :=
  if_pos h

/-- Where the limit is not reached a call is entered, with one more call around it. -/
theorem traceCall_of_not_reachedBy (h : ¬ limits.ReachedBy depth) (ref : Ref)
    (params : List (Option Text)) (body : Block) (outer : ScopeId) (args : List Value) :
    traceCall limits (calls + 1) depth (.fn ref params body outer) args = (do
      let scope ← enclose outer
      traceParams scope params args
      let v ← body.trace ⟨limits, traceCall limits calls (depth + 1)⟩ scope
      traceUnwrap v) :=
  if_neg h

/-- A call follows another one if the calls inside it do. The depth limit may stop the first, but
not the second alone. -/
theorem follows_traceCall
    (hinner : Tracer.Follows s ⟨limits, traceCall limits calls (depth + 1)⟩
      ⟨limits', traceCall limits' calls' (depth + 1)⟩)
    (hreached : limits'.ReachedBy depth → limits.ReachedBy depth)
    (hstop : limits.ReachedBy depth →
      s = .fault (.depthLimit limits.depth) ∨ limits'.depth = limits.depth)
    (f : Value) (args : List Value) :
    Follows s (traceCall limits (calls + 1) depth f args)
      (traceCall limits' (calls' + 1) depth f args) := by
  cases f with
  | fn ref params body outer =>
      -- the first call is cut here, by its own limit or by a limit that cuts both
      by_cases hdepth : limits.ReachedBy depth
      · rw [traceCall_of_reachedBy hdepth]
        rcases hstop hdepth with rfl | heq
        · exact .exceed rfl _
        · have hdepth' : limits'.ReachedBy depth := by
            rw [Limits.ReachedBy, heq]
            exact hdepth
          rw [traceCall_of_reachedBy hdepth', heq]
          exact .refl _
      · rw [traceCall_of_not_reachedBy hdepth, traceCall_of_not_reachedBy (mt hreached hdepth)]
        refine (Follows.refl _).bind fun scope => (Follows.refl _).bind fun _ => ?_
        exact (body.follows_trace hinner scope).bind fun _ => .refl _
  | _ => exact .refl _

/-- A call that is given fewer calls follows one that is given more, until it has used them up. -/
theorem follows_moreCalls (limits : Limits) (hcalls : calls ≤ calls') (depth : Nat) (f : Value)
    (args : List Value) :
    Follows .exhausted (traceCall limits calls depth f args)
      (traceCall limits calls' depth f args) := by
  induction calls generalizing calls' depth f args with
  | zero => exact fun w => .inr ⟨[], 0, List.nil_prefix, rfl⟩
  | succ calls ih =>
      obtain ⟨calls', rfl⟩ : ∃ n, calls' = n + 1 := ⟨calls' - 1, by omega⟩
      have hinner : Tracer.Follows .exhausted ⟨limits, traceCall limits calls (depth + 1)⟩
          ⟨limits, traceCall limits calls' (depth + 1)⟩ :=
        ⟨.refl _, ih (Nat.le_of_succ_le_succ hcalls) (depth + 1)⟩
      exact follows_traceCall hinner id (fun _ => .inr rfl) f args

/-! ## Runs -/

/-- What an event prints. -/
def EvalEvent.printed? : EvalEvent → Text
  | .printed t => t
  | _ => []

/-- What is printed after some events is what was printed before and what the events print. -/
theorem output_after (w : World) (es : List EvalEvent) :
    (w.after es).output = w.output ++ es.flatMap EvalEvent.printed? := by
  induction es generalizing w with
  | nil => exact (List.append_nil w.output).symm
  | cons e es ih =>
      rw [World.after, List.foldl_cons, ← World.after, ih]
      cases e with
      | printed t => exact List.append_assoc w.output t _
      | _ => rfl

/-- A shorter trace has printed an initial part of what a longer one prints. -/
theorem output_prefix {es es' : List EvalEvent} (h : es <+: es') (w : World) :
    (w.after es).output <+: (w.after es').output := by
  obtain ⟨rest, rfl⟩ := h
  rw [World.after_append, output_after (w.after es)]
  exact List.prefix_append _ _

/-- What is said of a cut prints nothing. -/
theorem output_trail (w : World) (s : Stop) (n : Nat) :
    (w.after (s.trail n)).output = w.output := by
  have hquiet : ∀ e ∈ s.trail n, e.printed? = [] := by
    intro e he
    cases s with
    | fault f =>
        rcases List.mem_append.mp he with he | he
        · obtain ⟨r, -, rfl⟩ := List.mem_map.mp he
          rfl
        · rw [(List.mem_replicate.mp he).2]
          rfl
    | crash c => exact absurd he List.not_mem_nil
    | exhausted => exact absurd he List.not_mem_nil
  rw [output_after, List.flatMap_eq_nil_iff.mpr hquiet, List.append_nil]

/-- The events and the result of a run whose tree was evaluated with a given stop. -/
theorem trace_of_stop {node : Node} {scope : ScopeId} {w : World} {es : List EvalEvent}
    (h : node.trace (.ofLimits limits calls) scope { w with steps := 0 } = (es, .error s)) :
    ∃ report, (∀ e ∈ report, e.printed? = []) ∧
      trace calls limits node scope w = (es ++ report, s.outcome) := by
  rw [trace_eq, h]
  cases s with
  | fault f => exact ⟨[.logged f.report], List.forall_mem_singleton.mpr rfl, rfl⟩
  | crash c => exact ⟨[], fun _ he => absurd he List.not_mem_nil, by rw [List.append_nil]; rfl⟩
  | exhausted => exact ⟨[], fun _ he => absurd he List.not_mem_nil, by rw [List.append_nil]; rfl⟩

/-- A run is no shorter than the evaluation of its tree. -/
theorem prefix_trace (calls : Nat) (limits : Limits) (node : Node) (scope : ScopeId) (w : World) :
    (node.trace (.ofLimits limits calls) scope { w with steps := 0 }).1 <+:
      (trace calls limits node scope w).1 := by
  rw [trace_eq]
  rcases node.trace (.ofLimits limits calls) scope { w with steps := 0 } with ⟨es, (f | _ | _) | v⟩
  · exact List.prefix_append es _
  · exact List.prefix_rfl
  · exact List.prefix_rfl
  · exact List.prefix_rfl

/-- If the evaluation of a tree follows another, the run is the same, or it is cut short: it ends by
the stop, having printed a first part of what the other run prints. -/
theorem runWith_of_follows (h : (Tracer.ofLimits limits calls).Follows s (.ofLimits limits' calls'))
    (node : Node) (scope : ScopeId) (w : World) :
    runWith calls limits node scope w = runWith calls' limits' node scope w ∨
      (runWith calls limits node scope w).1 = s.outcome ∧
        (runWith calls limits node scope w).2.output <+:
          (runWith calls' limits' node scope w).2.output := by
  rcases node.follows_trace h scope { w with steps := 0 } with heq | ⟨common, n, hcommon, hstop⟩
  · left
    rw [runWith_eq_trace, runWith_eq_trace, trace_eq, trace_eq, heq]
  · right
    obtain ⟨report, hreport, htrace⟩ := trace_of_stop hstop
    have hlonger := hcommon.trans (prefix_trace calls' limits' node scope w)
    rw [runWith_eq_trace, runWith_eq_trace, htrace]
    refine ⟨rfl, ?_⟩
    show (World.after _ (common ++ s.trail n ++ report)).output <+: _
    rw [World.after_append, output_after _ report, List.flatMap_eq_nil_iff.mpr hreport,
      List.append_nil, World.after_append, output_trail]
    exact output_prefix hlonger _

/-- How a run ends that is given as many calls inside one another as it needs. -/
def Ends (limits : Limits) (node : Node) (scope : ScopeId) (w : World) (r : Outcome × World) :
    Prop :=
  r.1 ≠ .exhausted ∧ ∃ calls, ∀ more, calls ≤ more → runWith more limits node scope w = r

/-- A run ends in one way only. -/
theorem Ends.unique {node : Node} {scope : ScopeId} {w : World} {r r' : Outcome × World}
    (h : Ends limits node scope w r) (h' : Ends limits node scope w r') : r = r' := by
  obtain ⟨-, calls, hcalls⟩ := h
  obtain ⟨-, calls', hcalls'⟩ := h'
  -- with calls enough for both
  rw [← hcalls (max calls calls') (Nat.le_max_left ..),
    ← hcalls' (max calls calls') (Nat.le_max_right ..)]

/-- A run that did not use up its calls goes the same way with more calls. -/
theorem ends_of_ne_exhausted {node : Node} {scope : ScopeId} {w : World}
    (h : (runWith calls limits node scope w).1 ≠ .exhausted) :
    Ends limits node scope w (runWith calls limits node scope w) := by
  refine ⟨h, calls, fun more hmore => ?_⟩
  have hfollows : (Tracer.ofLimits limits calls).Follows .exhausted (.ofLimits limits more) :=
    ⟨.refl _, follows_moreCalls limits hmore 0⟩
  rcases runWith_of_follows hfollows node scope w with heq | ⟨hexhausted, -⟩
  · exact heq.symm
  · exact absurd hexhausted h

/-- If trees follow under other limits, given any number of calls, a run that is not stopped ends in
the same way under those limits. -/
theorem Ends.of_follows
    (h : ∀ calls, (Tracer.ofLimits limits calls).Follows s (.ofLimits limits' calls)) {node : Node}
    {scope : ScopeId} {w : World} {r : Outcome × World} (hr : Ends limits node scope w r)
    (hs : r.1 ≠ s.outcome) : Ends limits' node scope w r := by
  obtain ⟨hne, calls, hcalls⟩ := hr
  refine ⟨hne, calls, fun more hmore => ?_⟩
  rw [← hcalls more hmore] at hs ⊢
  rcases runWith_of_follows (h more) node scope w with heq | ⟨hcut, -⟩
  · exact heq.symm
  · exact absurd hcut hs

/-- Whether it is stopped or not, such a run prints a first part of what the other run prints. -/
theorem Ends.output_of_follows
    (h : ∀ calls, (Tracer.ofLimits limits calls).Follows s (.ofLimits limits' calls)) {node : Node}
    {scope : ScopeId} {w : World} {r r' : Outcome × World} (hr : Ends limits node scope w r)
    (hr' : Ends limits' node scope w r') : r.2.output <+: r'.2.output := by
  obtain ⟨-, calls, hcalls⟩ := hr
  obtain ⟨-, calls', hcalls'⟩ := hr'
  -- with calls enough for both runs, the two can be compared
  rw [← hcalls (max calls calls') (Nat.le_max_left ..),
    ← hcalls' (max calls calls') (Nat.le_max_right ..)]
  rcases runWith_of_follows (h (max calls calls')) node scope w with heq | ⟨-, hprefix⟩
  · rewrite [heq]
    exact List.prefix_rfl
  · exact hprefix

end Monkey
