import Monkey.Proofs.CutShort

/-!
# The calls of a run

Every call of a function is marked in a run: when it is attempted, when its body is entered, and
when it is left, by its value, by a return, by a fault or otherwise. The marks are what the
interpreter counts its open calls by. The history of the calls of a run is what a state notes that
looks at these events only: each mark, and how many calls are open in the interpreter when it
happens.

`realizes_watch` says what a run does on any state, one on which marks leave something behind
included: it does what an evaluation does that is told how many calls are open and lets the marks
happen. So observing a run changes nothing (`observe_same`), and however a call ends, as many calls
are open after it as before (`depth_invoke`). The law `nesting` says how a history goes: no call is
left that was not entered, all calls are closed in the end, and the depth limit has stopped the run
just if a call was attempted inside as many open calls as the limit.
-/

namespace Monkey

open Traced

/-! ## Marks -/

/-- The mark that an event is. -/
def EvalEvent.mark? : EvalEvent → Option CallMark
  | .call mark => some mark
  | _ => none

/-- The marks among some events. -/
def marksIn (es : List EvalEvent) : List CallMark :=
  es.filterMap EvalEvent.mark?

theorem marksIn_append (es es' : List EvalEvent) :
    marksIn (es ++ es') = marksIn es ++ marksIn es' :=
  List.filterMap_append

/-- The calls that were entered in a history and not left. -/
def openCalls (history : List CallMark) : Int :=
  (history.count .entered : Int) - history.count .left

/-- How many calls are open is counted along a history. -/
theorem openCalls_append (h h' : List CallMark) :
    openCalls (h ++ h') = openCalls h + openCalls h' := by
  rw [openCalls, openCalls, openCalls, List.count_append, List.count_append]
  omega

/-- In a history a call is attempted inside some number of open calls. -/
def AttemptedInside (n : Int) (history : List CallMark) : Prop :=
  ∃ before after, history = before ++ .attempted :: after ∧ openCalls before = n

theorem not_attemptedInside_nil (n : Int) : ¬ AttemptedInside n [] := by
  rintro ⟨before, after, heq, -⟩
  exact absurd heq.symm (List.append_ne_nil_of_right_ne_nil before (List.cons_ne_nil _ _))

/-- The first mark is an attempt inside so many calls, or the rest has one, where the first mark
counts. -/
theorem attemptedInside_cons (n : Int) (m : CallMark) (h : List CallMark) :
    AttemptedInside n (m :: h) ↔
      m = .attempted ∧ n = 0 ∨ AttemptedInside (n - openCalls [m]) h := by
  constructor
  · rintro ⟨_ | ⟨first, before⟩, after, heq, hopen⟩
    · cases heq
      exact .inl ⟨rfl, hopen.symm⟩
    · cases heq
      refine .inr ⟨before, after, rfl, ?_⟩
      rw [← hopen, show m :: before = [m] ++ before from rfl, openCalls_append]
      omega
  · rintro (⟨rfl, rfl⟩ | ⟨before, after, rfl, hopen⟩)
    · exact ⟨[], h, rfl, rfl⟩
    · refine ⟨m :: before, after, rfl, ?_⟩
      rw [show m :: before = [m] ++ before from rfl, openCalls_append, hopen]
      omega

/-- An attempt inside so many calls is in the first part of a history or in the rest of it. -/
theorem attemptedInside_append (n : Int) (h h' : List CallMark) :
    AttemptedInside n (h ++ h') ↔ AttemptedInside n h ∨ AttemptedInside (n - openCalls h) h' := by
  induction h generalizing n with
  | nil =>
      rw [List.nil_append, show n - openCalls [] = n from Int.sub_zero n]
      exact ⟨.inr, fun h => h.resolve_left (not_attemptedInside_nil n)⟩
  | cons m h ih =>
      rw [List.cons_append, attemptedInside_cons, attemptedInside_cons, ih, or_assoc,
        show m :: h = [m] ++ h from rfl, openCalls_append, Int.sub_sub]

/-! ## Watched calls -/

/-- Mark that a call is left, whatever comes of it. -/
def leaving (x : Traced Value) : Traced Value :=
  fun w => ((x w).1 ++ [.call .left], (x w).2)

/-- Call a value as `traceCall` does, and mark the calls of functions. -/
def watchCall (limits : Limits) : (calls depth : Nat) → Value → List Value → Traced Value
  | 0, _, _, _ => stop .exhausted
  | calls + 1, depth, f, args =>
    match f with
    | .fn _ params body outer => do
      perform (.call .attempted)
      if 0 < limits.depth ∧ limits.depth ≤ depth then
        exceed (text "call depth limit exceeded") limits.depth (.depthLimit limits.depth)
      else do
        perform (.call .entered)
        leaving do
          let scope ← enclose outer
          traceParams scope params args
          let v ← body.trace ⟨limits, watchCall limits calls (depth + 1)⟩ scope
          traceUnwrap v
    | f => traceCall limits (calls + 1) depth f args

/-- The tracer of a tree whose calls are marked. -/
def Tracer.watching (limits : Limits) (calls : Nat) : Tracer :=
  ⟨limits, watchCall limits calls 0⟩

section

variable {limits : Limits} {calls depth : Nat}

/-- Where the limit is reached a call is attempted and not entered. -/
theorem watchCall_of_reachedBy (h : limits.ReachedBy depth) (ref : Ref)
    (params : List (Option Text)) (body : Block) (outer : ScopeId) (args : List Value) :
    watchCall limits (calls + 1) depth (.fn ref params body outer) args = (do
      perform (.call .attempted)
      exceed (text "call depth limit exceeded") limits.depth (.depthLimit limits.depth)) := by
  rw [watchCall, if_pos (show 0 < limits.depth ∧ limits.depth ≤ depth from h)]

/-- Where the limit is not reached a call is entered, and left however it ends. -/
theorem watchCall_of_not_reachedBy (h : ¬ limits.ReachedBy depth) (ref : Ref)
    (params : List (Option Text)) (body : Block) (outer : ScopeId) (args : List Value) :
    watchCall limits (calls + 1) depth (.fn ref params body outer) args = (do
      perform (.call .attempted)
      perform (.call .entered)
      leaving do
        let scope ← enclose outer
        traceParams scope params args
        let v ← body.trace ⟨limits, watchCall limits calls (depth + 1)⟩ scope
        traceUnwrap v) := by
  rw [watchCall, if_neg (show ¬ (0 < limits.depth ∧ limits.depth ≤ depth) from h)]

/-- What is not a function of the program is called without marks. -/
theorem watchCall_other {f : Value} (hf : ∀ ref params body outer, f ≠ .fn ref params body outer)
    (args : List Value) :
    watchCall limits (calls + 1) depth f args = traceCall limits (calls + 1) depth f args := by
  cases f with
  | fn ref params body outer => exact absurd rfl (hf ref params body outer)
  | _ => rfl

end

/-! ## Marks are left on any state -/

section

variable {σ : Type} [Eventful σ] {d : Nat}

/-- Events between entering a call and leaving it are level with the marks around them. -/
theorem Level.call {es : List EvalEvent} (h : Level es) :
    Level ([.call .entered] ++ (es ++ [.call .left])) := by
  intro i
  rw [Interpreter.after_append, Interpreter.after_append]
  show ((i.react (.call .entered)).after es).depth - 1 = i.depth
  rw [h]
  rfl

/-- The number of open calls that an entered call sees is one more, and after it is left it is as
before. -/
theorem Realizes.leaving {x : Interpret σ Value} {y : Traced Value}
    (hx : Realizes (d + 1) .value x y) :
    Realizes d .value (Interpret.perform (.call .entered) >>= fun _ =>
      tryFinally x (Interpret.perform (.call .left)))
      (Traced.perform (.call .entered) >>= fun _ => Monkey.leaving y) where
  run s hs := by
    rw [Interpret.run_perform_bind, Interpret.tryFinally_perform, hx.run_entered s hs]
    show _ = (_, Eventful.after s ([.call .entered] ++ ((y (Eventful.world s)).1 ++ [.call .left])))
    rw [Eventful.after_append, Eventful.after_append]
    rfl
  level w := (hx.level (w.after [.call .entered])).call
  clear w _ v heq := hx.clear (w.after [.call .entered]) _ v (Prod.ext rfl (Prod.mk.inj heq).2)

/-- On any state a call does what the watched call does that is told how many calls are open. -/
theorem realizes_watch (limits : Limits) (calls d : Nat) (f : Value) (args : List Value) :
    Realizes d .value (invoke limits calls f args : Interpret σ Value)
      (watchCall limits calls d f args) := by
  induction calls generalizing d f args with
  | zero => exact .exhausted
  | succ calls ih =>
    cases f with
    | fn ref params body outer =>
      refine .perform (fun _ => rfl) (.depth fun i hi => ?_)
      rw [hi]
      refine .ite (fun _ => .exceed _ _ _) fun _ => ?_
      exact (realizes_enter ⟨rfl, ih (d + 1)⟩ outer params body args).leaving
    | builtin b => exact (Realizes.builtin b args).noted.raise
    | _ => exact .fault (T := .value) _

/-- With watched calls, evaluation realizes the watched tracing. -/
theorem realizes_watching (limits : Limits) (calls : Nat) :
    (Engine.ofLimits limits calls : Engine σ).Realizes 0 (.watching limits calls) :=
  ⟨rfl, realizes_watch limits calls 0⟩

end

/-- However a call ends, as many calls are open in the interpreter as before. -/
theorem depth_invoke (limits : Limits) (calls : Nat) (f : Value) (args : List Value)
    (i : Interpreter) : ((invoke limits calls f args).run i).2.depth = i.depth := by
  have h := realizes_watch (σ := Interpreter) limits calls i.depth f args
  rw [h.run i rfl]
  exact h.level _ i

section

variable (β : Type) [Notes β] (calls : Nat) (limits : Limits) (node : Node) (scope : ScopeId)
  (w : World)

/-- The events and the result of a watched evaluation of a tree, with the report of a fault. -/
def watch : List EvalEvent × Except Stop Value :=
  (node.trace (.watching limits calls) scope).reported { w with steps := 0 }

/-- A run on any state does what the watched evaluation does. -/
theorem run_interpret_eq_watch {σ : Type} [Eventful σ] (s : σ)
    (hs : Eventful.interpreter s = Interpreter.start w) :
    (node.interpret calls limits scope).run s =
      (Telling.value.tell (watch calls limits node scope w).2,
        Eventful.after s (watch calls limits node scope w).1) := by
  have h := (node.realizes_interpret (realizes_watching (σ := σ) limits calls) scope).run s
    (by rw [hs]; rfl)
  rw [Eventful.world, hs] at h
  exact h

/-- Observing a run changes neither its result nor the world after it, and no call is open in the
interpreter at the end. -/
theorem observe_same :
    (.of (observe β calls limits node scope w).1,
      (observe β calls limits node scope w).2.interpreter.toWorld) =
        runWith calls limits node scope w ∧
    (observe β calls limits node scope w).2.interpreter.depth = 0 := by
  have h := node.realizes_interpret (realizes_watching (σ := Interpreter) limits calls) scope
  rw [observe, runWith, run_interpret_eq_watch calls limits node scope w _ rfl,
    run_interpret_eq_watch calls limits node scope w (Interpreter.start w) rfl, Observed.after_eq]
  exact ⟨rfl, h.level _ _⟩

end

/-! ## Histories -/

/-- What is noted of a call: what happens to it, and how many calls are open in the interpreter
then. -/
structure CallNote where
  mark : CallMark
  depth : Nat
  deriving DecidableEq, Repr

instance : Notes CallNote where
  note? i
    | .call mark => some ⟨mark, i.depth⟩
    | _ => none

/-- The history of the calls of a run. -/
def callHistory (limits : Limits) (node : Node) (scope : ScopeId) (w : World) : List CallNote :=
  (observe CallNote limits.calls limits node scope w).2.notes

/-- The history of a run is that of the watched tracing. -/
theorem callHistory_eq (limits : Limits) (node : Node) (scope : ScopeId) (w : World) :
    callHistory limits node scope w =
      notesFrom (Interpreter.start w) (watch limits.calls limits node scope w).1 := by
  rw [callHistory, observe, run_interpret_eq_watch limits.calls limits node scope w _ rfl,
    Observed.after_eq]
  rfl

/-- The marks that are noted are those among the events. -/
theorem marks_notesFrom (i : Interpreter) (es : List EvalEvent) :
    (notesFrom i es).map CallNote.mark = marksIn es := by
  induction es generalizing i with
  | nil => rfl
  | cons e es ih =>
    rw [notesFrom, List.map_append, ih]
    cases e <;> rfl

/-- A note is made at an event, after those that the notes before it are of. -/
theorem notesFrom_split {i : Interpreter} {es : List EvalEvent} {before after : List CallNote}
    {note : CallNote} (h : notesFrom i es = before ++ note :: after) :
    ∃ es₁ es₂, es = es₁ ++ .call note.mark :: es₂ ∧ notesFrom i es₁ = before ∧
      note.depth = (i.after es₁).depth := by
  induction es generalizing i before with
  | nil => cases before <;> cases h
  | cons e es ih =>
    -- an event that is no mark is skipped, a mark is the note looked for or one before it
    have hskip (hnone : Notes.note? (β := CallNote) i e = none) :
        ∃ es₁ es₂, e :: es = es₁ ++ .call note.mark :: es₂ ∧ notesFrom i es₁ = before ∧
          note.depth = (i.after es₁).depth := by
      rw [notesFrom, hnone] at h
      obtain ⟨es₁, es₂, rfl, hnotes, hdepth⟩ := ih h
      refine ⟨e :: es₁, es₂, rfl, ?_, hdepth⟩
      rw [notesFrom, hnone, hnotes]
      rfl
    cases e with
    | call mark =>
      cases before with
      | nil =>
        cases h
        exact ⟨[], es, rfl, rfl, rfl⟩
      | cons first before =>
        obtain ⟨hfirst, hrest⟩ := List.cons.inj h
        obtain ⟨es₁, es₂, rfl, hnotes, hdepth⟩ := ih hrest
        refine ⟨.call mark :: es₁, es₂, rfl, ?_, hdepth⟩
        rw [notesFrom, hnotes, ← hfirst]
        rfl
    | _ => exact hskip rfl

/-- As long as no call is left that was not entered, the interpreter counts the open calls. -/
theorem depth_after {i : Interpreter} {es : List EvalEvent}
    (h : ∀ before, before <+: marksIn es → 0 ≤ (i.depth : Int) + openCalls before) :
    ((i.after es).depth : Int) = i.depth + openCalls (marksIn es) := by
  induction es generalizing i with
  | nil => exact (Int.add_zero _).symm
  | cons e es ih =>
    cases e with
    | call mark =>
      have hmarks : marksIn (.call mark :: es) = [mark] ++ marksIn es := rfl
      have hreact : ((i.react (.call mark)).depth : Int) = i.depth + openCalls [mark] := by
        have hfirst := h [mark] (hmarks ▸ List.prefix_append _ _)
        cases mark with
        | attempted => exact (Int.add_zero _).symm
        | entered => rfl
        | left =>
          have hopen : openCalls [CallMark.left] = -1 := rfl
          show ((i.depth - 1 : Nat) : Int) = _
          omega
      rw [hmarks, openCalls_append, ← Int.add_assoc, ← hreact]
      refine ih fun before hbefore => ?_
      rw [hreact, Int.add_assoc, ← openCalls_append]
      exact h _ (hmarks ▸ (List.prefix_append_right_inj _).mpr hbefore)
    | _ => exact ih h

/-! ## How a history goes -/

/-- Some events leave no call that they did not enter, open no call that they do not close, and
attempt a call at the depth limit just if so stated. -/
structure Tells (limit : Int) (depth : Nat) (hit : Prop) (es : List EvalEvent) : Prop where
  entered (before : List CallMark) : before <+: marksIn es → 0 ≤ openCalls before
  closed : openCalls (marksIn es) = 0
  attempted : AttemptedInside (limit - depth) (marksIn es) ↔ hit

variable {limit : Int} {depth : Nat} {hit : Prop} {es es' : List EvalEvent}

theorem Tells.of_marksIn (h : marksIn es = []) (hhit : ¬ hit) : Tells limit depth hit es where
  entered before hbefore := by
    rw [h, List.prefix_nil] at hbefore
    rw [hbefore]
    exact Int.le_refl 0
  closed := by rw [h]; rfl
  attempted := by
    rw [h]
    exact ⟨fun h => absurd h (not_attemptedInside_nil _), fun h => absurd h hhit⟩

/-- What two parts tell is told by the whole, if the first one was not cut. -/
theorem Tells.append (hes : Tells limit depth False es) (hes' : Tells limit depth hit es') :
    Tells limit depth hit (es ++ es') where
  entered before hbefore := by
    obtain ⟨rest, hrest⟩ := hbefore
    rw [marksIn_append] at hrest
    rcases List.append_eq_append_iff.mp hrest with ⟨more, hmore, -⟩ | ⟨more, rfl, hmore⟩
    · exact hes.entered before (hmore ▸ List.prefix_append before more)
    · rw [openCalls_append, hes.closed, Int.zero_add]
      exact hes'.entered more (hmore ▸ List.prefix_append more rest)
  closed := by
    rw [marksIn_append, openCalls_append, hes.closed, hes'.closed]
    rfl
  attempted := by
    rw [marksIn_append, attemptedInside_append, hes.closed, Int.sub_zero, hes.attempted,
      hes'.attempted, false_or]

/-- A call that is entered and left: inside it one call more is open. -/
theorem Tells.call (hdepth : depth < limit) (h : Tells limit (depth + 1) hit es) :
    Tells limit depth hit ([.call .attempted] ++ ([.call .entered] ++ (es ++ [.call .left]))) := by
  have hinner : limit - (depth : Int) - 0 - 1 = limit - ((depth + 1 : Nat) : Int) := by omega
  have hmarks : marksIn ([.call .attempted] ++ ([.call .entered] ++ (es ++ [.call .left]))) =
      .attempted :: .entered :: (marksIn es ++ [.left]) := by
    simp only [marksIn_append]
    rfl
  have hcons (mark : CallMark) (marks : List CallMark) :
      openCalls (mark :: marks) = openCalls [mark] + openCalls marks :=
    openCalls_append [mark] marks
  constructor
  case entered =>
    intro before hbefore
    rw [hmarks, List.prefix_cons_iff] at hbefore
    rcases hbefore with rfl | ⟨inside, rfl, hinside⟩
    · exact Int.le_refl 0
    rw [hcons, show openCalls [CallMark.attempted] = 0 from rfl, Int.zero_add]
    rcases List.prefix_cons_iff.mp hinside with rfl | ⟨body, rfl, hbody⟩
    · exact Int.le_refl 0
    rw [hcons, show openCalls [CallMark.entered] = 1 from rfl]
    -- the history ends after the call was left, or inside it
    rcases List.prefix_concat_iff.mp hbody with rfl | hfirst
    · rw [openCalls_append, h.closed]
      exact Int.le_refl 0
    · have := h.entered body hfirst
      omega
  case closed =>
    rw [hmarks, hcons .attempted, hcons .entered, openCalls_append, h.closed]
    rfl
  case attempted =>
    have hlast (n : Int) : ¬ AttemptedInside n [.left] := by
      rw [attemptedInside_cons]
      rintro (⟨⟨⟩, -⟩ | h)
      exact not_attemptedInside_nil _ h
    -- an attempt at the limit is the call itself or inside it, and this call is below the limit
    rw [hmarks, attemptedInside_cons, attemptedInside_cons, attemptedInside_append,
      show openCalls [CallMark.attempted] = 0 from rfl,
      show openCalls [CallMark.entered] = 1 from rfl, hinner, h.attempted]
    constructor
    · rintro (⟨-, hzero⟩ | ⟨⟨⟩, -⟩ | h | h)
      · omega
      · exact h
      · exact absurd h (hlast _)
    · exact fun h => .inr (.inr (.inl h))

/-- No call is left that was not entered, all calls are closed at the end, and the depth limit stops
an evaluation just if a call is attempted inside as many calls as the limit: the calls around, and
those that are open. -/
def nesting (limit : Int) (depth : Nat) : Law where
  value v := v.tag ≠ .error
  passes := Value.Without .error
  yields _ := Value.Without .error
  good _ := Tells limit depth False
  ended s _ := Tells limit depth (s = .fault (.depthLimit limit))
  lawful.value_of_isData := Tag.Passing.ne_of_isData (.inl rfl)
  lawful.value_of_isFreeOf htag _ h := Tag.noConfusion (htag.symm.trans h)
  lawful.passes_of_kept := id
  lawful.passes_returned h := (Value.Without.returned_iff _ _).mpr ⟨Tag.noConfusion, h⟩
  lawful.passes_of_yields := id
  lawful.yields_of_kept := id
  lawful.yields_cond := id
  lawful.kept_of_returned h := ((Value.Without.returned_iff _ _).mp h).2
  lawful.kept_of_passes h _ := h
  lawful.good_nil _ := .of_marksIn rfl id
  lawful.good_append := Tells.append
  lawful.good_drew _ := .of_marksIn rfl id
  lawful.good_printed _ _ := .of_marksIn rfl id
  lawful.good_enclosed _ _ := .of_marksIn rfl id
  lawful.good_bound _ _ := .of_marksIn rfl id
  lawful.good_yielded _ := .of_marksIn rfl id
  lawful.use h := .inl ⟨h, .of_marksIn rfl id⟩
  lawful.append_ended := Tells.append
  lawful.ended_crash _ _ _ := .of_marksIn rfl Stop.noConfusion
  lawful.ended_fail {w f} hf := .of_marksIn rfl (by rintro ⟨⟩; cases hf)
  lawful.ended_raise h := absurd rfl h.self
  lawful.ended_yielded {w f es} h := by
    have hmarks : marksIn (es ++ [.yielded (.error f)]) = marksIn es := by
      rw [marksIn_append]
      exact List.append_nil _
    exact ⟨hmarks ▸ h.entered, hmarks ▸ h.closed, hmarks ▸ h.attempted⟩

variable {limits : Limits}

/-- Counting a node says nothing about calls. -/
theorem nesting_step : (nesting limit depth).Obeys (fun _ => True) (step limits) := by
  refine .step (fun _ => .of_marksIn rfl id) fun w _ => .of_marksIn rfl ?_
  rintro ⟨⟩

/-- What a call does once its depth is checked, if what is inside it obeys the law with one call
more around. -/
theorem nesting_entered (hdepth : depth < limit) {x : Traced Value}
    (hx : (nesting limit (depth + 1)).Obeys (nesting limit (depth + 1)).Kept x) :
    (nesting limit depth).Obeys (nesting limit depth).Kept (do
      perform (.call .attempted)
      perform (.call .entered)
      leaving x) := by
  intro w hw
  have h := hx w hw
  show Law.Fits _ _ w ([.call .attempted] ++ ([.call .entered] ++ ((x w).1 ++ [.call .left])),
    (x w).2)
  generalize x w = r at h ⊢
  rcases r with ⟨es, s | v⟩
  · exact h.call hdepth
  · obtain ⟨hv, hheap, hgood⟩ := h.resolve_right id
    refine .inl ⟨hv, ?_, hgood.call hdepth⟩
    rw [World.after_append, World.after_append, World.after_append]
    exact hheap

/-- A call at some depth obeys the law of that depth. The induction is on the calls that may be
inside one another: with each one that is entered the depth limit is nearer by one. -/
theorem nesting_call (hpos : 0 < limits.depth) (calls : Nat) (hdepth : depth ≤ limits.depth)
    {f : Value} {args : List Value} (hf : (nesting limits.depth depth).Kept f)
    (hargs : ∀ v ∈ args, (nesting limits.depth depth).Kept v) :
    (nesting limits.depth depth).Obeys (nesting limits.depth depth).Kept
      (watchCall limits calls depth f args) := by
  induction calls generalizing depth f args with
  | zero =>
    refine fun w _ => .of_marksIn rfl ?_
    rintro ⟨⟩
  | succ calls ih =>
    cases f with
    | fn ref params body outer =>
      by_cases hreached : limits.ReachedBy depth
      · rw [watchCall_of_reachedBy hreached]
        intro w _
        -- the limit is reached by exactly as many calls as are open
        have hnow : limits.depth - depth = 0 := by have := hreached.2; omega
        refine ⟨fun before hbefore => ?_, rfl, ?_⟩
        · rcases List.prefix_cons_iff.mp hbefore with rfl | ⟨rest, rfl, hrest⟩
          · exact Int.le_refl 0
          · rw [List.prefix_nil.mp hrest]
            exact Int.le_refl 0
        · rw [hnow]
          exact ⟨fun _ => rfl, fun _ => ⟨[], [], rfl, rfl⟩⟩
      · rw [watchCall_of_not_reachedBy hreached]
        have hlt : (depth : Int) < limits.depth := Int.not_le.mp fun hle => hreached ⟨hpos, hle⟩
        -- inside the call the law holds with one more call around
        have hgoverns : (nesting limits.depth (depth + 1)).Governs
            ⟨limits, watchCall limits calls (depth + 1)⟩ :=
          ⟨nesting_step, fun f vs hf hvs => ih (by omega) hf hvs⟩
        refine nesting_entered hlt
          (Law.obeys_closure outer (fun scope => ?_) (fun scope => ?_) hargs)
        · exact ⟨.inl trivial, fun _ _ => trivial⟩
        · exact Law.obeys_block hgoverns scope body ⟨fun _ => .inl trivial, fun _ _ => trivial⟩
    | _ =>
      rw [watchCall_other]
      · refine Law.obeys_otherCall ?_ hargs
        rintro _ _ _ _ ⟨⟩
      · rintro _ _ _ _ ⟨⟩

/-- The watched evaluation of a tree from a heap without errors, and its report if it has a
fault. -/
theorem watch_tells (hpos : 0 < limits.depth) (calls : Nat) (node : Node) (scope : ScopeId)
    {w : World} (hw : w.heap.Without .error) :
    Tells limits.depth 0
      (Telling.value.tell (watch calls limits node scope w).2 =
        .ok (.error (.depthLimit limits.depth)))
      (watch calls limits node scope w).1 := by
  have hgoverns : (nesting limits.depth 0).Governs (.watching limits calls) :=
    ⟨nesting_step, fun f vs hf hvs => nesting_call hpos calls (Int.le_of_lt hpos) hf hvs⟩
  have h := Law.obeys_node hgoverns scope node ⟨fun _ => .inl trivial, fun _ _ => trivial⟩
    { w with steps := 0 } hw
  rw [watch, Traced.reported]
  generalize node.trace _ scope { w with steps := 0 } = r at h ⊢
  -- a run without a depth fault must not have attempted a call at the limit
  rcases r with ⟨es, (f | c | _) | v⟩
  · have hmarks : marksIn (es ++ [.logged f.report]) = marksIn es := by
      rw [marksIn_append]
      exact List.append_nil _
    refine ⟨hmarks ▸ h.entered, hmarks ▸ h.closed, ?_⟩
    show AttemptedInside _ (marksIn (es ++ [.logged f.report])) ↔ _
    rw [hmarks, h.attempted]
    constructor <;> rintro ⟨⟩ <;> rfl
  · refine ⟨h.entered, h.closed, h.attempted.trans (iff_of_false ?_ ?_)⟩ <;> rintro ⟨⟩
  · refine ⟨h.entered, h.closed, h.attempted.trans (iff_of_false ?_ ?_)⟩ <;> rintro ⟨⟩
  · obtain ⟨hv, -, hgood⟩ := h.resolve_right id
    refine ⟨hgood.entered, hgood.closed, hgood.attempted.trans ⟨False.elim, ?_⟩⟩
    rintro ⟨⟩
    exact hv.tag_ne rfl

/-- The result of a run is that of the watched evaluation. -/
theorem runWith_eq_watch (calls : Nat) (limits : Limits) (node : Node) (scope : ScopeId)
    (w : World) :
    (runWith calls limits node scope w).1 =
      .of (Telling.value.tell (watch calls limits node scope w).2) := by
  rw [runWith, run_interpret_eq_watch calls limits node scope w (Interpreter.start w) rfl]

theorem Outcome.of_eq_value {r : Except Halt Value} {v : Value} :
    Outcome.of r = .value v ↔ r = .ok v := by
  rcases r with (c | _) | u
  · refine iff_of_false ?_ ?_ <;> rintro ⟨⟩
  · refine iff_of_false ?_ ?_ <;> rintro ⟨⟩
  · exact ⟨fun h => by cases h; rfl, fun h => by cases h; rfl⟩

/-- How the history of a run goes that starts from a heap without errors: at each mark the
interpreter counts the calls that are open, all calls are closed in the end, and the depth limit
ended the run just if a call was attempted inside as many open calls. -/
theorem callHistory_tells (limits : Limits) (hpos : 0 < limits.depth) (node : Node)
    (scope : ScopeId) {w : World} (hw : w.heap.Without .error) :
    (∀ before note after, callHistory limits node scope w = before ++ note :: after →
      (note.depth : Int) = openCalls (before.map CallNote.mark)) ∧
    openCalls ((callHistory limits node scope w).map CallNote.mark) = 0 ∧
    ((run limits node scope w).1 = .value (.error (.depthLimit limits.depth)) ↔
      AttemptedInside limits.depth ((callHistory limits node scope w).map CallNote.mark)) := by
  have htells := watch_tells hpos limits.calls node scope hw
  rw [run, runWith_eq_watch, Outcome.of_eq_value, callHistory_eq, marks_notesFrom]
  refine ⟨fun before note after heq => ?_, htells.closed, ?_⟩
  · obtain ⟨es₁, es₂, hes, rfl, hdepth⟩ := notesFrom_split heq
    rw [hdepth, marks_notesFrom, depth_after fun first hfirst => ?_]
    · exact Int.zero_add _
    · have hprefix : marksIn es₁ <+: marksIn (watch limits.calls limits node scope w).1 := by
        rw [hes, marksIn_append]
        exact List.prefix_append _ _
      exact Int.add_nonneg (Int.natCast_nonneg _) (htells.entered first (hfirst.trans hprefix))
  · have hzero : limits.depth - ((0 : Nat) : Int) = limits.depth := Int.sub_zero _
    rw [← htells.attempted, hzero]

end Monkey
