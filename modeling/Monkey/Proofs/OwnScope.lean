import Monkey.Proofs.CutShort

/-!
# An evaluation writes its own scope only

A let statement binds its name in the scope that it is evaluated in, and a call binds parameters in
the scope that it makes. Blocks have no scope of their own. So of the scopes that there were before,
an evaluation writes at most the one it is done in, and there only names that the tree binds outside
of function bodies; and a call writes none, whatever its body does.

The law `ownScope` says so of the events. A body is evaluated under another instance of that law
than the call, one for the scope that was just made, and to the caller all of that scope is new.
What the events bind then tells which scopes are as they were.
-/

namespace Monkey

/-! ## Bindings -/

/-- A name that was just bound is found with its value. -/
theorem lookup_bindName_self (name : Text) (v : Value) (bs : List (Text × Value)) :
    (bindName name v bs).lookup name = some v := by
  induction bs with
  | nil => exact List.lookup_cons_self
  | cons b rest ih =>
      rw [bindName]
      by_cases h : b.1 = name
      · rw [if_pos h]
        exact List.lookup_cons_self
      · rw [if_neg h, List.lookup_cons, beq_false_of_ne (Ne.symm h)]
        exact ih

/-- Other names are found as before. -/
theorem lookup_bindName_of_ne {name other : Text} (hne : other ≠ name) (v : Value)
    (bs : List (Text × Value)) : (bindName name v bs).lookup other = bs.lookup other := by
  induction bs with
  | nil =>
      rw [bindName, List.lookup_cons, beq_false_of_ne hne]
  | cons b rest ih =>
      rw [bindName]
      by_cases h : b.1 = name
      · rw [if_pos h, List.lookup_cons, List.lookup_cons, h, beq_false_of_ne hne]
      · rw [if_neg h, List.lookup_cons, List.lookup_cons, ih]

namespace Heap

variable {h : Heap} {id i : ScopeId} {name : Text} {v : Value}

/-- Binding makes no scope. -/
theorem nextId_bind (h : Heap) (id : ScopeId) (name : Text) (v : Value) :
    (h.bind id name v).nextId = h.nextId :=
  Array.size_modify

/-- A new scope has the next number. -/
theorem nextId_enclose (h : Heap) (outer : ScopeId) : (h.enclose outer).nextId = h.nextId + 1 :=
  Array.size_push _

/-- Binding changes no other scope. -/
theorem scope_bind_of_ne (hi : i ≠ id) : (h.bind id name v).scope i = h.scope i := by
  show ((h.scopes.modify id _)[i]?).getD {} = _
  rw [Array.getElem?_modify, if_neg (Ne.symm hi)]
  rfl

/-- Binding changes the bindings of its scope only. -/
theorem scope_bind_self (hid : id < h.nextId) : (h.bind id name v).scope id =
    { h.scope id with bindings := bindName name v (h.scope id).bindings } := by
  show ((h.scopes.modify id _)[id]?).getD {} = _
  rw [Array.getElem?_modify, if_pos rfl]
  have hget : h.scopes[id]? = some (h.scope id) := by
    rw [Heap.scope, Array.getElem?_eq_getElem hid]
    rfl
  rw [hget]
  rfl

/-- A new scope changes no other scope. -/
theorem scope_enclose_of_ne (hi : i ≠ h.nextId) (outer : ScopeId) :
    (h.enclose outer).scope i = h.scope i := by
  show ((h.scopes.push _)[i]?).getD {} = _
  have hsize : i ≠ h.scopes.size := hi
  rw [Array.getElem?_push, if_neg hsize]
  rfl

/-- What no evaluation undoes: scopes stay, with what is around them, and a name that is bound in
one stays bound in it. -/
structure Grows (h h' : Heap) : Prop where
  nextId_le : h.nextId ≤ h'.nextId
  enclosing_eq : ∀ i < h.nextId, (h'.scope i).enclosing = (h.scope i).enclosing
  still_bound : ∀ i < h.nextId, ∀ name, ((h.scope i).bindings.lookup name).isSome = true →
    ((h'.scope i).bindings.lookup name).isSome = true

theorem Grows.refl (h : Heap) : h.Grows h :=
  ⟨Nat.le_refl _, fun _ _ => rfl, fun _ _ _ hb => hb⟩

/-- What was there once stays there, so growth adds up. -/
theorem Grows.trans {h h' h'' : Heap} (hfirst : h.Grows h') (hrest : h'.Grows h'') :
    h.Grows h'' := by
  refine ⟨Nat.le_trans hfirst.nextId_le hrest.nextId_le, fun i hi => ?_, fun i hi name hb => ?_⟩
  · have hi' := Nat.lt_of_lt_of_le hi hfirst.nextId_le
    rw [hrest.enclosing_eq i hi', hfirst.enclosing_eq i hi]
  · have hi' := Nat.lt_of_lt_of_le hi hfirst.nextId_le
    exact hrest.still_bound i hi' name (hfirst.still_bound i hi name hb)

/-- Binding removes no scope and moves none. -/
theorem Grows.bind (h : Heap) (id : ScopeId) (name : Text) (v : Value) :
    h.Grows (h.bind id name v) := by
  refine ⟨Nat.le_of_eq (nextId_bind h id name v).symm, fun i hi => ?_, fun i hi other hb => ?_⟩
  · by_cases hid : i = id
    · subst hid
      rw [scope_bind_self hi]
    · rw [scope_bind_of_ne hid]
  · by_cases hid : i = id
    · subst hid
      rw [scope_bind_self hi]
      by_cases hname : other = name
      · subst hname
        rw [lookup_bindName_self]
        rfl
      · rw [lookup_bindName_of_ne hname]
        exact hb
    · rw [scope_bind_of_ne hid]
      exact hb

/-- A new scope is added after the others. -/
theorem Grows.enclose (h : Heap) (outer : ScopeId) : h.Grows (h.enclose outer) := by
  refine ⟨?_, fun i hi => ?_, fun i hi name hb => ?_⟩
  · rw [nextId_enclose]
    exact Nat.le_succ _
  · rw [scope_enclose_of_ne (Nat.ne_of_lt hi)]
  · rw [scope_enclose_of_ne (Nat.ne_of_lt hi)]
    exact hb

end Heap

/-! ## What events leave as it was -/

/-- Every event only adds to a heap. -/
theorem grows_effect (w : World) (e : EvalEvent) : w.heap.Grows (e.effect w).heap := by
  cases e with
  | bound scope name v => exact .bind w.heap scope name v
  | enclosed outer => exact .enclose w.heap outer
  | _ => exact .refl w.heap

/-- Events one after the other only add to a heap. -/
theorem grows_after (w : World) (es : List EvalEvent) : w.heap.Grows (w.after es).heap := by
  induction es generalizing w with
  | nil => exact .refl w.heap
  | cons e es ih => exact (grows_effect w e).trans (ih (e.effect w))

/-- What can be seen in a scope is as it was if it does not depend on the names that are bound there
by some events. -/
theorem scope_after {α : Type} (see : Scope → α) {w : World} {es : List EvalEvent} {i : ScopeId}
    (hi : i < w.heap.nextId) (hsame : ∀ name v, .bound i name v ∈ es → ∀ s : Scope,
      see { s with bindings := bindName name v s.bindings } = see s) :
    see ((w.after es).heap.scope i) = see (w.heap.scope i) := by
  induction es generalizing w with
  | nil => rfl
  | cons e es ih =>
      have hi' := Nat.lt_of_lt_of_le hi (grows_effect w e).nextId_le
      have hrest := ih hi' fun name v hv => hsame name v (List.mem_cons_of_mem e hv)
      refine hrest.trans ?_
      cases e with
      | bound scope name v =>
          show see ((w.heap.bind scope name v).scope i) = _
          by_cases hscope : i = scope
          · subst hscope
            rw [Heap.scope_bind_self hi]
            exact hsame name v List.mem_cons_self _
          · rw [Heap.scope_bind_of_ne hscope]
      | enclosed outer =>
          show see ((w.heap.enclose outer).scope i) = _
          rw [Heap.scope_enclose_of_ne (Nat.ne_of_lt hi)]
      | _ => rfl

/-! ## The law -/

open Traced

/-- Names are bound in one scope and are among the given ones, or they are bound in a scope that is
not there yet. -/
def Confined (scope : ScopeId) (names : List Text) (w : World) (es : List EvalEvent) : Prop :=
  ∀ s n v, .bound s n v ∈ es → s = scope ∧ n ∈ names ∨ w.heap.nextId ≤ s

variable {scope : ScopeId} {names : List Text} {w : World} {es es' : List EvalEvent}

/-- An event that binds nothing binds nothing elsewhere. -/
theorem Confined.quiet {e : EvalEvent} (he : ∀ s n v, e ≠ .bound s n v) :
    Confined scope names w [e] := by
  intro s n v hmem
  exact absurd (List.mem_singleton.mp hmem).symm (he s n v)

theorem Confined.logged (r : LogRecord) : Confined scope names w [.logged r] :=
  .quiet nofun

/-- What is confined in two parts is confined as a whole, where the scopes that the first part made
are new for the second, too. -/
theorem Confined.append (hes : Confined scope names w es)
    (hes' : Confined scope names (w.after es) es') : Confined scope names w (es ++ es') := by
  intro s n v hmem
  rcases List.mem_append.mp hmem with hmem | hmem
  · exact hes s n v hmem
  · exact (hes' s n v hmem).imp_right (Nat.le_trans (grows_after w es).nextId_le)

/-- What happens in a scope that was just made happens in a new one, to all that was there
before. -/
theorem Confined.of_enclosed {outer : ScopeId} {inner : List Text}
    (hes : Confined w.heap.nextId inner (w.after [.enclosed outer]) es) :
    Confined scope names w ([.enclosed outer] ++ es) := by
  intro s n v hmem
  rcases List.mem_cons.mp hmem with heq | hmem
  · cases heq
  · right
    rcases hes s n v hmem with ⟨rfl, -⟩ | hle
    · exact Nat.le_refl _
    · exact Nat.le_trans (grows_after w [.enclosed outer]).nextId_le hle

/-- An evaluation in a scope binds some names there, and others only in scopes that are made in the
course of it. -/
def ownScope (scope : ScopeId) (names : List Text) : Law where
  binds s n := s = scope ∧ n ∈ names
  good := Confined scope names
  ended _ := Confined scope names
  lawful.good_nil _ _ _ _ hmem := absurd hmem List.not_mem_nil
  lawful.good_append := Confined.append
  lawful.good_drew _ := .quiet nofun
  lawful.good_printed _ _ := .quiet nofun
  lawful.good_enclosed _ _ := .quiet nofun
  lawful.good_bound hbinds _ s n v hmem := by
    cases List.mem_singleton.mp hmem
    exact .inl hbinds
  lawful.good_yielded _ := .quiet nofun
  lawful.use _ := .inl ⟨fun _ _ => trivial, .quiet nofun⟩
  lawful.append_ended := Confined.append
  lawful.ended_crash _ _ _ _ _ _ hmem := absurd hmem List.not_mem_nil
  lawful.ended_fail _ _ _ _ hmem := absurd hmem List.not_mem_nil
  lawful.ended_raise _ _ _ _ hmem := absurd hmem List.not_mem_nil
  lawful.ended_yielded hes := hes.append (.quiet nofun)

variable {limits : Limits}

/-- Exceeding a limit binds nothing. -/
theorem ownScope_exceed {α : Type} {p : α → Prop} (message : Text) (limit : Int) (f : Fault) :
    (ownScope scope names).Obeys p (exceed message limit f) :=
  fun _ _ => Confined.append (.quiet nofun) (.quiet nofun)

/-- Counting a node binds nothing. -/
theorem ownScope_step : (ownScope scope names).Obeys (fun _ => True) (step limits) :=
  .step (fun _ => .quiet nofun) (ownScope_exceed _ _ _)

theorem ownScope_kept (v : Value) : (ownScope scope names).Kept v :=
  fun _ _ => trivial

theorem ownScope_heap (h : Heap) : h.Everywhere (ownScope scope names).value :=
  fun _ _ _ _ _ _ _ => trivial

/-- What is done in a scope that was just made, under the law for that scope, is under the law for
every scope that there was. -/
theorem ownScope_enclose {outer : ScopeId} (inner : List Text) {rest : ScopeId → Traced Value}
    (hrest : ∀ s, (ownScope s inner).Obeys (ownScope s inner).Kept (rest s)) :
    (ownScope scope names).Obeys (ownScope scope names).Kept (enclose outer >>= rest) := by
  intro w _
  have henclose : enclose outer w = ([.enclosed outer], .ok w.heap.nextId) := rfl
  rw [bind_of_ok henclose]
  have h := hrest w.heap.nextId (w.after [.enclosed outer]) (ownScope_heap _)
  generalize rest w.heap.nextId (w.after [.enclosed outer]) = r at h ⊢
  rcases r with ⟨es, s | v⟩
  · exact Confined.of_enclosed h
  · obtain ⟨-, -, hgood⟩ := h.resolve_right id
    exact .inl ⟨ownScope_kept v, ownScope_heap _, .of_enclosed hgood⟩

/-- A call binds names in scopes that it makes, and nowhere else: it obeys the law for every scope
that its caller may be in. -/
theorem ownScope_call (limits : Limits) (scope : ScopeId) (names : List Text) (calls depth : Nat)
    (f : Value) (args : List Value) :
    (ownScope scope names).Obeys (ownScope scope names).Kept
      (traceCall limits calls depth f args) := by
  induction calls generalizing scope names depth f args with
  | zero => exact fun _ _ _ _ _ hmem => absurd hmem List.not_mem_nil
  | succ calls ih =>
      cases f with
      | fn ref params body outer =>
          by_cases hreached : limits.ReachedBy depth
          · rw [traceCall_of_reachedBy hreached]
            exact ownScope_exceed _ _ _
          · rw [traceCall_of_not_reachedBy hreached]
            -- what the body binds goes to the scope that is made now, which no one else has yet
            refine ownScope_enclose (params.filterMap id ++ body.lets) fun s => ?_
            have hgoverns : (ownScope s (params.filterMap id ++ body.lets)).Governs
                ⟨limits, traceCall limits calls (depth + 1)⟩ :=
              ⟨ownScope_step, fun f vs _ _ => ih s _ (depth + 1) f vs⟩
            refine Law.obeys_body s ⟨.inl trivial, ?_⟩ (fun v _ => ownScope_kept v) ?_
            · intro n hn
              exact ⟨rfl, List.mem_append_left _ (List.mem_filterMap.mpr ⟨some n, hn, rfl⟩)⟩
            · exact Law.obeys_block hgoverns s body
                ⟨fun _ => .inl trivial, fun n hn => ⟨rfl, List.mem_append_right _ hn⟩⟩
      | _ =>
          refine Law.obeys_otherCall ?_ fun v _ => ownScope_kept v
          exact nofun

/-- What an evaluation binds, whatever comes of it. -/
theorem confined_of_fits {α : Type} {p : α → Prop} {r : List EvalEvent × Except Stop α}
    (h : (ownScope scope names).Fits p w r) : Confined scope names w r.1 := by
  rcases r with ⟨es, s | a⟩
  · exact h
  · exact (h.resolve_right id).2.2

/-- What a run binds: names that the tree binds, in the scope of the run, and otherwise names in
scopes that it makes. -/
theorem confined_trace (calls : Nat) (limits : Limits) (node : Node) (scope : ScopeId) (w : World) :
    Confined scope node.lets { w with steps := 0 } (trace calls limits node scope w).1 := by
  have hgoverns : (ownScope scope node.lets).Governs (.ofLimits limits calls) :=
    ⟨ownScope_step, fun f vs _ _ => ownScope_call limits scope node.lets calls 0 f vs⟩
  have h := confined_of_fits (Law.obeys_node hgoverns scope node
    ⟨fun _ => .inl trivial, fun n hn => ⟨rfl, hn⟩⟩ { w with steps := 0 } (ownScope_heap _))
  rw [trace_eq]
  generalize node.trace (.ofLimits limits calls) scope { w with steps := 0 } = r at h ⊢
  rcases r with ⟨es, (f | _ | _) | v⟩
  · exact h.append (.logged f.report)
  · exact h
  · exact h
  · exact h

/-- **An evaluation writes its own scope only.** A run is its trace. Whatever comes of it, the
scopes that there were are as they were, except for the scope of the run, where only names that
the tree binds outside of function bodies may have changed or come. From any moment of the run to
its end no binding is removed and what is around a scope stays. A call changes no scope that
there was. -/
theorem evaluation_writes_own_scope (calls : Nat) (limits : Limits) (node : Node) (scope : ScopeId)
    (w : World) :
    runWith calls limits node scope w =
      ((trace calls limits node scope w).2,
        ({ w with steps := 0 } : World).after (trace calls limits node scope w).1) ∧
    (∀ i < w.heap.nextId, i ≠ scope →
      (runWith calls limits node scope w).2.heap.scope i = w.heap.scope i) ∧
    (scope < w.heap.nextId → ∀ name, name ∉ node.lets →
      ((runWith calls limits node scope w).2.heap.scope scope).bindings.lookup name =
        (w.heap.scope scope).bindings.lookup name) ∧
    (∀ before after, (trace calls limits node scope w).1 = before ++ after →
      (({ w with steps := 0 } : World).after before).heap.Grows
        (runWith calls limits node scope w).2.heap) ∧
    ∀ depth f args, ∀ i < w.heap.nextId,
      ((invoke limits calls f args).run (⟨w, depth⟩ : Interpreter)).2.heap.scope i =
        w.heap.scope i := by
  have hconfined := confined_trace calls limits node scope w
  refine ⟨runWith_eq_trace calls limits node scope w, ?_, ?_, ?_, ?_⟩
  · intro i hi hne
    rw [runWith_eq_trace]
    refine scope_after id hi fun name v hmem => ?_
    rcases hconfined i name v hmem with ⟨heq, -⟩ | hle
    · exact absurd heq hne
    · exact absurd hi (Nat.not_lt.mpr hle)
  · intro hscope name hname
    rw [runWith_eq_trace]
    refine scope_after (fun s => s.bindings.lookup name) hscope fun other v hmem s => ?_
    refine lookup_bindName_of_ne ?_ v s.bindings
    rintro rfl
    rcases hconfined scope name v hmem with ⟨-, hlets⟩ | hle
    · exact hname hlets
    · exact Nat.not_lt.mpr hle hscope
  · intro before after hes
    rw [runWith_eq_trace, hes, World.after_append]
    exact grows_after _ after
  · intro depth f args i hi
    have hworld (es : List EvalEvent) :
        (Eventful.after (⟨w, depth⟩ : Interpreter) es).heap = (w.after es).heap :=
      congrArg World.heap (Interpreter.toWorld_after ⟨w, depth⟩ es)
    rw [(realizes_invoke limits calls depth f args).run _ rfl, hworld]
    -- to the law any scope may be the caller's, also one that there is not
    have h := confined_of_fits
      (ownScope_call limits w.heap.nextId [] calls depth f args w (ownScope_heap _))
    refine scope_after id hi fun name v hmem => ?_
    rcases h i name v hmem with ⟨-, hnil⟩ | hle
    · exact absurd hnil List.not_mem_nil
    · exact absurd hi (Nat.not_lt.mpr hle)

end Monkey
