import Monkey.Proofs.Hazards
import Monkey.Proofs.Inside

/-!
# Laws of evaluation

A law says what holds along every traced evaluation: what the values are that it keeps, which values
statements, blocks and expressions yield, which events happen from a world on, and what holds of the
events up to a stop. It may name events after which nothing is asked any more. It may allow only
nodes of the language and only some names to be bound, and then it is a law for trees that have no
others.

The conditions on a law are about single events and values and about joining lists of events. That
every node obeys it (`Law.obeys_node`) is one induction over the rules for nodes, for all laws, from
what the law says of a single step and of calls. How calls obey it depends on the law, since it may
change from one call to the calls inside it; `Law.obeys_closure` is what they have in common, and
`Law.obeys_call` is the case of a law that does not change.
-/

namespace Monkey

/-! ## Trees -/

mutual

/-- The names that the let statements of a tree bind. Those of function bodies are not among them:
they are bound elsewhere, if the function is called. -/
def Expr.lets : Expr → List Text
  | .absent | .nameless | .foreign _ | .ident _ _ | .int _ _ | .bool _ _ | .str _ _
  | .fn _ _ _ => []
  | .unary _ _ operand => operand.lets
  | .binary _ _ left right => left.lets ++ right.lets
  | .cond _ test consequence alternative => test.lets ++ (consequence.lets ++ alternative.lets)
  | .call _ callee args => callee.lets ++ exprsLets args
  | .array _ elements => exprsLets elements
  | .index _ left index => left.lets ++ index.lets
  | .hash _ pairs => pairsLets pairs

/-- The names that the let statements of expressions bind. -/
def exprsLets : List Expr → List Text
  | [] => []
  | e :: rest => e.lets ++ exprsLets rest

/-- The names that the let statements of keys and their values bind. -/
def pairsLets : List (Expr × Expr) → List Text
  | [] => []
  | (k, v) :: rest => k.lets ++ (v.lets ++ pairsLets rest)

/-- The names that a statement and the let statements inside it bind. -/
def Stmt.lets : Stmt → List Text
  | .absent => []
  | .bind _ name value => name.toList.map Binder.name ++ value.lets
  | .ret _ value => value.lets
  | .expr _ expr => expr.lets
  | .block block => block.lets

/-- The names that the let statements of statements bind. -/
def statementsLets : List Stmt → List Text
  | [] => []
  | s :: rest => s.lets ++ statementsLets rest

/-- The names that the let statements of a block bind. -/
def Block.lets : Block → List Text
  | .absent => []
  | .of _ statements => statementsLets statements

end

/-- The names that the let statements of a tree bind, outside of function bodies. -/
def Node.lets : Node → List Text
  | .program p => statementsLets p.statements
  | .stmt s => s.lets
  | .expr e => e.lets

/-! ## Laws -/

/-- The record that a limit was exceeded, if that is what a fault is. -/
def Fault.warning? : Fault → Option LogRecord
  | .stepLimit limit => some
      { level := .warn, message := text "step limit exceeded"
        attributes := [(text "limit", Text.ofInt limit)] }
  | .depthLimit limit => some
      { level := .warn, message := text "call depth limit exceeded"
        attributes := [(text "limit", Text.ofInt limit)] }
  | _ => none

/-- What a law says of values and events. What it does not say of them it allows. -/
structure Law.Terms where
  /-- What a value is that is kept, and what all is that is inside it. -/
  value : Value → Prop := fun _ => True
  /-- The crashes that may happen. -/
  allows : Crash → Prop := fun _ => True
  /-- The names that may be bound in a scope. -/
  binds : ScopeId → Text → Prop := fun _ _ => True
  /-- What statements and blocks yield. -/
  passes : Value → Prop := fun _ => True
  /-- What an expression yields. -/
  yields : Expr → Value → Prop := fun _ _ => True
  /-- What happens from a world on. -/
  good : World → List EvalEvent → Prop := fun _ _ => True
  /-- What happens if nothing is asked any more. -/
  lost : World → List EvalEvent → Prop := fun _ _ => False
  /-- What happens from a world up to a stop. -/
  ended : Stop → World → List EvalEvent → Prop

/-- Every rule of the evaluation keeps to a law with these terms. -/
structure Law.Terms.Lawful (T : Law.Terms) : Prop where
  value_of_isData {v : Value} : v.isData = true → T.value v := by intros; trivial
  value_of_isFreeOf {v : Value} : v.tag = .function →
    (∀ c, T.allows c ∨ v.isFreeOf c = true) → T.value v := by intros; trivial
  isFreeOf_of_value {v : Value} (c : Crash) : T.value v → T.allows c ∨ v.isFreeOf c = true := by
    intros; exact .inl trivial
  allows_of_shown {v : Value} {c : Crash} : v.Everywhere T.value → v.shown = .error c →
    T.allows c := by intros; trivial
  passes_of_kept {v : Value} : v.Everywhere T.value → T.passes v := by intros; trivial
  passes_returned {ref : Ref} {v : Value} :
    v.Everywhere T.value → T.passes (.returned ref v) := by intros; trivial
  passes_of_yields {e : Expr} {v : Value} : T.yields e v → T.passes v := by intros; trivial
  yields_of_kept {e : Expr} {v : Value} : v.Everywhere T.value → T.yields e v := by intros; trivial
  yields_cond {origin : Origin} {test : Expr} {consequence alternative : Block} {v : Value} :
    T.passes v → T.yields (.cond origin test consequence alternative) v := by intros; trivial
  kept_of_returned {ref : Ref} {v : Value} :
    T.passes (.returned ref v) → v.Everywhere T.value := by intros _ _ _ _ _; trivial
  kept_of_passes {v : Value} :
    T.passes v → v.isReturned = false → v.Everywhere T.value := by intros _ _ _ _ _; trivial
  good_nil (w : World) : T.good w [] := by intros; trivial
  good_append {w : World} {es es' : List EvalEvent} :
    T.good w es → T.good (w.after es) es' → T.good w (es ++ es') := by intros; trivial
  good_drew (w : World) : T.good w [.drew] := by intros; trivial
  good_printed (w : World) (t : Text) : T.good w [.printed t] := by intros; trivial
  good_enclosed (w : World) (outer : ScopeId) : T.good w [.enclosed outer] := by intros; trivial
  good_bound {w : World} {scope : ScopeId} {name : Text} {v : Value} :
    T.binds scope name → v.Everywhere T.value → T.good w [.bound scope name v] := by intros; trivial
  good_yielded {w : World} {v : Value} : T.passes v → T.good w [.yielded v] := by intros; trivial
  use {w : World} {e : Expr} {v : Value} :
    T.yields e v → v.Everywhere T.value ∧ T.good w [.used e v] ∨ T.lost w [.used e v]
  lost_append {w : World} {es es' : List EvalEvent} :
    T.lost w es → T.lost w (es ++ es') := by intro _ _ _ h; exact h
  append_lost {w : World} {es es' : List EvalEvent} :
    T.good w es → T.lost (w.after es) es' → T.lost w (es ++ es') := by intro _ _ _ _ h; exact h
  append_ended {s : Stop} {w : World} {es es' : List EvalEvent} :
    T.good w es → T.ended s (w.after es) es' → T.ended s w (es ++ es')
  ended_of_lost {s : Stop} {w : World} {es : List EvalEvent} :
    T.lost w es → T.ended s w es := by intro _ _ _ h; exact h.elim
  ended_crash (w : World) {c : Crash} : T.allows c → T.ended (.crash c) w []
  ended_fail {w : World} {f : Fault} : f.warning? = none → T.ended (.fault f) w []
  ended_raise {w : World} {f : Fault} : (Value.error f).Everywhere T.value → T.ended (.fault f) w []
  ended_yielded {w : World} {f : Fault} {es : List EvalEvent} :
    T.ended (.fault f) w es → T.ended (.fault f) w (es ++ [.yielded (.error f)])

/-- What holds along every evaluation. -/
structure Law extends Law.Terms where
  lawful : toTerms.Lawful

namespace Law

open Traced

variable {L : Law} {α β : Type} {p : α → Prop} {q : β → Prop}

/-- A value may be kept. -/
def Kept (L : Law) (v : Value) : Prop :=
  v.Everywhere L.value

/-- What a law asks of the events and the result of an evaluation from a world. -/
def Fits (L : Law) (p : α → Prop) (w : World) : List EvalEvent × Except Stop α → Prop
  | (es, .ok a) => (p a ∧ (w.after es).heap.Everywhere L.value ∧ L.good w es) ∨ L.lost w es
  | (es, .error s) => L.ended s w es

/-- An evaluation obeys a law, and its value is as stated. -/
def Obeys (L : Law) (p : α → Prop) (x : Traced α) : Prop :=
  ∀ w, w.heap.Everywhere L.value → L.Fits p w (x w)

/-! ## Rules -/

namespace Obeys

theorem pure {a : α} (h : p a) : L.Obeys p (pure a) :=
  fun w hw => .inl ⟨h, hw, L.lawful.good_nil w⟩

/-- An evaluation in two parts obeys a law if the first does and the second does for what the
first may yield. If the first one stops, the second does not happen, and what was to hold of a
stop holds. -/
theorem bind {x : Traced β} {k : β → Traced α} (hx : L.Obeys q x)
    (hk : ∀ b, q b → L.Obeys p (k b)) : L.Obeys p (x >>= k) := by
  intro w hw
  have hfirst := hx w hw
  rcases h : x w with ⟨es, s | b⟩
  · rw [h] at hfirst
    rw [bind_of_error h]
    exact hfirst
  · rw [h] at hfirst
    rw [bind_of_ok h]
    rcases hfirst with ⟨hb, hheap, hgood⟩ | hlost
    · have hrest := hk b hb (w.after es) hheap
      generalize k b (w.after es) = r at hrest ⊢
      rcases r with ⟨es', s | a⟩
      · exact L.lawful.append_ended hgood hrest
      · rcases hrest with ⟨ha, hheap', hgood'⟩ | hlost'
        · refine .inl ⟨ha, ?_, L.lawful.good_append hgood hgood'⟩
          rw [World.after_append]
          exact hheap'
        · exact .inr (L.lawful.append_lost hgood hlost')
    · -- nothing is known of the rest any more, and nothing needs to be
      rcases k b (w.after es) with ⟨es', s | a⟩
      · exact L.lawful.ended_of_lost (L.lawful.lost_append hlost)
      · exact .inr (L.lawful.lost_append hlost)

/-- Less may be said of what is yielded. -/
theorem mono {p' : α → Prop} {x : Traced α} (hx : L.Obeys p x) (hp : ∀ a, p a → p' a) :
    L.Obeys p' x := by
  intro w hw
  have h := hx w hw
  generalize x w = r at h ⊢
  rcases r with ⟨es, s | a⟩
  · exact h
  · exact h.imp_left fun ha => ⟨hp a ha.1, ha.2⟩

/-- What is read off the world comes from a heap that keeps to the law. -/
theorem world : L.Obeys (fun w => w.heap.Everywhere L.value) world :=
  fun w hw => .inl ⟨hw, hw, L.lawful.good_nil w⟩

/-- A single event obeys if it is good by itself and leaves the heap as the law wants it. -/
theorem perform {e : EvalEvent} (he : ∀ w, L.good w [e])
    (hheap : ∀ w : World, w.heap.Everywhere L.value → (e.effect w).heap.Everywhere L.value) :
    L.Obeys (fun _ => True) (perform e) :=
  fun w hw => .inl ⟨trivial, hheap w hw, he w⟩

/-- A name may be bound in a scope if the law lets it, to a value that is kept. -/
theorem bound {scope : ScopeId} {name : Text} {v : Value} (hname : L.binds scope name)
    (hv : L.Kept v) : L.Obeys (fun _ => True) (Traced.perform (.bound scope name v)) :=
  perform (fun _ => L.lawful.good_bound hname hv) fun _ hw => hw.bind scope name hv

theorem printed (t : Text) : L.Obeys (fun _ => True) (Traced.perform (.printed t)) :=
  perform (fun w => L.lawful.good_printed w t) fun _ hw => hw

/-- A fault that is no limit error may end an evaluation at any time. -/
theorem fail {f : Fault} (hf : f.warning? = none) : L.Obeys p (fail f) :=
  fun _ _ => L.lawful.ended_fail hf

/-- A value that was read is yielded, or it is a fault and ends the evaluation. -/
theorem raise {v : Value} (hv : L.Kept v) : L.Obeys L.Kept (raise v) := by
  cases v with
  | error f => exact fun _ _ => L.lawful.ended_raise hv
  | _ => exact .pure hv

/-- A computation obeys if its value is as wanted and its fault is no limit error. -/
theorem ofExcept {x : Except Fault α} (hok : ∀ a, x = .ok a → p a)
    (herror : ∀ f, x = .error f → f.warning? = none) : L.Obeys p (ofExcept x) := by
  cases x with
  | ok a => exact .pure (hok a rfl)
  | error f => exact .fail (herror f rfl)

/-- An evaluation that chooses may rest on why it chose so. -/
theorem ite {c : Prop} [Decidable c] {x y : Traced α} (hx : c → L.Obeys p x)
    (hy : ¬ c → L.Obeys p y) : L.Obeys p (if c then x else y) := by
  by_cases hc : c
  · rw [if_pos hc]
    exact hx hc
  · rw [if_neg hc]
    exact hy hc

theorem fresh : L.Obeys (fun _ => True) fresh :=
  world.bind fun _ _ => (perform L.lawful.good_drew fun _ hw => hw).bind fun _ _ => .pure trivial

theorem enclose (outer : ScopeId) : L.Obeys (fun _ => True) (enclose outer) :=
  world.bind fun _ _ =>
    (perform (fun w => L.lawful.good_enclosed w outer) fun _ hw => hw.enclose outer).bind fun _ _ =>
      .pure trivial

/-- A step obeys if counting a node and exceeding the limit do. -/
theorem step {limits : Limits} (hcounted : ∀ w, L.good w [.counted])
    (hexceed : L.Obeys (fun _ : Unit => True)
      (exceed (text "step limit exceeded") limits.steps (.stepLimit limits.steps))) :
    L.Obeys (fun _ => True) (step limits) :=
  (perform hcounted fun _ hw => hw).bind fun _ _ => world.bind fun _ _ =>
    .ite (fun _ => hexceed) fun _ => .pure trivial

/-- What a node yields is noted, which the law allows of what passes. -/
theorem noted {x : Traced Value} {p : Value → Prop} (hx : L.Obeys p x)
    (hp : ∀ v, p v → L.passes v) : L.Obeys p (noted x) := by
  intro w hw
  have h := hx w hw
  show L.Fits p w ((x w).1 ++ yieldOf (x w).2, (x w).2)
  generalize x w = r at h ⊢
  rcases r with ⟨es, (f | _ | _) | v⟩
  · exact L.lawful.ended_yielded h
  · rename_i c
    rw [show es ++ yieldOf (.error (.crash c)) = es from List.append_nil es]
    exact h
  · rw [show es ++ yieldOf (.error .exhausted) = es from List.append_nil es]
    exact h
  · rcases h with ⟨hv, hheap, hgood⟩ | hlost
    · refine .inl ⟨hv, ?_, L.lawful.good_append hgood (L.lawful.good_yielded (hp v hv))⟩
      rw [World.after_append]
      exact hheap
    · exact .inr (L.lawful.lost_append hlost)

/-- What an expression yields is used, and then it is kept. -/
theorem used {e : Expr} {x : Traced Value} (hx : L.Obeys (L.yields e) x) :
    L.Obeys L.Kept (used e x) := by
  refine hx.bind fun v hv w hw => ?_
  rcases L.lawful.use (w := w) hv with ⟨hkept, hgood⟩ | hlost
  · exact .inl ⟨hkept, hw, hgood⟩
  · exact .inr hlost

end Obeys

/-! ## Operators and built-in functions -/

/-- No unary operator comes to a limit error. -/
theorem warning?_of_unary {op : UnaryOp} {v : Value} {f : Fault} (h : op.apply v = .error f) :
    f.warning? = none := by
  unfold UnaryOp.apply at h
  split at h <;> cases h
  rfl

/-- No binary operator comes to a limit error. -/
theorem warning?_of_binary {op : BinaryOp} {l r : Value} {f : Fault} (h : op.apply l r = .error f) :
    f.warning? = none := by
  unfold BinaryOp.apply BinaryOp.onIntegers at h
  repeat' split at h
  all_goals cases h <;> rfl

/-- No selection comes to a limit error. -/
theorem warning?_of_select {l i : Value} {f : Fault} (h : l.select i = .error f) :
    f.warning? = none := by
  unfold Value.select at h
  repeat' split at h
  all_goals cases h <;> rfl

/-- A value with nothing in it is kept by every law. -/
theorem kept_of_isAtom {v : Value} (hv : v.isAtom = true) : L.Kept v :=
  .of_isAtom (fun _ => L.lawful.value_of_isData) hv

/-- What is missing is null, and null is kept. -/
theorem kept_getD_null {v? : Option Value} (h : ∀ v, v? = some v → L.Kept v) :
    L.Kept (v?.getD .null) :=
  .getD_null (fun _ => L.lawful.value_of_isData) h

theorem obeys_atom {v : Value} (hv : v.isAtom = true) : L.Obeys L.Kept (pure v) :=
  .pure (kept_of_isAtom hv)

/-- An array of values that are kept is kept. -/
theorem obeys_newArray {items : List Value} (h : ∀ v ∈ items, L.Kept v) :
    L.Obeys L.Kept (do return .array (← fresh) items) :=
  Obeys.fresh.bind fun ref _ => .pure (.array (fun _ => L.lawful.value_of_isData) ref h)

/-- The elements of an argument that is kept are kept. -/
theorem obeys_arrayArgument (b : Builtin) {args : List Value} (h : ∀ v ∈ args, L.Kept v) :
    L.Obeys (fun items => ∀ v ∈ items, L.Kept v) (Builtin.trace.arrayArgument b args) := by
  unfold Builtin.trace.arrayArgument
  split
  · exact .pure (h _ List.mem_cons_self).item
  · exact .fail rfl
  · exact .fail rfl

/-- A computation that may crash obeys if its crashes are allowed. -/
theorem obeys_attempt {x : Except Crash α} (hok : ∀ a, x = .ok a → p a)
    (herror : ∀ c, x = .error c → L.allows c) : L.Obeys p (attempt x) := by
  cases x with
  | ok a => exact .pure (hok a rfl)
  | error c => exact fun w _ => L.lawful.ended_crash w (herror c rfl)

/-- Values are printed one after the other, up to one that cannot be shown. -/
theorem obeys_printAll {args : List Value} (h : ∀ v ∈ args, L.Kept v) :
    L.Obeys (fun _ => True) (Builtin.trace.printAll args) := by
  induction args with
  | nil => exact .pure trivial
  | cons v others ih =>
      obtain ⟨hv, hothers⟩ := List.forall_mem_cons.mp h
      refine (obeys_attempt (fun _ _ => trivial) fun c => L.lawful.allows_of_shown hv).bind
        fun shown (_ : True) => ?_
      exact (Obeys.printed _).bind fun _ _ => ih hothers

/-- A built-in function obeys, given arguments that are kept: it yields one of them, or a new value
with them in it. -/
theorem obeys_builtin (b : Builtin) {args : List Value} (h : ∀ v ∈ args, L.Kept v) :
    L.Obeys L.Kept (b.trace args) := by
  unfold Builtin.trace
  split
  · exact obeys_atom rfl
  · exact obeys_atom rfl
  · exact .fail rfl
  · exact .fail rfl
  · exact (obeys_printAll h).bind fun _ _ => obeys_atom rfl
  · exact (obeys_arrayArgument _ h).bind fun items hitems =>
      .pure (kept_getD_null fun v hv => hitems v (List.mem_of_head? hv))
  · exact (obeys_arrayArgument _ h).bind fun items hitems =>
      .pure (kept_getD_null fun v hv => hitems v (List.mem_of_getLast? hv))
  · refine (obeys_arrayArgument _ h).bind fun items hitems => ?_
    cases items with
    | nil => exact obeys_atom rfl
    | cons first tail =>
        exact obeys_newArray fun v hv =>
          hitems v (List.mem_cons_of_mem first (List.dropLast_subset tail hv))
  -- what is pushed came in as an argument, and so did the elements
  · rename_i ref items v
    have hitems := (h _ List.mem_cons_self).item
    have hv : L.Kept v := h v (List.mem_cons_of_mem _ List.mem_cons_self)
    exact obeys_newArray fun u hu =>
      (List.mem_append.mp hu).elim (hitems u) fun hu => List.mem_singleton.mp hu ▸ hv
  · exact .fail rfl
  · exact .fail rfl

/-! ## Nodes -/

/-- What a name stands for is kept: it comes from the heap, or is a built-in function. -/
theorem obeys_lookup (scope : ScopeId) (name : Text) :
    L.Obeys L.Kept (traceLookup scope name) := by
  refine Obeys.world.bind fun w hw => ?_
  cases hget : w.heap.get? scope name with
  | some v => exact .raise (hw.get? hget)
  | none =>
      cases Builtin.ofName? name with
      | some b => exact obeys_atom rfl
      | none => exact .fail rfl

/-- The steps and the calls of a tracer obey a law. -/
structure Governs (L : Law) (m : Tracer) : Prop where
  step : L.Obeys (fun _ => True) (step m.limits)
  apply (f : Value) (vs : List Value) : L.Kept f → (∀ v ∈ vs, L.Kept v) →
    L.Obeys L.Kept (m.apply f vs)

/-- A law is one for trees that are free of some crashes or not, and with let statements for some
names. -/
structure Suits (L : Law) (scope : ScopeId) (free : Crash → Bool) (lets : List Text) : Prop where
  free (c : Crash) : L.allows c ∨ free c = true
  binds : ∀ n ∈ lets, L.binds scope n

variable {scope : ScopeId} {free free' : Crash → Bool} {lets lets' : List Text}

/-- What suits two parts of a tree suits the first one. -/
theorem Suits.left (h : L.Suits scope (fun c => free c && free' c) (lets ++ lets')) :
    L.Suits scope free lets :=
  ⟨fun c => (h.free c).imp_right fun hc => (Bool.and_eq_true_iff.mp hc).1,
    (List.forall_mem_append.mp h.binds).1⟩

/-- And the second one. -/
theorem Suits.right (h : L.Suits scope (fun c => free c && free' c) (lets ++ lets')) :
    L.Suits scope free' lets' :=
  ⟨fun c => (h.free c).imp_right fun hc => (Bool.and_eq_true_iff.mp hc).2,
    (List.forall_mem_append.mp h.binds).2⟩

variable {m : Tracer}

/-- A node that is counted and yields what its rule yields. -/
theorem Governs.node {x : Traced Value} {p : Value → Prop} (hm : L.Governs m) (hx : L.Obeys p x)
    (hp : ∀ v, p v → L.passes v) :
    L.Obeys p (noted (Traced.step m.limits >>= fun _ => x)) :=
  .noted (hm.step.bind fun _ _ => hx) hp

/-- An expression whose value may be kept. -/
theorem Governs.kept {e : Expr} {x : Traced Value} (hm : L.Governs m) (hx : L.Obeys L.Kept x) :
    L.Obeys (L.yields e) (noted (Traced.step m.limits >>= fun _ => x)) :=
  hm.node (hx.mono fun _ => L.lawful.yields_of_kept) fun _ => L.lawful.passes_of_yields

mutual

/-- The value of an expression is what the law says that the expression may yield. -/
theorem obeys_expr (hm : L.Governs m) (scope : ScopeId) :
    (e : Expr) → L.Suits scope (e.isFreeOf ·) e.lets → L.Obeys (L.yields e) (e.trace m scope)
  | .absent, _ => (obeys_atom rfl).mono fun _ => L.lawful.yields_of_kept
  | .nameless, _ => hm.kept (obeys_atom rfl)
  | .foreign _, hs => by
      have hallows : L.allows .unhandledNode := (hs.free _).resolve_right Bool.noConfusion
      exact hm.kept fun w _ => L.lawful.ended_crash w hallows
  | .ident _ name, _ => hm.kept (obeys_lookup scope name)
  | .int _ _, _ => hm.kept (obeys_atom rfl)
  | .bool _ _, _ => hm.kept (obeys_atom rfl)
  | .str _ _, _ => hm.kept (obeys_atom rfl)
  | .unary _ op operand, hs =>
      hm.kept <| .ite (fun _ => obeys_atom rfl) fun _ =>
        (obeys_expr hm scope operand hs).used.bind fun v _ =>
        .ofExcept (fun _ hu => kept_of_isAtom (UnaryOp.isAtom_apply hu)) fun _ => warning?_of_unary
  | .binary _ op left right, hs =>
      hm.kept <| .ite (fun _ => obeys_atom rfl) fun _ =>
        (obeys_expr hm scope left hs.left).used.bind fun l _ =>
        (obeys_expr hm scope right hs.right).used.bind fun r _ =>
        .ofExcept (fun _ hu => kept_of_isAtom (BinaryOp.isAtom_apply hu))
          fun _ => warning?_of_binary
  | .cond _ test consequence alternative, hs => by
      refine hm.node ?_ fun _ => L.lawful.passes_of_yields
      refine (obeys_expr hm scope test hs.left).used.bind fun v _ => ?_
      -- the only expression that passes on what a block yields
      refine .ite (fun _ => ?_) fun _ => .ite (fun _ => ?_) fun _ => ?_
      · exact (obeys_block hm scope consequence hs.right.left).mono fun _ => L.lawful.yields_cond
      · exact (obeys_atom rfl).mono fun _ => L.lawful.yields_of_kept
      · exact (obeys_block hm scope alternative hs.right.right).mono fun _ => L.lawful.yields_cond
  | .fn _ params body, hs => by
      refine hm.kept (Obeys.fresh.bind fun ref _ => .pure (.fn ?_))
      refine L.lawful.value_of_isFreeOf rfl fun c => ?_
      rw [Value.isFreeOf, paramsFreeOf_map]
      exact hs.free c
  | .call _ callee args, hs =>
      hm.kept <| (obeys_expr hm scope callee hs.left).used.bind fun f hf =>
        (obeys_exprs hm scope args hs.right).bind fun vs hvs => hm.apply f vs hf hvs
  | .array _ elements, hs =>
      hm.kept <| (obeys_exprs hm scope elements hs).bind fun vs hvs => obeys_newArray hvs
  | .index _ left index, hs =>
      hm.kept <| (obeys_expr hm scope left hs.left).used.bind fun l hl =>
        (obeys_expr hm scope index hs.right).used.bind fun i _ =>
        (Obeys.ofExcept (fun _ => hl.select fun _ => L.lawful.value_of_isData)
          fun _ => warning?_of_select).bind fun _ hu => .raise hu
  | .hash _ pairs, hs =>
      hm.kept <| (obeys_pairs hm scope pairs [] hs fun _ _ h => absurd h List.not_mem_nil).bind
        fun entries hentries => Obeys.fresh.bind fun ref _ =>
          .pure (.hash (fun _ => L.lawful.value_of_isData) ref hentries)

/-- The same for expressions that are evaluated in order. -/
theorem obeys_exprs (hm : L.Governs m) (scope : ScopeId) :
    (es : List Expr) → L.Suits scope (exprsFreeOf · es) (exprsLets es) →
    L.Obeys (fun vs => ∀ v ∈ vs, L.Kept v) (traceExprs m scope es)
  | [], _ => .pure fun _ h => absurd h List.not_mem_nil
  | e :: rest, hs =>
      (obeys_expr hm scope e hs.left).used.bind fun _ hv =>
        (obeys_exprs hm scope rest hs.right).bind fun _ hvs =>
        .pure fun u hu => (List.mem_cons.mp hu).elim (fun h => h ▸ hv) (hvs u)

/-- The same for keys and their values, and the table that they are stored in. -/
theorem obeys_pairs (hm : L.Governs m) (scope : ScopeId) :
    (pairs : List (Expr × Expr)) → (table : Table Value) →
    L.Suits scope (pairsFreeOf · pairs) (pairsLets pairs) → (∀ k v, (k, v) ∈ table → L.Kept v) →
    L.Obeys (fun t => ∀ k v, (k, v) ∈ t → L.Kept v) (tracePairs m scope pairs table)
  | [], _, _, htable => .pure htable
  | (k, v) :: rest, table, hs, htable => by
      refine (obeys_expr hm scope k hs.left).used.bind fun key _ => ?_
      cases key.key? with
      | none => exact .fail rfl
      | some key =>
          refine (obeys_expr hm scope v hs.right.left).used.bind fun value hvalue => ?_
          refine obeys_pairs hm scope rest _ hs.right.right fun k' v' h => ?_
          rcases mem_insert h with h | h
          · cases h
            exact hvalue
          · exact htable k' v' h

/-- A statement obeys. A return wrapper may come of it, so what it yields is only something that
passes. -/
theorem obeys_stmt (hm : L.Governs m) (scope : ScopeId) :
    (s : Stmt) → L.Suits scope (s.isFreeOf ·) s.lets → L.Obeys L.passes (s.trace m scope)
  | .absent, _ => (obeys_atom rfl).mono fun _ => L.lawful.passes_of_kept
  | .bind _ name value, hs => by
      have hnull : L.Obeys L.passes (pure .null) :=
        (obeys_atom rfl).mono fun _ => L.lawful.passes_of_kept
      refine hm.node ?_ fun _ => id
      split
      · rename_i binder _
        -- the let statement binds its own name and those of the let statements in its value
        obtain ⟨hname, hvalue⟩ := List.forall_mem_append.mp hs.binds
        refine (obeys_expr hm scope value ⟨hs.free, hvalue⟩).used.bind fun v hv => ?_
        exact (Obeys.bound (hname _ List.mem_cons_self) hv).bind fun _ _ => hnull
      · exact hnull
  | .ret _ value, hs => by
      have hvalue : L.Suits scope (value.isFreeOf ·) value.lets :=
        ⟨fun c => (hs.free c).imp_right fun hc => (Bool.and_eq_true_iff.mp hc).2, hs.binds⟩
      refine hm.node ?_ fun _ => id
      exact (obeys_expr hm scope value hvalue).used.bind fun v hv =>
        Obeys.fresh.bind fun ref _ => .pure (L.lawful.passes_returned hv)
  | .expr _ expr, hs =>
      hm.node ((obeys_expr hm scope expr hs).mono fun _ => L.lawful.passes_of_yields) fun _ => id
  | .block block, hs => obeys_block hm scope block hs

/-- Statements obey, with the last value as what they yield. -/
theorem obeys_statements (hm : L.Governs m) (scope : ScopeId) :
    (ss : List Stmt) → (last : Value) → L.Suits scope (statementsFreeOf · ss) (statementsLets ss) →
    L.passes last → L.Obeys L.passes (traceStatements m scope last ss)
  | [], _, _, hlast => .pure hlast
  | s :: rest, _, hs, _ => (obeys_stmt hm scope s hs.left).bind fun v hv =>
      .ite (fun _ => .pure hv) fun _ => obeys_statements hm scope rest v hs.right hv

/-- A block obeys, as its statements do. -/
theorem obeys_block (hm : L.Governs m) (scope : ScopeId) :
    (b : Block) → L.Suits scope (b.isFreeOf ·) b.lets → L.Obeys L.passes (b.trace m scope)
  | .absent, _ => hm.node ((obeys_atom rfl).mono fun _ => L.lawful.passes_of_kept) fun _ => id
  | .of _ statements, hs =>
      have hnull : L.passes .null := L.lawful.passes_of_kept (kept_of_isAtom rfl)
      hm.node (obeys_statements hm scope statements .null hs hnull) fun _ => id

end

/-- A return wrapper is taken off, and what was in it is kept. -/
theorem obeys_unwrap {v : Value} (hv : L.passes v) : L.Obeys L.Kept (traceUnwrap v) := by
  cases v with
  | returned ref v => exact .raise (L.lawful.kept_of_returned hv)
  | _ => exact .pure (L.lawful.kept_of_passes hv rfl)

/-- A program obeys a law, and its value may be kept: the wrapper of a return statement is taken
off. -/
theorem obeys_program (hm : L.Governs m) (scope : ScopeId) (p : Program)
    (hs : L.Suits scope (statementsFreeOf · p.statements) (statementsLets p.statements)) :
    L.Obeys L.Kept ((Node.program p).trace m scope) := by
  refine hm.node ?_ fun _ => L.lawful.passes_of_kept
  have hnull : L.passes .null := L.lawful.passes_of_kept (kept_of_isAtom rfl)
  exact (obeys_statements hm scope p.statements .null hs hnull).bind fun v hv => obeys_unwrap hv

/-- A node obeys if all calls do. -/
theorem obeys_node (hm : L.Governs m) (scope : ScopeId) (node : Node)
    (hs : L.Suits scope (node.isFreeOf ·) node.lets) : L.Obeys L.passes (node.trace m scope) := by
  cases node with
  | program p => exact (obeys_program hm scope p hs).mono fun _ => L.lawful.passes_of_kept
  | stmt s => exact obeys_stmt hm scope s hs
  | expr e => exact (obeys_expr hm scope e hs).mono fun _ => L.lawful.passes_of_yields

/-! ## Calls -/

/-- What binding parameters may do: crash at one that is missing, or else bind its name. -/
def BindsParams (L : Law) (scope : ScopeId) (params : List (Option Text)) : Prop :=
  (L.allows .absent ∨ params.all Option.isSome = true) ∧ ∀ n, some n ∈ params → L.binds scope n

/-- Parameters may be bound if the law lets them, to arguments that are kept or to null. -/
theorem obeys_params (scope : ScopeId) {params : List (Option Text)} {args : List Value}
    (hparams : L.BindsParams scope params) (hargs : ∀ v ∈ args, L.Kept v) :
    L.Obeys (fun _ => True) (traceParams scope params args) := by
  induction params generalizing args with
  | nil => exact .pure trivial
  | cons p ps ih =>
      obtain ⟨hfree, hbinds⟩ := hparams
      cases p with
      | none =>
          have hallows : L.allows .absent := hfree.resolve_right Bool.noConfusion
          exact fun w _ => L.lawful.ended_crash w hallows
      | some p =>
          have hv : L.Kept (args.head?.getD .null) :=
            kept_getD_null fun v hv => hargs v (List.mem_of_head? hv)
          refine (Obeys.bound (hbinds p List.mem_cons_self) hv).bind fun _ _ => ih ⟨hfree, ?_⟩ ?_
          · exact fun n hn => hbinds n (List.mem_cons_of_mem _ hn)
          · exact fun v hv => hargs v (List.mem_of_mem_tail hv)

/-- What a call of a function does in the scope that is made for it. -/
theorem obeys_body (scope : ScopeId) {params : List (Option Text)} {body : Block}
    {args : List Value} (hparams : L.BindsParams scope params) (hargs : ∀ v ∈ args, L.Kept v)
    (hbody : L.Obeys L.passes (body.trace m scope)) :
    L.Obeys L.Kept (do
      traceParams scope params args
      let v ← body.trace m scope
      traceUnwrap v) :=
  (obeys_params scope hparams hargs).bind fun _ _ => hbody.bind fun _ hv => obeys_unwrap hv

/-- What a call of a function does once the depth is checked, if the body obeys the law in every
scope. -/
theorem obeys_closure (outer : ScopeId) {params : List (Option Text)}
    (hparams : ∀ scope, L.BindsParams scope params) {body : Block}
    (hbody : ∀ scope, L.Obeys L.passes (body.trace m scope)) {args : List Value}
    (hargs : ∀ v ∈ args, L.Kept v) :
    L.Obeys L.Kept (do
      let scope ← enclose outer
      traceParams scope params args
      let v ← body.trace m scope
      traceUnwrap v) :=
  (Obeys.enclose outer).bind fun scope _ => obeys_body scope (hparams scope) hargs (hbody scope)

section Closures

variable {ref : Ref} {params : List (Option Text)} {body : Block} {outer : ScopeId}

/-- The parameters of a function that is kept. -/
theorem bindsParams_of_kept (hf : L.Kept (.fn ref params body outer)) {scope : ScopeId}
    (hbinds : ∀ n, some n ∈ params → L.binds scope n) : L.BindsParams scope params := by
  refine ⟨?_, hbinds⟩
  have hfree := L.lawful.isFreeOf_of_value .absent hf.self
  exact hfree.imp_right fun h => (Bool.and_eq_true_iff.mp h).1

/-- The body of a function that is kept. -/
theorem suits_of_kept (hf : L.Kept (.fn ref params body outer)) {scope : ScopeId}
    (hbinds : ∀ n ∈ body.lets, L.binds scope n) :
    L.Suits scope (body.isFreeOf ·) body.lets := by
  refine ⟨fun c => ?_, hbinds⟩
  exact (L.lawful.isFreeOf_of_value c hf.self).imp_right fun h => (Bool.and_eq_true_iff.mp h).2

end Closures

/-- What is not a function of the program is called alike at every depth. -/
theorem obeys_otherCall {limits : Limits} {calls depth : Nat} {f : Value} {args : List Value}
    (hf : ∀ ref params body outer, f ≠ .fn ref params body outer) (hargs : ∀ v ∈ args, L.Kept v) :
    L.Obeys L.Kept (traceCall limits (calls + 1) depth f args) := by
  cases f with
  | fn ref params body outer => exact absurd rfl (hf ref params body outer)
  | builtin b =>
      exact (Obeys.noted (obeys_builtin b hargs) fun _ => L.lawful.passes_of_kept).bind
        fun v hv => .raise hv
  | _ => exact .fail rfl

/-- A call obeys a law that steps, the depth limit and running out of calls obey, if what is called
and what it is given may be kept. The induction is on the calls that may be inside one another: a
body only makes calls that have one call more around them. -/
theorem obeys_call {limits : Limits} (hbinds : ∀ scope n, L.binds scope n)
    (hstep : L.Obeys (fun _ => True) (step limits))
    (hexceed : L.Obeys L.Kept
      (exceed (text "call depth limit exceeded") limits.depth (.depthLimit limits.depth)))
    (hexhausted : ∀ w, L.ended .exhausted w []) (calls depth : Nat) {f : Value} {args : List Value}
    (hf : L.Kept f) (hargs : ∀ v ∈ args, L.Kept v) :
    L.Obeys L.Kept (traceCall limits calls depth f args) := by
  induction calls generalizing depth f args with
  | zero => exact fun w _ => hexhausted w
  | succ calls ih =>
      cases f with
      | fn ref params body outer =>
          refine .ite (fun _ => hexceed) fun _ => ?_
          have hinner : L.Governs ⟨limits, traceCall limits calls (depth + 1)⟩ :=
            ⟨hstep, fun f vs hf hvs => ih (depth + 1) hf hvs⟩
          refine obeys_closure outer (fun scope => ?_) (fun scope => ?_) hargs
          · exact bindsParams_of_kept hf fun n _ => hbinds scope n
          · exact obeys_block hinner scope body (suits_of_kept hf fun n _ => hbinds scope n)
      | _ => exact obeys_otherCall nofun hargs

end Law

end Monkey
