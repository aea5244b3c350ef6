import Monkey.Proofs.Likeness
import Monkey.Proofs.Scopes

/-!
# A name that nobody reads

A tree reads the names that stand in it as expressions; let statements and parameters bind names and
read none. If neither a tree nor any function that it can get hold of reads a name, then what is
bound to that name cannot matter. This is said of two heaps of the same shape that agree on all
bindings but those of the name (`Heap.AgreeBut`).

An evaluation ignores a name (`Traced.Ignores`) if from two worlds that are alike but for the name
it yields the same or stops alike, and leaves worlds that are alike but for the name. What it yields
has no function that reads the name: only so does what it leaves bound stay harmless. Everything
that evaluations are built with keeps this, so it holds of nodes if it does of steps and calls
(`ignores_node`), and of calls by induction on how many may be inside one another (`ignores_call`).
-/

namespace Monkey

/-! ## Names that are read -/

mutual

/-- The names that are read in a tree, those in function bodies too. -/
def Expr.reads : Expr → List Text
  | .absent | .nameless | .foreign _ | .int _ _ | .bool _ _ | .str _ _ => []
  | .ident _ name => [name]
  | .unary _ _ operand => operand.reads
  | .binary _ _ left right => left.reads ++ right.reads
  | .cond _ test consequence alternative =>
    test.reads ++ (consequence.reads ++ alternative.reads)
  | .fn _ _ body => body.reads
  | .call _ callee args => callee.reads ++ exprsReads args
  | .array _ elements => exprsReads elements
  | .index _ left index => left.reads ++ index.reads
  | .hash _ pairs => pairsReads pairs

/-- The names that are read in expressions. -/
def exprsReads : List Expr → List Text
  | [] => []
  | e :: rest => e.reads ++ exprsReads rest

/-- The names that are read in keys and their values. -/
def pairsReads : List (Expr × Expr) → List Text
  | [] => []
  | (k, v) :: rest => k.reads ++ (v.reads ++ pairsReads rest)

/-- The names that are read in a statement. The name that it binds is not read by that. -/
def Stmt.reads : Stmt → List Text
  | .absent => []
  | .bind _ _ value => value.reads
  | .ret _ value => value.reads
  | .expr _ expr => expr.reads
  | .block block => block.reads

/-- The names that are read in statements. -/
def statementsReads : List Stmt → List Text
  | [] => []
  | s :: rest => s.reads ++ statementsReads rest

/-- The names that are read in a block. -/
def Block.reads : Block → List Text
  | .absent => []
  | .of _ statements => statementsReads statements

end

/-- The names that are read in a tree. -/
def Node.reads : Node → List Text
  | .program p => statementsReads p.statements
  | .stmt s => s.reads
  | .expr e => e.reads

/-- A value is not a function whose body reads a name. -/
def Value.BodyIgnores (x : Text) : Value → Prop
  | .fn _ _ body _ => x ∉ body.reads
  | _ => True

/-- No function in a value reads a name. -/
def Value.Ignores (x : Text) (v : Value) : Prop :=
  v.Everywhere (Value.BodyIgnores x)

/-- No function that is bound to another name, or is in what is bound to it, reads a name. -/
def Heap.Ignores (x : Text) (h : Heap) : Prop :=
  ∀ i y v, y ≠ x → (h.scope i).bindings.lookup y = some v → v.Ignores x

/-- Two heaps have the same shape, and agree on all bindings but those of a name. -/
structure Heap.AgreeBut (x : Text) (h h' : Heap) : Prop where
  nextId : h'.nextId = h.nextId
  enclosing (i : ScopeId) : (h'.scope i).enclosing = (h.scope i).enclosing
  lookup (i : ScopeId) {y : Text} : y ≠ x →
    (h'.scope i).bindings.lookup y = (h.scope i).bindings.lookup y

variable {x : Text}

/-- Plain data has no body that could read a name. -/
theorem bodyIgnores_of_isData (v : Value) (h : v.isData = true) : v.BodyIgnores x := by
  cases v with
  | fn ref params body scope => cases h
  | _ => trivial

/-- A value that holds no others has no function in it. -/
theorem Value.Ignores.of_isAtom {v : Value} (h : v.isAtom = true) : v.Ignores x :=
  Everywhere.of_isAtom bodyIgnores_of_isData h

/-- A return wrapper adds no function to what it wraps. -/
theorem Value.Ignores.returned {v : Value} (h : v.Ignores x) (ref : Ref) :
    (Value.returned ref v).Ignores x := by
  intro u hu
  cases hu with
  | self => trivial
  | wrapped hu => exact h u hu

/-- What is not read in two parts is not read in either. -/
theorem unread_append {names more : List Text} (h : x ∉ names ++ more) : x ∉ names ∧ x ∉ more :=
  ⟨fun hx => h (List.mem_append_left more hx), fun hx => h (List.mem_append_right names hx)⟩

/-! ## Heaps -/

namespace Heap

variable {h h' : Heap}

/-- Which scopes are around one does not depend on what is bound to the name. -/
theorem AgreeBut.chain (ha : h.AgreeBut x h') (i : ScopeId) : h'.chain i = h.chain i := by
  rw [Heap.chain, ha.enclosing, Heap.chain]

/-- Another name is found, or not, just as before. -/
theorem AgreeBut.get? (ha : h.AgreeBut x h') (i : ScopeId) {y : Text} (hy : y ≠ x) :
    h'.get? i y = h.get? i y := by
  rw [Heap.get?, Heap.get?, ha.chain]
  exact congrArg (List.findSome? · _) (funext fun j => ha.lookup j hy)

/-- What is found under another name ignores the name. -/
theorem Ignores.get? (hh : h.Ignores x) {i : ScopeId} {y : Text} (hy : y ≠ x) {v : Value}
    (hv : h.get? i y = some v) : v.Ignores x := by
  obtain ⟨j, -, hj⟩ := List.exists_of_findSome?_eq_some hv
  exact hh j y v hy hj

/-- If no function in a heap reads a name, then none that is bound to another name does. -/
theorem Ignores.of_everywhere (hh : h.Everywhere (Value.BodyIgnores x)) : h.Ignores x := by
  intro i y v _ hv
  obtain ⟨before, rest, hsplit, -⟩ := List.lookup_eq_some_iff.mp hv
  exact hh.scope i (hsplit ▸ List.mem_append_right before List.mem_cons_self)

/-- Binding in a scope that does not exist changes nothing. -/
theorem scope_bind_of_le {id : ScopeId} (hid : h.nextId ≤ id) (name : Text) (v : Value)
    (i : ScopeId) :
    (h.bind id name v).scope i = h.scope i := by
  by_cases hi : i = id
  · rw [hi, scope_of_le hid, scope_of_le ((nextId_bind h id name v).symm ▸ hid)]
  · exact scope_bind_of_ne hi

/-- The same binding on both sides keeps heaps agreeing, whether it is of the name or of another. -/
theorem AgreeBut.bind (ha : h.AgreeBut x h') (id : ScopeId) (name : Text) (v : Value) :
    (h.bind id name v).AgreeBut x (h'.bind id name v) := by
  refine ⟨?_, fun i => ?_, fun i y hy => ?_⟩
  · rw [nextId_bind, nextId_bind, ha.nextId]
  · rw [enclosing_bind, enclosing_bind, ha.enclosing]
  -- a scope that does not exist is bound in in vain, in both heaps
  · by_cases hid : id < h.nextId
    · rw [lookup_bind h hid, lookup_bind h' (ha.nextId.symm ▸ hid), ha.lookup i hy]
    · have hid := Nat.not_lt.mp hid
      rw [scope_bind_of_le hid, scope_bind_of_le (ha.nextId.symm ▸ hid), ha.lookup i hy]

/-- A new scope gets the same number and the same enclosing scopes in both heaps. -/
theorem AgreeBut.enclose (ha : h.AgreeBut x h') (outer : ScopeId) :
    (h.enclose outer).AgreeBut x (h'.enclose outer) := by
  have hscope (i : ScopeId) : (h'.enclose outer).scope i = (h.enclose outer).scope i ∨
      (h'.enclose outer).scope i = h'.scope i ∧ (h.enclose outer).scope i = h.scope i := by
    -- the new scope is the same in both; the others are as they were
    by_cases hi : i = h.nextId
    · left
      rw [hi, scope_enclose_self, ← ha.nextId, scope_enclose_self, ha.chain]
    · exact .inr ⟨scope_enclose_of_ne (ha.nextId.symm ▸ hi) outer, scope_enclose_of_ne hi outer⟩
  refine ⟨?_, fun i => ?_, fun i y hy => ?_⟩
  · rw [nextId_enclose, nextId_enclose, ha.nextId]
  · rcases hscope i with heq | ⟨heq', heq⟩
    · rw [heq]
    · rw [heq', heq, ha.enclosing]
  · rcases hscope i with heq | ⟨heq', heq⟩
    · rw [heq]
    · rw [heq', heq, ha.lookup i hy]

/-- A heap that ignores a name may bind anything that ignores it, to the name as well. -/
theorem Ignores.bind (hh : h.Ignores x) (id : ScopeId) (name : Text) {v : Value}
    (hv : v.Ignores x) : (h.bind id name v).Ignores x := by
  intro i y u hy hu
  -- what is found is what was just bound, or what was bound before
  by_cases hid : id < h.nextId
  · rw [lookup_bind h hid] at hu
    split at hu
    · cases hu
      exact hv
    · exact hh i y u hy hu
  · rw [scope_bind_of_le (Nat.not_lt.mp hid)] at hu
    exact hh i y u hy hu

/-- A new scope has nothing bound in it. -/
theorem Ignores.enclose (hh : h.Ignores x) (outer : ScopeId) : (h.enclose outer).Ignores x := by
  intro i y u hy hu
  by_cases hi : i = h.nextId
  · rw [hi, scope_enclose_self] at hu
    cases hu
  · rw [scope_enclose_of_ne hi] at hu
    exact hh i y u hy hu

end Heap

/-! ## Evaluations that ignore a name -/

/-- Two worlds differ only in what is bound to a name, and no function that can be read in them
reads the name. -/
structure World.AlikeBut (x : Text) (w w' : World) : Prop where
  heap : w.heap.AgreeBut x w'.heap
  ignores : w.heap.Ignores x
  nextRef : w'.nextRef = w.nextRef
  steps : w'.steps = w.steps
  output : w'.output = w.output
  log : w'.log = w.log

/-- From worlds that are alike but for a name, an evaluation yields the same, of which something
holds, or stops alike, and the worlds after it are alike but for the name. -/
def Traced.Ignores {α : Type} (x : Text) (P : α → Prop) (c : Traced α) : Prop :=
  ∀ w w', World.AlikeBut x w w' → (c.run w').1 = (c.run w).1 ∧
    (∀ a, (c.run w).1 = .ok a → P a) ∧ World.AlikeBut x (c.run w).2 (c.run w').2

namespace Traced.Ignores

variable {α β : Type} {P : α → Prop} {Q : β → Prop}

/-- A value ignores the name if it has been said of it. -/
theorem pure {a : α} (h : P a) : Traced.Ignores x P (pure a) := by
  refine fun w w' hw => ⟨rfl, fun b hb => ?_, hw⟩
  cases hb
  exact h

/-- Stopping is the same from every world. -/
theorem stop (s : Stop) : Traced.Ignores x P (stop s) :=
  fun _ _ hw => ⟨rfl, nofun, hw⟩

/-- What follows a part may rely on what holds of its value. -/
theorem bind {c : Traced β} {k : β → Traced α} (hc : Traced.Ignores x Q c)
    (hk : ∀ b, Q b → Traced.Ignores x P (k b)) : Traced.Ignores x P (c >>= k) := by
  intro w w' hw
  obtain ⟨hsame, hQ, hafter⟩ := hc w w' hw
  rw [run_bind, run_bind]
  rcases hc : c.run w with ⟨s | b, u⟩ <;> rcases hc' : c.run w' with ⟨r, u'⟩ <;>
    rw [hc, hc'] at hsame hafter <;> obtain rfl := hsame
  · exact ⟨rfl, nofun, hafter⟩
  · exact hk b (hQ b (congrArg Prod.fst hc)) u u' hafter

/-- Saying what is yielded changes no world. -/
theorem noted {c : Traced Value} {P : Value → Prop} (hc : Traced.Ignores x P c) :
    Traced.Ignores x P (noted c) := by
  intro w w' hw
  rw [run_noted, run_noted]
  exact hc w w' hw

/-- Saying what is used changes no world. -/
theorem used {c : Traced Value} {P : Value → Prop} (hc : Traced.Ignores x P c) {e : Expr} :
    Traced.Ignores x P (used e c) := by
  intro w w' hw
  rw [run_used, run_used]
  exact hc w w' hw

theorem ite {p : Prop} [Decidable p] {c d : Traced α} (hc : Traced.Ignores x P c)
    (hd : Traced.Ignores x P d) : Traced.Ignores x P (if p then c else d) := by
  by_cases hp : p
  · rw [if_pos hp]
    exact hc
  · rw [if_neg hp]
    exact hd

/-- A value that was read may be a stored fault, which stops both evaluations alike. -/
theorem raise {v : Value} (hv : v.Ignores x) : Traced.Ignores x (Value.Ignores x) (raise v) := by
  cases v with
  | error f => exact .stop (.fault f)
  | _ => exact .pure hv

/-- A computation on values does not look at the world. -/
theorem ofExcept {r : Except Fault α} (hr : ∀ a, r = .ok a → P a) :
    Traced.Ignores x P (ofExcept r) := by
  cases r with
  | ok a => exact .pure (hr a rfl)
  | error f => exact .stop (.fault f)

theorem attempt (r : Except Crash α) : Traced.Ignores x (fun _ => True) (attempt r) := by
  cases r with
  | ok a => exact .pure trivial
  | error c => exact .stop (.crash c)

theorem logged (r : LogRecord) : Traced.Ignores x (fun _ => True) (perform (.logged r)) :=
  fun _ _ hw => ⟨rfl, fun _ _ => trivial, { hw with log := congrArg (· ++ [r]) hw.log }⟩

theorem yielded (v : Value) : Traced.Ignores x (fun _ => True) (perform (.yielded v)) :=
  fun _ _ hw => ⟨rfl, fun _ _ => trivial, hw⟩

theorem printed (t : Text) : Traced.Ignores x (fun _ => True) (perform (.printed t)) :=
  fun _ _ hw => ⟨rfl, fun _ _ => trivial, { hw with output := congrArg (· ++ t) hw.output }⟩

/-- Exceeding a limit leaves the same record in both logs. -/
theorem exceed (message : Text) (limit : Int) (f : Fault) :
    Traced.Ignores x P (exceed message limit f) :=
  (logged _).bind fun _ _ => (yielded _).bind fun _ _ => .stop (.fault f)

/-- The next identity is the same in both worlds. -/
theorem fresh : Traced.Ignores x (fun _ => True) fresh :=
  fun _ _ hw => ⟨congrArg Except.ok hw.nextRef, fun _ _ => trivial,
    { hw with nextRef := congrArg (· + 1) hw.nextRef }⟩

/-- Binding the name itself makes worlds agree on it in one scope, which does no harm. -/
theorem bound (scope : ScopeId) (name : Text) {v : Value} (hv : v.Ignores x) :
    Traced.Ignores x (fun _ => True) (perform (.bound scope name v)) :=
  fun _ _ hw => ⟨rfl, fun _ _ => trivial,
    { hw with heap := hw.heap.bind scope name v, ignores := hw.ignores.bind scope name hv }⟩

/-- The new scope has the same number in both worlds. -/
theorem enclose (outer : ScopeId) : Traced.Ignores x (fun _ => True) (enclose outer) :=
  fun _ _ hw => ⟨congrArg Except.ok hw.heap.nextId, fun _ _ => trivial,
    { hw with heap := hw.heap.enclose outer, ignores := hw.ignores.enclose outer }⟩

/-- The counts are the same, so the limit is exceeded from both worlds or from neither. -/
theorem step (limits : Limits) : Traced.Ignores x (fun _ => True) (step limits) := by
  intro w w' hw
  rcases w' with ⟨heap, nextRef, steps, output, log⟩
  obtain rfl : steps = w.steps := hw.steps
  have hrest : Traced.Ignores x (fun _ => True)
      (if 0 < limits.steps ∧ limits.steps < ((w.steps + 1 : Nat) : Int) then
        Traced.exceed (text "step limit exceeded") limits.steps (.stepLimit limits.steps)
        else Pure.pure () : Traced Unit) := .ite (exceed _ _ _) (.pure trivial)
  exact hrest { w with steps := w.steps + 1 } ⟨heap, nextRef, w.steps + 1, output, log⟩
    { hw with steps := rfl }

/-- A name that is not the ignored one is looked up alike. -/
theorem lookup (scope : ScopeId) {name : Text} (hname : name ≠ x) :
    Traced.Ignores x (Value.Ignores x) (traceLookup scope name) := by
  intro w w' hw
  rw [Likeness.run_lookup, Likeness.run_lookup, hw.heap.get? scope hname]
  cases hget : w.heap.get? scope name with
  | some v => exact raise (hw.ignores.get? hname hget) w w' hw
  | none =>
      rw [Likeness.standsFor]
      cases Builtin.ofName? name with
      | some b => exact Ignores.pure (Value.Ignores.of_isAtom rfl) w w' hw
      | none => exact Ignores.stop (.fault (.unbound name)) w w' hw

end Traced.Ignores

open Traced

/-! ## Built-in functions -/

theorem ignores_atom {v : Value} (hv : v.isAtom = true) :
    Traced.Ignores x (Value.Ignores x) (pure v) :=
  .pure (.of_isAtom hv)

/-- An array of values that ignore a name ignores it. -/
theorem ignores_newArray {items : List Value} (h : ∀ v ∈ items, v.Ignores x) :
    Traced.Ignores x (Value.Ignores x) (do return .array (← fresh) items) :=
  Traced.Ignores.fresh.bind fun ref _ => .pure (.array bodyIgnores_of_isData ref h)

/-- The elements of an array that ignores a name ignore it. -/
theorem ignores_arrayArgument (b : Builtin) {args : List Value} (h : ∀ v ∈ args, v.Ignores x) :
    Traced.Ignores x (fun items => ∀ v ∈ items, v.Ignores x)
      (Builtin.trace.arrayArgument b args) := by
  unfold Builtin.trace.arrayArgument
  split
  · exact .pure (h _ List.mem_cons_self).item
  · exact .stop _
  · exact .stop _

/-- What is not there is null, and null reads nothing. -/
theorem ignores_getD_null {v? : Option Value} (h : ∀ v, v? = some v → v.Ignores x) :
    (v?.getD .null).Ignores x :=
  .getD_null bodyIgnores_of_isData h

theorem ignores_printAll (args : List Value) :
    Traced.Ignores x (fun _ => True) (Builtin.trace.printAll args) := by
  induction args with
  | nil => exact .pure trivial
  | cons v others ih =>
      exact (Traced.Ignores.attempt v.shown).bind fun _ _ =>
        (Traced.Ignores.printed _).bind fun _ _ => ih

/-- No built-in function makes a function, so it yields only what came in with its arguments. -/
theorem ignores_builtin (b : Builtin) {args : List Value} (h : ∀ v ∈ args, v.Ignores x) :
    Traced.Ignores x (Value.Ignores x) (b.trace args) := by
  unfold Builtin.trace
  split
  · exact ignores_atom rfl
  · exact ignores_atom rfl
  · exact .stop _
  · exact .stop _
  · exact (ignores_printAll args).bind fun _ _ => ignores_atom rfl
  · exact (ignores_arrayArgument _ h).bind fun items hitems =>
      .pure (ignores_getD_null fun v hv => hitems v (List.mem_of_head? hv))
  · exact (ignores_arrayArgument _ h).bind fun items hitems =>
      .pure (ignores_getD_null fun v hv => hitems v (List.mem_of_getLast? hv))
  · refine (ignores_arrayArgument _ h).bind fun items hitems => ?_
    cases items with
    | nil => exact ignores_atom rfl
    | cons first tail =>
        exact ignores_newArray fun v hv =>
          hitems v (List.mem_cons_of_mem first (List.dropLast_subset tail hv))
  · rename_i ref items v
    have hitems := (h _ List.mem_cons_self).item
    have hv : v.Ignores x := h v (List.mem_cons_of_mem _ List.mem_cons_self)
    exact ignores_newArray fun u hu =>
      (List.mem_append.mp hu).elim (hitems u) fun hu => List.mem_singleton.mp hu ▸ hv
  · exact .stop _
  · exact .stop _

/-! ## Nodes -/

/-- The calls of a tracer ignore a name. -/
def Tracer.Ignores (x : Text) (m : Tracer) : Prop :=
  ∀ f vs, f.Ignores x → (∀ v ∈ vs, v.Ignores x) →
    Traced.Ignores x (Value.Ignores x) (m.apply f vs)

variable {m : Tracer}

/-- A node that is counted ignores a name if its rule does. -/
theorem ignores_counted {limits : Limits} {c : Traced Value}
    (hc : Traced.Ignores x (Value.Ignores x) c) :
    Traced.Ignores x (Value.Ignores x) (noted (Traced.step limits >>= fun _ => c)) :=
  ((Traced.Ignores.step limits).bind fun _ _ => hc).noted

mutual

/-- A tree that does not read a name ignores it. -/
theorem ignores_expr (hm : m.Ignores x) (scope : ScopeId) : (e : Expr) → x ∉ e.reads →
    Traced.Ignores x (Value.Ignores x) (e.trace m scope)
  | .absent, _ => ignores_atom rfl
  | .nameless, _ => ignores_counted (ignores_atom rfl)
  | .foreign _, _ => ignores_counted (.stop _)
  | .ident _ name, hx =>
      ignores_counted (.lookup scope fun h => hx (h ▸ List.mem_cons_self))
  | .int _ _, _ => ignores_counted (ignores_atom rfl)
  | .bool _ _, _ => ignores_counted (ignores_atom rfl)
  | .str _ _, _ => ignores_counted (ignores_atom rfl)
  | .unary _ op operand, hx =>
      ignores_counted <| .ite (ignores_atom rfl) <|
        (ignores_expr hm scope operand hx).used.bind fun _ _ =>
        .ofExcept fun _ hu => .of_isAtom (UnaryOp.isAtom_apply hu)
  | .binary _ op left right, hx =>
      have hreads := unread_append hx
      ignores_counted <| .ite (ignores_atom rfl) <|
        (ignores_expr hm scope left hreads.1).used.bind fun _ _ =>
        (ignores_expr hm scope right hreads.2).used.bind fun _ _ =>
        .ofExcept fun _ hu => .of_isAtom (BinaryOp.isAtom_apply hu)
  | .cond _ test consequence alternative, hx => by
      obtain ⟨htest, hx⟩ := unread_append hx
      obtain ⟨hconsequence, halternative⟩ := unread_append hx
      refine ignores_counted ((ignores_expr hm scope test htest).used.bind fun v _ => ?_)
      exact .ite (ignores_block hm scope consequence hconsequence)
        (.ite (ignores_atom rfl) (ignores_block hm scope alternative halternative))
  | .fn _ params body, hx =>
      ignores_counted <| Traced.Ignores.fresh.bind fun ref _ => .pure (.fn hx)
  | .call _ callee args, hx =>
      have hreads := unread_append hx
      ignores_counted <| (ignores_expr hm scope callee hreads.1).used.bind fun f hf =>
        (ignores_exprs hm scope args hreads.2).bind fun vs hvs => hm f vs hf hvs
  | .array _ elements, hx =>
      ignores_counted <| (ignores_exprs hm scope elements hx).bind fun _ hvs => ignores_newArray hvs
  | .index _ left index, hx =>
      have hreads := unread_append hx
      ignores_counted <| (ignores_expr hm scope left hreads.1).used.bind fun _ hl =>
        (ignores_expr hm scope index hreads.2).used.bind fun _ _ =>
        (Traced.Ignores.ofExcept fun _ => hl.select bodyIgnores_of_isData).bind fun _ hu =>
          .raise hu
  | .hash _ pairs, hx =>
      have hempty : ∀ k v, (k, v) ∈ ([] : Table Value) → v.Ignores x :=
        fun _ _ h => absurd h List.not_mem_nil
      ignores_counted <| (ignores_pairs hm scope pairs [] hx hempty).bind fun _ hentries =>
        Traced.Ignores.fresh.bind fun ref _ => .pure (.hash bodyIgnores_of_isData ref hentries)

/-- The values of expressions ignore the name. -/
theorem ignores_exprs (hm : m.Ignores x) (scope : ScopeId) : (es : List Expr) → x ∉ exprsReads es →
    Traced.Ignores x (fun vs => ∀ v ∈ vs, v.Ignores x) (traceExprs m scope es)
  | [], _ => .pure fun _ h => absurd h List.not_mem_nil
  | e :: rest, hx =>
      have hreads := unread_append hx
      (ignores_expr hm scope e hreads.1).used.bind fun _ hv =>
        (ignores_exprs hm scope rest hreads.2).bind fun _ hvs =>
        .pure fun u hu => (List.mem_cons.mp hu).elim (fun h => h ▸ hv) (hvs u)

/-- A table keeps ignoring the name while pairs are stored in it. -/
theorem ignores_pairs (hm : m.Ignores x) (scope : ScopeId) :
    (pairs : List (Expr × Expr)) → (table : Table Value) → x ∉ pairsReads pairs →
    (∀ k v, (k, v) ∈ table → v.Ignores x) →
    Traced.Ignores x (fun t => ∀ k v, (k, v) ∈ t → v.Ignores x) (tracePairs m scope pairs table)
  | [], _, _, htable => .pure htable
  | (k, v) :: rest, table, hx, htable => by
      obtain ⟨hkey, hx⟩ := unread_append hx
      obtain ⟨hvalue, hrest⟩ := unread_append hx
      refine (ignores_expr hm scope k hkey).used.bind fun key _ => ?_
      cases key.key? with
      | none => exact .stop _
      | some key =>
          refine (ignores_expr hm scope v hvalue).used.bind fun value hv => ?_
          refine ignores_pairs hm scope rest _ hrest fun k' v' h => ?_
          -- a pair of the new table is the one that was stored or an old one
          rcases mem_insert h with h | h
          · cases h
            exact hv
          · exact htable k' v' h

/-- A statement that does not read a name ignores it, even if it binds it. -/
theorem ignores_stmt (hm : m.Ignores x) (scope : ScopeId) : (s : Stmt) → x ∉ s.reads →
    Traced.Ignores x (Value.Ignores x) (s.trace m scope)
  | .absent, _ => ignores_atom rfl
  | .bind _ name value, hx => by
      refine ignores_counted ?_
      split
      · refine (ignores_expr hm scope value hx).used.bind fun v hv => ?_
        -- this may well be the ignored name
        exact (Traced.Ignores.bound scope _ hv).bind fun _ _ => ignores_atom rfl
      · exact ignores_atom rfl
  | .ret _ value, hx =>
      ignores_counted <| (ignores_expr hm scope value hx).used.bind fun v hv =>
        Traced.Ignores.fresh.bind fun ref _ => .pure (hv.returned ref)
  | .expr _ expr, hx => ignores_counted (ignores_expr hm scope expr hx)
  | .block block, hx => ignores_block hm scope block hx

/-- Statements ignore the name one after the other. -/
theorem ignores_statements (hm : m.Ignores x) (scope : ScopeId) :
    (ss : List Stmt) → (last : Value) → x ∉ statementsReads ss → last.Ignores x →
    Traced.Ignores x (Value.Ignores x) (traceStatements m scope last ss)
  | [], _, _, hlast => .pure hlast
  | s :: rest, _, hx, _ =>
      have hreads := unread_append hx
      (ignores_stmt hm scope s hreads.1).bind fun v hv =>
        .ite (.pure hv) (ignores_statements hm scope rest v hreads.2 hv)

/-- A block ignores the name as its statements do. -/
theorem ignores_block (hm : m.Ignores x) (scope : ScopeId) : (b : Block) → x ∉ b.reads →
    Traced.Ignores x (Value.Ignores x) (b.trace m scope)
  | .absent, _ => ignores_counted (ignores_atom rfl)
  | .of _ statements, hx =>
      ignores_counted (ignores_statements hm scope statements .null hx (.of_isAtom rfl))

end

/-- What a return wrapper holds ignores the name as the wrapper does. -/
theorem ignores_unwrap {v : Value} (hv : v.Ignores x) :
    Traced.Ignores x (Value.Ignores x) (traceUnwrap v) := by
  cases v with
  | returned ref v => exact .raise fun u hu => hv u (.wrapped hu)
  | _ => exact .pure hv

/-- Any node that does not read a name ignores it. -/
theorem ignores_node (hm : m.Ignores x) (scope : ScopeId) {node : Node} (hx : x ∉ node.reads) :
    Traced.Ignores x (Value.Ignores x) (node.trace m scope) := by
  cases node with
  | program p =>
      exact ignores_counted <|
        (ignores_statements hm scope p.statements .null hx (.of_isAtom rfl)).bind fun _ hv =>
          ignores_unwrap hv
  | stmt s => exact ignores_stmt hm scope s hx
  | expr e => exact ignores_expr hm scope e hx

/-! ## Calls -/

/-- Parameters may have the name: binding it does no harm. -/
theorem ignores_params (scope : ScopeId) (params : List (Option Text)) {args : List Value}
    (h : ∀ v ∈ args, v.Ignores x) :
    Traced.Ignores x (fun _ => True) (traceParams scope params args) := by
  induction params generalizing args with
  | nil => exact .pure trivial
  | cons p ps ih =>
      rcases p with - | p
      · exact .stop (.crash .absent)
      have hv : (args.head?.getD .null).Ignores x :=
        ignores_getD_null fun v hv => h v (List.mem_of_head? hv)
      exact (Traced.Ignores.bound scope p hv).bind fun _ _ =>
        ih fun v hv => h v (List.mem_of_mem_tail hv)

/-- Calls ignore a name that no function reads. The induction is on the calls that may be inside one
another. -/
theorem ignores_call (limits : Limits) (calls depth : Nat) {f : Value} {args : List Value}
    (hf : f.Ignores x) (hargs : ∀ v ∈ args, v.Ignores x) :
    Traced.Ignores x (Value.Ignores x) (traceCall limits calls depth f args) := by
  induction calls generalizing depth f args with
  | zero => exact .stop .exhausted
  | succ calls ih =>
      cases f with
      | fn ref params body outer =>
          -- the body of a function that ignores the name does not read it
          have hinner : Tracer.Ignores x ⟨limits, traceCall limits calls (depth + 1)⟩ :=
            fun f vs hf hvs => ih (depth + 1) hf hvs
          refine .ite (.exceed _ _ _) ((Traced.Ignores.enclose outer).bind fun scope _ => ?_)
          exact (ignores_params scope params hargs).bind fun _ _ =>
            (ignores_block hinner scope body hf.self).bind fun _ hv => ignores_unwrap hv
      | builtin b => exact (ignores_builtin b hargs).noted.bind fun _ hv => .raise hv
      | _ => exact .stop _

/-! ## Runs -/

/-- What runs make of an evaluation that ignores a name is alike but for the name. -/
theorem conclude_ignores {c : Traced Value} {P : Value → Prop} (hc : Traced.Ignores x P c)
    {w w' : World}
    (hw : World.AlikeBut x w w') :
    (conclude (c.run w')).1 = (conclude (c.run w)).1 ∧
      World.AlikeBut x (conclude (c.run w)).2 (conclude (c.run w')).2 := by
  obtain ⟨hsame, -, hafter⟩ := hc w w' hw
  rcases hrun : c.run w with ⟨r, u⟩
  rcases hrun' : c.run w' with ⟨r', u'⟩
  rw [hrun, hrun'] at hsame hafter
  subst hsame
  rcases r' with (f | _ | _) | v
  · exact ⟨rfl, { hafter with log := congrArg (· ++ [f.report]) hafter.log }⟩
  · exact ⟨rfl, hafter⟩
  · exact ⟨rfl, hafter⟩
  · exact ⟨rfl, hafter⟩

/-- **A binding that nobody reads does not matter.** Let two heaps have the same shape and agree on
all bindings but those of a name, and let the name be read neither in a tree nor in a function that
is bound to another name or is in what is bound to it. Then runs of the tree from the two, in the
same scope and with the same limits, have the same result, print the same and log the same, and
leave heaps that again have the same shape and agree on all bindings but those of the name. Let
statements and parameters may have the name. -/
theorem unread_binding_never_matters (x : Text) (calls : Nat) (limits : Limits) (node : Node)
    (scope : ScopeId) (w : World) (h' : Heap) (hagree : w.heap.AgreeBut x h')
    (hnode : x ∉ node.reads) (hheap : w.heap.Ignores x) :
    let one := runWith calls limits node scope w
    let other := runWith calls limits node scope { w with heap := h' }
    other.1 = one.1 ∧ other.2.output = one.2.output ∧ other.2.log = one.2.log ∧
      one.2.heap.AgreeBut x other.2.heap := by
  have hm : Tracer.Ignores x (.ofLimits limits calls) :=
    fun f vs hf hvs => ignores_call limits calls 0 hf hvs
  have hw : World.AlikeBut x { w with steps := 0 } { w with heap := h', steps := 0 } :=
    ⟨hagree, hheap, rfl, rfl, rfl, rfl⟩
  obtain ⟨hsame, hafter⟩ := conclude_ignores (ignores_node hm scope hnode) hw
  rw [← runWith_eq_conclude calls limits node scope w,
    ← runWith_eq_conclude calls limits node scope { w with heap := h' }] at hsame hafter
  exact ⟨hsame, hafter.output, hafter.log, hafter.heap⟩

/-- Binding a name gives a heap that agrees with what it was but for the name. -/
theorem Heap.agreeBut_bind (h : Heap) {id : ScopeId} (hid : id < h.nextId) (v : Value) :
    h.AgreeBut x (h.bind id x v) := by
  refine ⟨nextId_bind h id x v, enclosing_bind h id x v, fun i y hy => ?_⟩
  rw [lookup_bind h hid, if_neg fun hbound => hy hbound.2]

/-- One integer, and a function that returns it and has a parameter and a let statement for another
name. -/
def shadowing : Heap :=
  (World.fresh.heap.bind 0 (text "n") (.int 7)).bind 0 (text "f")
    (.fn 0 [some (text "x")]
      (.of default [.bind default (some ⟨default, text "x"⟩) (.int default 1),
        .expr default (.ident default (text "n"))]) 0)

/-- A fault that is bound to the name would end the run if it was read. -/
theorem unread_binding_never_matters_fault :
    let node := Node.program (parse (text "let x = f(3); puts(f(4));")).program
    let faulty := shadowing.bind 0 (text "x") (.error .divisionByZero)
    shadowing.AgreeBut (text "x") faulty ∧ text "x" ∉ node.reads ∧ shadowing.Ignores (text "x") ∧
    (runWith 2 {} node 0 { heap := faulty }).1 = (runWith 2 {} node 0 { heap := shadowing }).1 ∧
    (runWith 2 {} node 0 { heap := faulty }).2.output = text "7\n" := by
  have hagree : shadowing.AgreeBut (text "x")
      (shadowing.bind 0 (text "x") (.error .divisionByZero)) :=
    shadowing.agreeBut_bind (by decide) _
  have hnode :
      text "x" ∉ (Node.program (parse (text "let x = f(3); puts(f(4));")).program).reads := by
    decide +kernel
  have hempty : World.fresh.heap.Ignores (text "x") := .of_everywhere (World.everywhere_fresh _)
  have hheap : shadowing.Ignores (text "x") := by
    refine (hempty.bind 0 _ (.of_isAtom rfl)).bind 0 _ (.fn ?_)
    show text "x" ∉ [text "n"]
    decide
  have h := unread_binding_never_matters (text "x") 2 {} _ 0 { heap := shadowing } _ hagree
    hnode hheap
  exact ⟨hagree, hnode, hheap, h.1, h.2.1.trans rfl⟩

end Monkey
