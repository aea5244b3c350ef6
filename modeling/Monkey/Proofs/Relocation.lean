import Monkey.Eval.Builtin
import Monkey.Proofs.Hazards

/-!
# Values that were made elsewhere

A function keeps its body, and the nodes of the body know where they came from. So two programs that
differ in layout make values that differ in origins, and `Value.relocate` rewrites those origins
wherever a value holds a function; a heap is relocated by relocating all that is bound in it.

No operator, no selection, no built-in function and no scope looks at an origin: each of them
commutes with relocation. Of the texts that people see only the canonical text of a body depends on
origins, and that by their literals (`Value.inspect_relocate`).
-/

namespace Monkey

/-! ## Trees -/

section Trees

variable {f g f' g' : Origin → Origin}

/-- Names whose origins are left as they are. -/
theorem Binder.relocate_id : Binder.relocate id = id :=
  rfl

mutual

/-- Rewriting each origin as itself changes nothing. -/
theorem Expr.relocate_id : (e : Expr) → e.relocate id id = e
  | .absent | .nameless | .foreign _ | .ident _ _ | .int _ _ | .bool _ _ | .str _ _ => rfl
  | .unary _ _ operand => by rw [Expr.relocate, operand.relocate_id]; rfl
  | .binary _ _ left right => by rw [Expr.relocate, left.relocate_id, right.relocate_id]; rfl
  | .cond _ test consequence alternative => by
      rw [Expr.relocate, test.relocate_id, consequence.relocate_id, alternative.relocate_id]; rfl
  | .fn _ params body => by
      rw [Expr.relocate, body.relocate_id, Binder.relocate_id, Option.map_id, List.map_id]; rfl
  | .call _ callee args => by rw [Expr.relocate, callee.relocate_id, relocateExprs_id args]; rfl
  | .array _ elements => by rw [Expr.relocate, relocateExprs_id elements]; rfl
  | .index _ left index => by rw [Expr.relocate, left.relocate_id, index.relocate_id]; rfl
  | .hash _ pairs => by rw [Expr.relocate, relocatePairs_id pairs]; rfl

/-- The same for expressions. -/
theorem relocateExprs_id : (es : List Expr) → relocateExprs id id es = es
  | [] => rfl
  | e :: rest => by rw [relocateExprs, e.relocate_id, relocateExprs_id rest]

/-- The same for keys and their values. -/
theorem relocatePairs_id : (ps : List (Expr × Expr)) → relocatePairs id id ps = ps
  | [] => rfl
  | (key, value) :: rest => by
      rw [relocatePairs, key.relocate_id, value.relocate_id, relocatePairs_id rest]

/-- The same for statements, which have two kinds of origins. -/
theorem Stmt.relocate_id : (s : Stmt) → s.relocate id id = s
  | .absent => rfl
  | .bind _ name value => by
      rw [Stmt.relocate, value.relocate_id, Binder.relocate_id, Option.map_id]; rfl
  | .ret _ value => by rw [Stmt.relocate, value.relocate_id]; rfl
  | .expr _ expr => by rw [Stmt.relocate, expr.relocate_id]; rfl
  | .block block => by rw [Stmt.relocate, block.relocate_id]

theorem relocateStatements_id : (ss : List Stmt) → relocateStatements id id ss = ss
  | [] => rfl
  | s :: rest => by rw [relocateStatements, s.relocate_id, relocateStatements_id rest]

theorem Block.relocate_id : (b : Block) → b.relocate id id = b
  | .absent => rfl
  | .of _ statements => by rw [Block.relocate, relocateStatements_id statements]; rfl

end

mutual

/-- Rewriting origins twice is rewriting them once. -/
theorem Expr.relocate_relocate :
    (e : Expr) → (e.relocate f g).relocate f' g' = e.relocate (f' ∘ f) (g' ∘ g)
  | .absent | .nameless | .foreign _ | .ident _ _ | .int _ _ | .bool _ _ | .str _ _ => rfl
  | .unary _ _ operand => by simp only [Expr.relocate, operand.relocate_relocate]; rfl
  | .binary _ _ left right => by
      simp only [Expr.relocate, left.relocate_relocate, right.relocate_relocate]; rfl
  | .cond _ test consequence alternative => by
      simp only [Expr.relocate, test.relocate_relocate, consequence.relocate_relocate,
        alternative.relocate_relocate]
      rfl
  | .fn _ params body => by
      simp only [Expr.relocate, body.relocate_relocate, List.map_map, Option.map_comp_map]; rfl
  | .call _ callee args => by
      simp only [Expr.relocate, callee.relocate_relocate, relocateExprs_relocate args]; rfl
  | .array _ elements => by simp only [Expr.relocate, relocateExprs_relocate elements]; rfl
  | .index _ left index => by
      simp only [Expr.relocate, left.relocate_relocate, index.relocate_relocate]; rfl
  | .hash _ pairs => by simp only [Expr.relocate, relocatePairs_relocate pairs]; rfl

/-- The same for expressions. -/
theorem relocateExprs_relocate : (es : List Expr) →
    relocateExprs f' g' (relocateExprs f g es) = relocateExprs (f' ∘ f) (g' ∘ g) es
  | [] => rfl
  | e :: rest => by simp only [relocateExprs, e.relocate_relocate, relocateExprs_relocate rest]

/-- The same for keys and their values. -/
theorem relocatePairs_relocate : (ps : List (Expr × Expr)) →
    relocatePairs f' g' (relocatePairs f g ps) = relocatePairs (f' ∘ f) (g' ∘ g) ps
  | [] => rfl
  | (key, value) :: rest => by
      simp only [relocatePairs, key.relocate_relocate, value.relocate_relocate,
        relocatePairs_relocate rest]

/-- The same for statements. -/
theorem Stmt.relocate_relocate :
    (s : Stmt) → (s.relocate f g).relocate f' g' = s.relocate (f' ∘ f) (g' ∘ g)
  | .absent => rfl
  | .bind _ name value => by
      simp only [Stmt.relocate, value.relocate_relocate, Option.map_map]; rfl
  | .ret _ value => by simp only [Stmt.relocate, value.relocate_relocate]; rfl
  | .expr _ expr => by simp only [Stmt.relocate, expr.relocate_relocate]; rfl
  | .block block => by simp only [Stmt.relocate, block.relocate_relocate]

theorem relocateStatements_relocate : (ss : List Stmt) →
    relocateStatements f' g' (relocateStatements f g ss) = relocateStatements (f' ∘ f) (g' ∘ g) ss
  | [] => rfl
  | s :: rest => by
      simp only [relocateStatements, s.relocate_relocate, relocateStatements_relocate rest]

theorem Block.relocate_relocate :
    (b : Block) → (b.relocate f g).relocate f' g' = b.relocate (f' ∘ f) (g' ∘ g)
  | .absent => rfl
  | .of _ statements => by
      simp only [Block.relocate, relocateStatements_relocate statements]; rfl

end

/-- Statements are relocated one by one. -/
theorem relocateStatements_append (ss ss' : List Stmt) :
    relocateStatements f g (ss ++ ss')
      = relocateStatements f g ss ++ relocateStatements f g ss' := by
  induction ss with
  | nil => rfl
  | cons s ss ih =>
      rw [List.cons_append, relocateStatements, relocateStatements, ih, List.cons_append]

/-- Rewrite the origins in a program. -/
def Program.relocate (node statement : Origin → Origin) (p : Program) : Program :=
  ⟨node p.origin, relocateStatements node statement p.statements⟩

/-- Rewrite the origins in any part of a program. -/
def Node.relocate (node statement : Origin → Origin) : Node → Node
  | .program p => .program (p.relocate node statement)
  | .stmt s => .stmt (s.relocate node statement)
  | .expr e => .expr (e.relocate node statement)

/-- A node whose origins are left as they are is the same node. -/
theorem Node.relocate_id (node : Node) : node.relocate id id = node := by
  cases node with
  | program p => exact congrArg (fun ss => Node.program ⟨p.origin, ss⟩) (relocateStatements_id _)
  | stmt s => exact congrArg Node.stmt s.relocate_id
  | expr e => exact congrArg Node.expr e.relocate_id

end Trees

/-! ## Values -/

mutual

/-- Rewrite the origins in the bodies of all functions that a value is or holds. -/
def Value.relocate (node statement : Origin → Origin) : Value → Value
  | .int n => .int n
  | .str t => .str t
  | .bool b => .bool b
  | .null => .null
  | .array ref items => .array ref (relocateItems node statement items)
  | .hash ref entries => .hash ref (relocateEntries node statement entries)
  | .fn ref params body scope => .fn ref params (body.relocate node statement) scope
  | .builtin function => .builtin function
  | .returned ref value => .returned ref (value.relocate node statement)
  | .error fault => .error fault

/-- Rewrite the origins in values. -/
def relocateItems (node statement : Origin → Origin) : List Value → List Value
  | [] => []
  | v :: rest => v.relocate node statement :: relocateItems node statement rest

/-- Rewrite the origins in the values of a table. -/
def relocateEntries (node statement : Origin → Origin) : Table Value → Table Value
  | [] => []
  | (key, v) :: rest => (key, v.relocate node statement) :: relocateEntries node statement rest

end

variable {node statement : Origin → Origin}

/-- The elements of an array are relocated one by one. -/
theorem relocateItems_eq_map (items : List Value) :
    relocateItems node statement items = items.map (Value.relocate node statement) := by
  induction items with
  | nil => rfl
  | cons v rest ih => rw [relocateItems, ih, List.map_cons]

mutual

/-- A value whose functions keep their origins is the same value. -/
theorem Value.relocate_id : (v : Value) → v.relocate id id = v
  | .int _ | .str _ | .bool _ | .null | .builtin _ | .error _ => rfl
  | .array _ items => by rw [Value.relocate, relocateItems_id items]
  | .hash _ entries => by rw [Value.relocate, relocateEntries_id entries]
  | .fn _ _ body _ => by rw [Value.relocate, body.relocate_id]
  | .returned _ v => by rw [Value.relocate, v.relocate_id]

theorem relocateItems_id : (items : List Value) → relocateItems id id items = items
  | [] => rfl
  | v :: rest => by rw [relocateItems, v.relocate_id, relocateItems_id rest]

theorem relocateEntries_id : (entries : Table Value) → relocateEntries id id entries = entries
  | [] => rfl
  | (_, v) :: rest => by rw [relocateEntries, v.relocate_id, relocateEntries_id rest]

end

namespace Value

/-- Relocating a value changes only what is in its functions, so it leaves its type. -/
@[simp] theorem tag_relocate (v : Value) : (v.relocate node statement).tag = v.tag := by
  cases v <;> rfl

@[simp] theorem isTruthy_relocate (v : Value) :
    (v.relocate node statement).isTruthy = v.isTruthy := by
  cases v <;> rfl

/-- A return wrapper stays one, and nothing becomes one. -/
@[simp] theorem isReturned_relocate (v : Value) :
    (v.relocate node statement).isReturned = v.isReturned := by
  cases v <;> rfl

/-- What can be a key is the same key. -/
@[simp] theorem key?_relocate (v : Value) : (v.relocate node statement).key? = v.key? := by
  cases v <;> rfl

/-- Identities are kept, so what is the same stays the same. -/
@[simp] theorem same_relocate (v u : Value) :
    (v.relocate node statement).same (u.relocate node statement) = v.same u := by
  cases v <;> cases u <;> rfl

mutual

/-- What people see of a value does not depend on where the bodies of functions came from. -/
theorem inspect_relocate (h : ∀ o, (node o).literal = o.literal) :
    (v : Value) → (v.relocate node statement).inspect = v.inspect
  | .int _ | .str _ | .bool _ | .null | .builtin _ | .error _ => rfl
  | .array _ items => by rw [Value.relocate, inspect, inspect, inspectItems_relocate h items]
  | .hash _ entries => by rw [Value.relocate, inspect, inspect, inspectEntries_relocate h entries]
  | .fn _ _ body _ => by rw [Value.relocate, inspect, inspect, body.render_relocate h]
  | .returned _ v => by rw [Value.relocate, inspect, inspect, v.inspect_relocate h]

/-- The same for the elements of an array. -/
theorem inspectItems_relocate (h : ∀ o, (node o).literal = o.literal) : (items : List Value) →
    inspectItems (relocateItems node statement items) = inspectItems items
  | [] => rfl
  | v :: rest => by
      rw [relocateItems, inspectItems, inspectItems, v.inspect_relocate h,
        inspectItems_relocate h rest]

/-- The same for the entries of a hash. -/
theorem inspectEntries_relocate (h : ∀ o, (node o).literal = o.literal) : (entries : Table Value) →
    inspectEntries (relocateEntries node statement entries) = inspectEntries entries
  | [] => rfl
  | (_, v) :: rest => by
      rw [relocateEntries, inspectEntries, inspectEntries, v.inspect_relocate h,
        inspectEntries_relocate h rest]

end

mutual

/-- The same of what a program shows of a value, and of whether it can be shown. -/
theorem shown_relocate (h : ∀ o, (node o).literal = o.literal) :
    (v : Value) → (v.relocate node statement).shown = v.shown
  | .int _ | .str _ | .bool _ | .null | .builtin _ | .error _ => rfl
  | .array _ items => by rw [Value.relocate, shown, shown, shownItems_relocate h items]
  | .hash _ entries => by rw [Value.relocate, shown, shown, shownEntries_relocate h entries]
  | .fn _ _ body _ => by
      rw [Value.relocate, shown, shown, Block.shown_eq, Block.shown_eq, body.isFreeOf_relocate,
        body.render_relocate h]
  | .returned _ v => by rw [Value.relocate, shown, shown, v.shown_relocate h]

/-- The same for the elements of an array. -/
theorem shownItems_relocate (h : ∀ o, (node o).literal = o.literal) : (items : List Value) →
    shownItems (relocateItems node statement items) = shownItems items
  | [] => rfl
  | v :: rest => by
      rw [relocateItems, shownItems, shownItems, v.shown_relocate h, shownItems_relocate h rest]

/-- The same for the entries of a hash. -/
theorem shownEntries_relocate (h : ∀ o, (node o).literal = o.literal) : (entries : Table Value) →
    shownEntries (relocateEntries node statement entries) = shownEntries entries
  | [] => rfl
  | (_, v) :: rest => by
      rw [relocateEntries, shownEntries, shownEntries, v.shown_relocate h,
        shownEntries_relocate h rest]

end

end Value

/-! ## Operators and tables -/

/-- A unary operator does not look into functions. -/
theorem UnaryOp.apply_relocate (op : UnaryOp) (v : Value) :
    op.apply (v.relocate node statement) = (op.apply v).map (Value.relocate node statement) := by
  cases op <;> cases v <;> rfl

/-- What two integers come to has no function in it. -/
theorem BinaryOp.map_onIntegers (op : BinaryOp) (l r : Int64) :
    (op.onIntegers l r).map (Value.relocate node statement) = op.onIntegers l r := by
  cases op with
  | div =>
      rw [BinaryOp.onIntegers]
      split <;> rfl
  | _ => rfl

/-- What a binary operator does to values that are neither two integers nor two strings depends on
their types and on whether they are the same. -/
theorem BinaryOp.apply_other (op : BinaryOp) {l r : Value}
    (hint : l.tag = .integer → r.tag ≠ .integer) (hstr : l.tag = .string → r.tag ≠ .string) :
    op.apply l r = match op with
      | .eq => .ok (.bool (l.same r))
      | .ne => .ok (.bool !(l.same r))
      | op =>
        if l.tag = r.tag then .error (.unknownBinary l.tag op.symbol r.tag)
        else .error (.typeMismatch l.tag op.symbol r.tag) := by
  unfold BinaryOp.apply
  split
  · exact absurd rfl (hint rfl)
  · exact absurd rfl (hstr rfl)
  · rfl

/-- A binary operator does not look into functions: it compares them by their identities. -/
theorem BinaryOp.apply_relocate (op : BinaryOp) (l r : Value) :
    op.apply (l.relocate node statement) (r.relocate node statement) =
      (op.apply l r).map (Value.relocate node statement) := by
  by_cases hint : l.tag = .integer ∧ r.tag = .integer
  · cases l <;> cases hint.1
    cases r <;> cases hint.2
    exact (map_onIntegers op _ _).symm
  by_cases hstr : l.tag = .string ∧ r.tag = .string
  · cases l <;> cases hstr.1
    cases r <;> cases hstr.2
    cases op <;> rfl
  rw [apply_other op (not_and.mp hint) (not_and.mp hstr),
    apply_other op (by simpa using hint) (by simpa using hstr)]
  simp only [Value.tag_relocate, Value.same_relocate]
  split
  · rfl
  · rfl
  · split <;> rfl

/-- An element is taken from the same place. -/
theorem itemAt_relocate (items : List Value) (place : Int64) :
    itemAt (relocateItems node statement items) place =
      (itemAt items place).relocate node statement := by
  rw [itemAt, itemAt, relocateItems_eq_map]
  split
  · rfl
  · rw [List.getElem?_map]
    cases items[place.toInt.toNat]? <;> rfl

namespace Table

/-- What is found in a table is found in the relocated one, relocated. -/
theorem find?_relocate (key : Key) (entries : Table Value) :
    find? key (relocateEntries node statement entries) =
      (find? key entries).map (Value.relocate node statement) := by
  induction entries with
  | nil => rfl
  | cons entry rest ih =>
      rw [relocateEntries, find?, find?, ih]
      split <;> rfl

/-- Inserting and relocating commute, since keys are left as they are. -/
theorem insert_relocate (key : Key) (v : Value) (entries : Table Value) :
    insert key (v.relocate node statement) (relocateEntries node statement entries) =
      relocateEntries node statement (insert key v entries) := by
  induction entries with
  | nil => rfl
  | cons entry rest ih =>
      rw [relocateEntries, insert, insert, ih]
      split <;> rfl

end Table

/-- To select from a value and to relocate commute. -/
theorem Value.select_relocate (left index : Value) :
    (left.relocate node statement).select (index.relocate node statement) =
      (left.select index).map (Value.relocate node statement) := by
  cases left with
  | array ref items =>
      cases index with
      | int place => exact congrArg Except.ok (itemAt_relocate items place)
      | _ => rfl
  | hash ref entries =>
      rw [Value.relocate, Value.select, Value.select, Value.key?_relocate, Value.tag_relocate]
      cases index.key? with
      | none => rfl
      | some key =>
          show Except.ok ((Table.find? key (relocateEntries node statement entries)).getD .null) =
            Except.ok (((Table.find? key entries).getD .null).relocate node statement)
          rw [Table.find?_relocate]
          cases Table.find? key entries <;> rfl
  | _ => rfl

/-! ## Scopes -/

/-- Rewrite the origins in what a name is bound to. -/
def relocateBinding (node statement : Origin → Origin) (b : Text × Value) : Text × Value :=
  (b.1, b.2.relocate node statement)

/-- Rewrite the origins in all that is bound in a scope. -/
def Scope.relocate (node statement : Origin → Origin) (s : Scope) : Scope :=
  { s with bindings := s.bindings.map (relocateBinding node statement) }

/-- Rewrite the origins in all that is bound in a heap. -/
def Heap.relocate (node statement : Origin → Origin) (h : Heap) : Heap :=
  ⟨h.scopes.map (Scope.relocate node statement)⟩

/-- What is bound to a name is relocated with the bindings. -/
theorem lookup_relocate (name : Text) (bs : List (Text × Value)) :
    (bs.map (relocateBinding node statement)).lookup name =
      (bs.lookup name).map (Value.relocate node statement) := by
  induction bs with
  | nil => rfl
  | cons b rest ih =>
      rw [List.map_cons, relocateBinding, List.lookup_cons, List.lookup_cons, ih]
      split <;> rfl

/-- Binding a name and relocating commute. -/
theorem bindName_relocate (name : Text) (v : Value) (bs : List (Text × Value)) :
    bindName name (v.relocate node statement) (bs.map (relocateBinding node statement)) =
      (bindName name v bs).map (relocateBinding node statement) := by
  induction bs with
  | nil => rfl
  | cons b rest ih =>
      rw [List.map_cons, bindName, bindName, ih]
      by_cases hname : b.1 = name
      · rw [if_pos hname]
        exact if_pos hname
      · rw [if_neg hname]
        exact if_neg hname

namespace Heap

/-- A heap whose functions keep their origins is the same heap. -/
theorem relocate_id (h : Heap) : h.relocate id id = h := by
  have hbinding : relocateBinding id id = id := funext fun b => by
    rw [relocateBinding, Value.relocate_id]
    rfl
  have hscope : Scope.relocate id id = id := funext fun s => by
    rw [Scope.relocate, hbinding, List.map_id]
    rfl
  rw [Heap.relocate, hscope, Array.map_id]

@[simp] theorem nextId_relocate (h : Heap) : (h.relocate node statement).nextId = h.nextId :=
  Array.size_map

/-- Scopes are relocated one by one, also those that were never made. -/
theorem scope_relocate (h : Heap) (id : ScopeId) :
    (h.relocate node statement).scope id = (h.scope id).relocate node statement := by
  rw [scope, scope, relocate, Array.getElem?_map]
  cases h.scopes[id]? <;> rfl

/-- The scopes around a scope are the same ones. -/
theorem chain_relocate (h : Heap) (id : ScopeId) :
    (h.relocate node statement).chain id = h.chain id := by
  rw [chain, chain, scope_relocate]
  rfl

/-- What is found from a scope is found in the relocated heap, relocated. -/
theorem get?_relocate (h : Heap) (id : ScopeId) (name : Text) :
    (h.relocate node statement).get? id name =
      (h.get? id name).map (Value.relocate node statement) := by
  rw [get?, get?, chain_relocate]
  induction h.chain id with
  | nil => rfl
  | cons i rest ih =>
      rw [List.findSome?_cons, List.findSome?_cons, ih, scope_relocate, Scope.relocate,
        lookup_relocate]
      cases (h.scope i).bindings.lookup name <;> rfl

/-- Binding a name in a scope and relocating commute. -/
theorem bind_relocate (h : Heap) (id : ScopeId) (name : Text) (v : Value) :
    (h.relocate node statement).bind id name (v.relocate node statement) =
      (h.bind id name v).relocate node statement := by
  rw [bind, bind, relocate, relocate]
  refine congrArg Heap.mk (Array.ext_getElem? fun i => ?_)
  rw [Array.getElem?_modify, Array.getElem?_map, Array.getElem?_map, Array.getElem?_modify]
  split
  · cases h.scopes[i]? with
    | none => rfl
    | some s =>
        refine congrArg some ?_
        show Scope.mk (bindName name _ (s.bindings.map _)) s.enclosing = _
        rw [bindName_relocate]
        rfl
  · rfl

/-- Making a scope and relocating commute. -/
theorem enclose_relocate (h : Heap) (outer : ScopeId) :
    (h.relocate node statement).enclose outer = (h.enclose outer).relocate node statement := by
  rw [enclose, enclose, chain_relocate, relocate, relocate, Array.map_push]
  rfl

end Heap

end Monkey
