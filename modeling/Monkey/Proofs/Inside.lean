import Monkey.Proofs.Trace

/-!
# Values inside values

Arrays, hashes and return wrappers hold other values. Something holds everywhere in a value if it
holds of the value and of all that is inside it, and everywhere in a heap if it does in every value
that is bound.

No operator, no selection and no built-in function makes a function, a fault or a return wrapper: if
something holds of all plain data, it holds everywhere in what they yield if it does in what they
work on. A case of it is to be without a type. Faults and return wrappers are meant to pass through
an evaluation and not to be kept in it, and what they pass through should be without them.
-/

namespace Monkey

/-- The types of what only passes through an evaluation. -/
def Tag.Passing (t : Tag) : Prop :=
  t = .error ∨ t = .returnValue

/-- One value is another, or holds it somewhere inside. -/
inductive Value.Holds : Value → Value → Prop
  | self (v : Value) : Holds v v
  | item {ref : Ref} {items : List Value} {v u : Value} :
      v ∈ items → Holds v u → Holds (.array ref items) u
  | entry {ref : Ref} {entries : Table Value} {k : Key} {v u : Value} :
      (k, v) ∈ entries → Holds v u → Holds (.hash ref entries) u
  | wrapped {ref : Ref} {v u : Value} : Holds v u → Holds (.returned ref v) u

/-- Something holds of a value and of all that is inside it. -/
def Value.Everywhere (p : Value → Prop) (v : Value) : Prop :=
  ∀ u, v.Holds u → p u

/-- Something holds everywhere in what is bound in a heap. -/
def Heap.Everywhere (p : Value → Prop) (h : Heap) : Prop :=
  ∀ s ∈ h.scopes, ∀ name v, (name, v) ∈ s.bindings → v.Everywhere p

/-- Neither a value nor anything inside it has a type. -/
def Value.Without (t : Tag) (v : Value) : Prop :=
  ∀ u, v.Holds u → u.tag ≠ t

/-- Nothing bound in a heap has a type, nor does anything inside it. -/
def Heap.Without (t : Tag) (h : Heap) : Prop :=
  ∀ s ∈ h.scopes, ∀ name v, (name, v) ∈ s.bindings → v.Without t

/-- Whether a value is plain data: no function, and nothing that only passes. -/
def Value.isData : Value → Bool
  | .int _ | .str _ | .bool _ | .null | .array _ _ | .hash _ _ | .builtin _ => true
  | .fn _ _ _ _ | .returned _ _ | .error _ => false

/-- Whether a value is plain data and holds no other value. -/
def Value.isAtom : Value → Bool
  | .int _ | .str _ | .bool _ | .null | .builtin _ => true
  | .array _ _ | .hash _ _ | .fn _ _ _ _ | .returned _ _ | .error _ => false

/-- Plain data has no type that only passes through. -/
theorem Tag.Passing.ne_of_isData {t : Tag} (ht : t.Passing) {v : Value} (hv : v.isData = true) :
    v.tag ≠ t := by
  cases v <;> cases hv <;> rcases ht with rfl | rfl <;> exact Tag.noConfusion

theorem Tag.Passing.ne_function {t : Tag} (ht : t.Passing) : Tag.function ≠ t := by
  rcases ht with rfl | rfl <;> exact Tag.noConfusion

theorem Value.Without.tag_ne {t : Tag} {v : Value} (h : v.Without t) : v.tag ≠ t :=
  h v (.self v)

/-- What a return wrapper is without is what it wraps, and wrappers. -/
theorem Value.Without.returned_iff {t : Tag} (ref : Ref) (v : Value) :
    (Value.returned ref v).Without t ↔ Tag.returnValue ≠ t ∧ v.Without t := by
  constructor
  · intro h
    exact ⟨h.tag_ne, fun u hu => h u (.wrapped hu)⟩
  · rintro ⟨hne, hv⟩ u hu
    cases hu with
    | self => exact hne
    | wrapped hu => exact hv u hu

namespace Value.Everywhere

variable {p : Value → Prop}

/-- A value holds itself. -/
theorem self {v : Value} (h : v.Everywhere p) : p v :=
  h v (.self v)

/-- What holds everywhere in an array holds everywhere in its elements. -/
theorem item {ref : Ref} {items : List Value} (h : (Value.array ref items).Everywhere p) :
    ∀ v ∈ items, v.Everywhere p :=
  fun _ hv u hu => h u (.item hv hu)

/-- What holds everywhere in a hash holds everywhere in its values. -/
theorem entry {ref : Ref} {entries : Table Value} (h : (Value.hash ref entries).Everywhere p)
    {k : Key} {v : Value} (hv : (k, v) ∈ entries) : v.Everywhere p :=
  fun u hu => h u (.entry hv hu)

/-- A function holds nothing but itself. -/
theorem fn {ref : Ref} {params : List (Option Text)} {body : Block} {scope : ScopeId}
    (h : p (.fn ref params body scope)) : (Value.fn ref params body scope).Everywhere p := by
  intro u hu
  cases hu
  exact h

variable (hp : ∀ v : Value, v.isData = true → p v)
include hp

/-- An atom holds nothing but itself. -/
theorem of_isAtom {v : Value} (hv : v.isAtom = true) : v.Everywhere p := by
  intro u hu
  cases v <;> cases hv <;> cases hu <;> exact hp _ rfl

/-- An array adds only itself to what its elements hold. -/
theorem array (ref : Ref) {items : List Value} (h : ∀ v ∈ items, v.Everywhere p) :
    (Value.array ref items).Everywhere p := by
  intro u hu
  cases hu with
  | self => exact hp _ rfl
  | item hv hu => exact h _ hv u hu

/-- A hash adds only itself to what its values hold. -/
theorem hash (ref : Ref) {entries : Table Value}
    (h : ∀ k v, (k, v) ∈ entries → v.Everywhere p) : (Value.hash ref entries).Everywhere p := by
  intro u hu
  cases hu with
  | self => exact hp _ rfl
  | entry hv hu => exact h _ _ hv u hu

/-- What is not there is null, which holds only itself. -/
theorem getD_null {v? : Option Value} (h : ∀ v, v? = some v → v.Everywhere p) :
    (v?.getD .null).Everywhere p := by
  cases v? with
  | none => exact of_isAtom hp rfl
  | some v => exact h v rfl

end Value.Everywhere

/-! ## Heaps -/

/-- Binding a name adds the binding and keeps others. -/
theorem mem_bindName {name : Text} {v : Value} {b : Text × Value} {bs : List (Text × Value)}
    (h : b ∈ bindName name v bs) : b = (name, v) ∨ b ∈ bs := by
  induction bs with
  | nil => exact .inl (List.mem_singleton.mp h)
  | cons first rest ih =>
      rw [bindName] at h
      split at h
      · rcases List.mem_cons.mp h with rfl | h
        · exact .inl rfl
        · exact .inr (List.mem_cons_of_mem _ h)
      · rcases List.mem_cons.mp h with rfl | h
        · exact .inr List.mem_cons_self
        · exact (ih h).imp_right (List.mem_cons_of_mem _)

namespace Heap.Everywhere

variable {p : Value → Prop} {h : Heap}

/-- What holds everywhere in a heap holds of what is bound in a scope, also in one that does not
exist. -/
theorem scope (hh : h.Everywhere p) (id : ScopeId) {name : Text} {v : Value}
    (hv : (name, v) ∈ (h.scope id).bindings) : v.Everywhere p := by
  unfold Heap.scope at hv
  cases hs : h.scopes[id]? with
  | none =>
      rw [hs] at hv
      exact absurd hv List.not_mem_nil
  | some s =>
      rw [hs] at hv
      exact hh s (Array.mem_of_getElem? hs) name v hv

/-- What holds everywhere in a heap holds of what is found in it. -/
theorem get? (hh : h.Everywhere p) {id : ScopeId} {name : Text} {v : Value}
    (hv : h.get? id name = some v) : v.Everywhere p := by
  obtain ⟨i, -, hi⟩ := List.exists_of_findSome?_eq_some hv
  obtain ⟨before, rest, hsplit, -⟩ := List.lookup_eq_some_iff.mp hi
  exact hh.scope i (hsplit ▸ List.mem_append_right before List.mem_cons_self)

/-- Binding a value of which it holds keeps it everywhere in a heap. -/
theorem bind (hh : h.Everywhere p) (id : ScopeId) (name : Text) {v : Value} (hv : v.Everywhere p) :
    (h.bind id name v).Everywhere p := by
  intro s hs n u hu
  obtain ⟨i, hi⟩ := Array.mem_iff_getElem?.mp hs
  unfold Heap.bind at hi
  rw [Array.getElem?_modify] at hi
  by_cases hid : id = i
  · rw [if_pos hid] at hi
    obtain ⟨s', hs', rfl⟩ := Option.map_eq_some_iff.mp hi
    rcases mem_bindName hu with heq | hu
    · cases heq
      exact hv
    · exact hh s' (Array.mem_of_getElem? hs') n u hu
  · rw [if_neg hid] at hi
    exact hh s (Array.mem_of_getElem? hi) n u hu

/-- A new scope has nothing in it of which it could not hold. -/
theorem enclose (hh : h.Everywhere p) (outer : ScopeId) : (h.enclose outer).Everywhere p := by
  intro s hs name v hv
  rcases Array.mem_push.mp hs with hs | rfl
  · exact hh s hs name v hv
  · exact absurd hv List.not_mem_nil

end Heap.Everywhere

/-- In a fresh world nothing is bound. -/
theorem World.everywhere_fresh (p : Value → Prop) : World.fresh.heap.Everywhere p := by
  intro s hs name v hv
  rcases Array.mem_push.mp hs with hs | rfl
  · exact absurd hs (Array.not_mem_empty s)
  · exact absurd hv List.not_mem_nil

theorem World.without_fresh (t : Tag) : World.fresh.heap.Without t :=
  World.everywhere_fresh fun v => v.tag ≠ t

/-! ## Operators, selection and tables -/

theorem Value.isError_of_isAtom {v : Value} (h : v.isAtom = true) : v.isError = false := by
  cases v <;> first | rfl | cases h

/-- Prefix operators yield values that hold no others. -/
theorem UnaryOp.isAtom_apply {op : UnaryOp} {v u : Value} (h : op.apply v = .ok u) :
    u.isAtom = true := by
  unfold UnaryOp.apply at h
  split at h <;> cases h <;> rfl

theorem BinaryOp.isAtom_onIntegers {op : BinaryOp} {l r : Int64} {u : Value}
    (h : op.onIntegers l r = .ok u) : u.isAtom = true := by
  cases op with
  | div =>
      rw [BinaryOp.onIntegers] at h
      split at h <;> cases h
      rfl
  | _ => cases h <;> rfl

/-- Operators between operands yield values that hold no others. -/
theorem BinaryOp.isAtom_apply {op : BinaryOp} {l r u : Value} (h : op.apply l r = .ok u) :
    u.isAtom = true := by
  unfold BinaryOp.apply at h
  split at h
  · exact isAtom_onIntegers h
  · split at h <;> cases h
    rfl
  · split at h
    · cases h
      rfl
    · cases h
      rfl
    · split at h <;> cases h

variable {p : Value → Prop}

/-- An element that is asked for is one of the array, or null. -/
theorem Value.Everywhere.itemAt (hp : ∀ v : Value, v.isData = true → p v) {items : List Value}
    (h : ∀ v ∈ items, v.Everywhere p) (place : Int64) : (itemAt items place).Everywhere p := by
  unfold Monkey.itemAt
  split
  · exact .of_isAtom hp rfl
  · exact .getD_null hp fun v hv => h v (List.mem_of_getElem? hv)

/-- A value that is found in a table is stored in it. -/
theorem mem_of_find? {k : Key} {v : Value} {entries : Table Value}
    (h : Table.find? k entries = some v) : ∃ k', (k', v) ∈ entries := by
  induction entries with
  | nil => cases h
  | cons first rest ih =>
      rw [Table.find?] at h
      split at h
      · cases h
        exact ⟨first.1, List.mem_cons_self⟩
      · obtain ⟨k', hk'⟩ := ih h
        exact ⟨k', List.mem_cons_of_mem _ hk'⟩

/-- A table after a pair is stored has that pair and old ones. -/
theorem mem_insert {k : Key} {v : Value} {b : Key × Value} {entries : Table Value}
    (h : b ∈ entries.insert k v) : b = (k, v) ∨ b ∈ entries := by
  induction entries with
  | nil => exact .inl (List.mem_singleton.mp h)
  | cons first rest ih =>
      rw [Table.insert] at h
      split at h
      · rcases List.mem_cons.mp h with rfl | h
        · exact .inl rfl
        · exact .inr (List.mem_cons_of_mem _ h)
      · rcases List.mem_cons.mp h with rfl | h
        · exact .inr List.mem_cons_self
        · exact (ih h).imp_right (List.mem_cons_of_mem _)

/-- What is selected was inside what it is selected from, or is null. -/
theorem Value.Everywhere.select (hp : ∀ v : Value, v.isData = true → p v) {left index u : Value}
    (hleft : left.Everywhere p) (h : left.select index = .ok u) : u.Everywhere p := by
  cases left with
  | array ref items =>
      cases index with
      | int place =>
          cases h
          exact .itemAt hp hleft.item place
      | _ => cases h
  | hash ref entries =>
      simp only [Value.select] at h
      split at h <;> cases h
      refine .getD_null hp fun v hv => ?_
      obtain ⟨k, hk⟩ := mem_of_find? hv
      exact hleft.entry hk
  | _ => cases h

end Monkey
