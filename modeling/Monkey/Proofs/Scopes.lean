import Monkey.Proofs.OwnScope

/-!
# Forests of scopes

A forest of scopes grows: a scope is made on its own or inside one that there is, and names are
bound in any of them at any time. A `Forest` is the record of how it came to be. From that record
alone one can say which scope is around a scope (`Forest.outer?`) and what was last bound to a name
in a scope (`Forest.last?`).

A heap stores with every scope all scopes around it. These are the ones that one meets going outward
link by link (`Forest.enclosing_heap`), so a lookup goes one link at a time (`Forest.get?_heap`),
and what it finds is what was last bound in the nearest scope that binds the name. The listing of
names goes through the same scopes on its own, and has a name just if the lookup finds it
(`Heap.mem_names_iff`).
-/

namespace Monkey

/-! ## Sorted names -/

namespace Text

theorem mem_insertName {name n : Text} {ns : List Text} :
    n ∈ insertName name ns ↔ n = name ∨ n ∈ ns := by
  induction ns with
  | nil => exact List.mem_cons
  | cons first rest ih =>
      rw [insertName]
      split
      · exact List.mem_cons
      · split
        · next heq =>
            rw [heq, List.mem_cons, or_iff_right_of_imp Or.inl]
        · rw [List.mem_cons, ih, List.mem_cons, or_left_comm]

theorem pairwise_insertName (name : Text) {ns : List Text} (h : ns.Pairwise (· < ·)) :
    (insertName name ns).Pairwise (· < ·) := by
  induction ns with
  | nil => exact List.pairwise_singleton _ name
  | cons first rest ih =>
      obtain ⟨hfirst, hrest⟩ := List.pairwise_cons.mp h
      rw [insertName]
      split
      · next hlt =>
          refine List.pairwise_cons.mpr ⟨fun n hn => ?_, h⟩
          rcases List.mem_cons.mp hn with rfl | hn
          · exact hlt
          · exact List.lt_trans hlt (hfirst n hn)
      · split
        · exact h
        · next hge hne =>
            refine List.pairwise_cons.mpr ⟨fun n hn => ?_, ih hrest⟩
            rcases mem_insertName.mp hn with rfl | hn
            · have hle : first ≤ n := List.not_lt.mp hge
              exact (List.le_iff_lt_or_eq.mp hle).resolve_right (Ne.symm hne)
            · exact hfirst n hn

/-- Sorting names leaves none out and adds none. -/
theorem mem_sortNames {n : Text} {names : List Text} : n ∈ sortNames names ↔ n ∈ names := by
  induction names with
  | nil => rfl
  | cons first rest ih =>
      show n ∈ insertName first (sortNames rest) ↔ _
      rw [mem_insertName, ih, List.mem_cons]

/-- Sorted names are strictly increasing, so none is there twice. -/
theorem pairwise_sortNames (names : List Text) : (sortNames names).Pairwise (· < ·) := by
  induction names with
  | nil => exact .nil
  | cons first rest ih => exact pairwise_insertName first ih

end Text

/-! ## Heaps -/

namespace Heap

theorem scope_of_le {h : Heap} {i : ScopeId} (hi : h.nextId ≤ i) : h.scope i = {} := by
  rw [scope, Array.getElem?_eq_none hi]
  rfl

/-- A scope that nothing encloses is empty at first, as one that is not there. -/
theorem scope_openTop (h : Heap) (i : ScopeId) : h.openTop.scope i = h.scope i := by
  show ((h.scopes.push {})[i]?).getD {} = _
  rw [Array.getElem?_push]
  split
  · next heq => exact (scope_of_le (Nat.le_of_eq heq.symm)).symm
  · rfl

theorem scope_enclose_self (h : Heap) (outer : ScopeId) :
    (h.enclose outer).scope h.nextId = { enclosing := h.chain outer } := by
  show ((h.scopes.push _)[h.scopes.size]?).getD {} = _
  rw [Array.getElem?_push_size]
  rfl

theorem enclosing_bind (h : Heap) (id : ScopeId) (name : Text) (v : Value) (i : ScopeId) :
    ((h.bind id name v).scope i).enclosing = (h.scope i).enclosing := by
  by_cases hi : i < h.nextId
  · exact (Grows.bind h id name v).enclosing_eq i hi
  · have hi := Nat.not_lt.mp hi
    rw [scope_of_le hi, scope_of_le ((nextId_bind h id name v).symm ▸ hi)]

theorem chain_bind (h : Heap) (id : ScopeId) (name : Text) (v : Value) :
    (h.bind id name v).chain = h.chain := by
  funext i
  rw [chain, enclosing_bind, chain]

/-- Binding a name changes what one scope binds, and of that only the name. -/
theorem lookup_bind (h : Heap) {id : ScopeId} (hid : id < h.nextId) (name : Text) (v : Value)
    (i : ScopeId) (x : Text) : ((h.bind id name v).scope i).bindings.lookup x =
      if i = id ∧ x = name then some v else (h.scope i).bindings.lookup x := by
  by_cases hi : i = id
  · rw [hi, scope_bind_self hid]
    by_cases hx : x = name
    · rw [if_pos ⟨rfl, hx⟩, hx]
      exact lookup_bindName_self name v _
    · rw [if_neg fun h => hx h.2]
      exact lookup_bindName_of_ne hx v _
  · rw [if_neg fun h => hi h.1, scope_bind_of_ne hi]

/-- A name is listed just if it is found. -/
theorem mem_names_iff (h : Heap) (id : ScopeId) (name : Text) :
    name ∈ h.names id ↔ (h.get? id name).isSome = true := by
  rw [names, Text.mem_sortNames, get?, List.findSome?_isSome_iff, List.mem_flatMap]
  refine exists_congr fun i => and_congr_right fun _ => ?_
  rw [List.lookup_isSome_iff, List.mem_map]
  refine exists_congr fun b => and_congr_right fun _ => ?_
  rw [beq_iff_eq, eq_comm]

end Heap

/-! ## Forests -/

/-- A forest of `n` scopes, by what was done to make it, the last thing first: a scope was made that
nothing encloses, or one inside a scope that there was, or a name was bound in a scope. -/
inductive Forest : Nat → Type
  | empty : Forest 0
  | openTop {n : Nat} (t : Forest n) : Forest (n + 1)
  | enclose {n : Nat} (t : Forest n) (outer : Fin n) : Forest (n + 1)
  | bind {n : Nat} (t : Forest n) (scope : Fin n) (name : Text) (value : Value) : Forest n

namespace Forest

variable {n : Nat}

/-- The heap that is made so. -/
def heap {n : Nat} : Forest n → Heap
  | .empty => {}
  | .openTop t => t.heap.openTop
  | .enclose t outer => t.heap.enclose outer
  | .bind t scope name value => t.heap.bind scope name value

/-- The scope inside which a scope was made, if there is one. -/
def outer? {n : Nat} : Forest n → ScopeId → Option ScopeId
  | .empty, _ => none
  | .openTop t, i => t.outer? i
  | @enclose n t outer, i => if i = n then some outer else t.outer? i
  | .bind t _ _ _, i => t.outer? i

/-- What was last bound to a name in a scope, if anything was. -/
def last? {n : Nat} : Forest n → ScopeId → Text → Option Value
  | .empty, _, _ => none
  | .openTop t, i, x => t.last? i x
  | .enclose t _, i, x => t.last? i x
  | .bind t scope name value, i, x => if i = scope ∧ x = name then some value else t.last? i x

/-- Going outward from a scope, one comes to another through scopes that do not bind a name. -/
inductive Reaches (t : Forest n) (x : Text) : ScopeId → ScopeId → Prop
  | here (i : ScopeId) : Reaches t x i i
  | outward {i o d : ScopeId} : t.last? i x = none → t.outer? i = some o → Reaches t x o d →
      Reaches t x i d

theorem nextId_heap (t : Forest n) : t.heap.nextId = n := by
  induction t with
  | empty => rfl
  | openTop t ih =>
      show (t.heap.scopes.push {}).size = _
      rw [Array.size_push]
      exact congrArg (· + 1) ih
  | enclose t outer ih =>
      show (t.heap.enclose outer).nextId = _
      rw [Heap.nextId_enclose, ih]
  | bind t scope name value ih =>
      show (t.heap.bind scope name value).nextId = _
      rw [Heap.nextId_bind, ih]

/-- A scope is made inside an older one. -/
theorem outer?_lt (t : Forest n) {i o : ScopeId} (h : t.outer? i = some o) : o < i ∧ i < n := by
  induction t with
  | empty => cases h
  | openTop t ih => exact (ih h).imp_right Nat.lt_succ_of_lt
  | @enclose n t outer ih =>
      rw [outer?] at h
      split at h
      · next heq =>
          cases h
          rw [heq]
          exact ⟨outer.isLt, Nat.lt_succ_self n⟩
      · exact (ih h).imp_right Nat.lt_succ_of_lt
  | bind t scope name value ih => exact ih h

/-- A scope of the heap binds what was last bound in it. -/
theorem lookup_heap (t : Forest n) (i : ScopeId) (x : Text) :
    (t.heap.scope i).bindings.lookup x = t.last? i x := by
  induction t with
  | empty => rfl
  | openTop t ih =>
      show (t.heap.openTop.scope i).bindings.lookup x = t.last? i x
      rw [Heap.scope_openTop, ih]
  | enclose t outer ih =>
      show ((t.heap.enclose outer).scope i).bindings.lookup x = t.last? i x
      by_cases hi : i = t.heap.nextId
      · rw [← ih, hi, Heap.scope_enclose_self, Heap.scope_of_le (Nat.le_refl _)]
      · rw [Heap.scope_enclose_of_ne hi, ih]
  | bind t scope name value ih =>
      have hscope : scope.val < t.heap.nextId := t.nextId_heap.symm ▸ scope.isLt
      show ((t.heap.bind scope name value).scope i).bindings.lookup x = _
      rw [Heap.lookup_bind t.heap hscope, last?, ih]

/-- The scopes that the heap stores as being around a scope are the scope inside which it was made
and those around that. -/
theorem enclosing_heap (t : Forest n) (i : ScopeId) :
    (t.heap.scope i).enclosing = ((t.outer? i).map t.heap.chain).getD [] := by
  induction t with
  | empty => rfl
  | openTop t ih =>
      have hchain : t.heap.openTop.chain = t.heap.chain := by
        funext j
        rw [Heap.chain, Heap.scope_openTop, Heap.chain]
      show (t.heap.openTop.scope i).enclosing = ((t.outer? i).map t.heap.openTop.chain).getD []
      rw [Heap.scope_openTop, ih, hchain]
  | @enclose n t outer ih =>
      have hchain (j : ScopeId) (hj : j < n) : (t.heap.enclose outer).chain j = t.heap.chain j := by
        have hne : j ≠ t.heap.nextId := t.nextId_heap.symm ▸ Nat.ne_of_lt hj
        rw [Heap.chain, Heap.scope_enclose_of_ne hne, Heap.chain]
      show ((t.heap.enclose outer).scope i).enclosing =
        (((if i = n then some outer.val else t.outer? i)).map (t.heap.enclose outer).chain).getD []
      -- the new scope copies the chain of the one around it; the chains of others are older
      by_cases hi : i = n
      · have hnew : i = t.heap.nextId := hi.trans t.nextId_heap.symm
        rw [if_pos hi, hnew, Heap.scope_enclose_self]
        exact (hchain outer outer.isLt).symm
      · have hne : i ≠ t.heap.nextId := t.nextId_heap.symm ▸ hi
        rw [if_neg hi, Heap.scope_enclose_of_ne hne, ih]
        cases houter : t.outer? i with
        | none => rfl
        | some o =>
            have ho := t.outer?_lt houter
            exact (hchain o (Nat.lt_trans ho.1 ho.2)).symm
  | bind t scope name value ih =>
      show ((t.heap.bind scope name value).scope i).enclosing =
        ((t.outer? i).map (t.heap.bind scope name value).chain).getD []
      rw [Heap.enclosing_bind, ih, Heap.chain_bind]

/-- A lookup takes what was last bound in the scope itself, or else goes one scope outward. -/
theorem get?_heap (t : Forest n) (i : ScopeId) (x : Text) :
    t.heap.get? i x = (t.last? i x).or ((t.outer? i).bind fun o => t.heap.get? o x) := by
  rw [Heap.get?, Heap.chain, List.findSome?_cons, lookup_heap, enclosing_heap]
  cases t.last? i x with
  | some v => rfl
  | none => cases t.outer? i <;> rfl

/-- What is found is what was last bound in the nearest scope outward that binds the name. -/
theorem get?_heap_eq_some_iff (t : Forest n) (i : ScopeId) (x : Text) (v : Value) :
    t.heap.get? i x = some v ↔ ∃ d, t.Reaches x i d ∧ t.last? d x = some v := by
  constructor
  · -- a scope is made inside an older one, so going outward ends
    induction i using Nat.strongRecOn with
    | ind i ih =>
        intro h
        rw [get?_heap] at h
        cases hlast : t.last? i x with
        | some u =>
            rw [hlast] at h
            exact ⟨i, .here i, hlast.trans h⟩
        | none =>
            rw [hlast, Option.none_or] at h
            obtain ⟨o, ho, hget⟩ := Option.bind_eq_some_iff.mp h
            obtain ⟨d, hd, hv⟩ := ih o (t.outer?_lt ho).1 hget
            exact ⟨d, .outward hlast ho hd, hv⟩
  · rintro ⟨d, hd, hv⟩
    induction hd with
    | here i => rw [get?_heap, hv, Option.some_or]
    | outward hlast ho _ ih =>
        rw [get?_heap, hlast, ho]
        exact ih hv

/-! ## Binding -/

variable {t : Forest n} {scope : Fin n} {x y : Text} {i : ScopeId}

/-- A name that is bound is found from every scope from which one comes to the scope of the
binding. -/
theorem get?_bind_of_reaches (h : t.Reaches x i scope) (v : Value) :
    (t.bind scope x v).heap.get? i x = some v := by
  generalize hscope : scope.val = d at h
  induction h with
  | here i => rw [get?_heap, last?, if_pos ⟨hscope.symm, rfl⟩, Option.some_or]
  | @outward i o d hlast ho _ ih =>
      rw [get?_heap, last?]
      by_cases hi : i = scope
      · rw [if_pos ⟨hi, rfl⟩, Option.some_or]
      · rw [if_neg fun h => hi h.1, hlast, Option.none_or]
        show (t.outer? i).bind _ = _
        rw [ho]
        exact ih hscope

/-- All other lookups find what they found before. -/
theorem get?_bind_of_not_reaches (h : ¬ (y = x ∧ t.Reaches x i scope)) (v : Value) :
    (t.bind scope x v).heap.get? i y = t.heap.get? i y := by
  induction i using Nat.strongRecOn with
  | ind i ih =>
      have hother : ¬ (i = scope ∧ y = x) := fun hi => h ⟨hi.2, hi.1 ▸ .here i⟩
      rw [get?_heap, get?_heap, last?, if_neg hother]
      cases hlast : t.last? i y with
      | some u => rw [Option.some_or, Option.some_or]
      | none =>
          rw [Option.none_or, Option.none_or]
          show (t.outer? i).bind _ = _
          cases ho : t.outer? i with
          | none => rw [Option.bind_none, Option.bind_none]
          | some o =>
              refine ih o (t.outer?_lt ho).1 fun hreaches => h ⟨hreaches.1, ?_⟩
              exact .outward (hreaches.1 ▸ hlast) ho hreaches.2

end Forest

/-- **Lookup, listing and binding agree in every forest of scopes.** Whatever scopes were made and
whatever was bound in them, and from every scope: a lookup finds what was last bound to the name in
the nearest scope outward that binds it; the names are listed in strictly increasing order, and a
name is among them just if the lookup finds it. If a name is then bound in a scope, a lookup changes
only if it is one of that name from a scope from which one comes to the scope of the binding going
outward, with no scope nearer that binds the name; and that lookup finds the new value. -/
theorem lookup_listing_binding_agree {n : Nat} (t : Forest n) :
    (∀ i x v, t.heap.get? i x = some v ↔ ∃ d, t.Reaches x i d ∧ t.last? d x = some v) ∧
    (∀ i, (t.heap.names i).Pairwise (· < ·) ∧
      ∀ x, x ∈ t.heap.names i ↔ (t.heap.get? i x).isSome = true) ∧
    ∀ (scope : Fin n) x v i y,
      ((t.bind scope x v).heap.get? i y ≠ t.heap.get? i y → y = x ∧ t.Reaches x i scope) ∧
      (t.Reaches x i scope → (t.bind scope x v).heap.get? i x = some v) := by
  refine ⟨t.get?_heap_eq_some_iff, fun i => ⟨?_, t.heap.mem_names_iff i⟩,
    fun scope x v i y => ⟨?_, ?_⟩⟩
  · exact Text.pairwise_sortNames _
  · intro hchanged
    by_cases h : y = x ∧ t.Reaches x i scope
    · exact h
    · exact absurd (Forest.get?_bind_of_not_reaches h v) hchanged
  · exact fun h => Forest.get?_bind_of_reaches h v

-- an inner scope hides one name of the outer scope, adds another and sees the third
example :
    let outer := (Forest.empty.openTop.bind 0 (text "a") (.int 1)).bind 0 (text "b") (.int 2)
    let inner := ((outer.enclose 0).bind 1 (text "b") (.int 20)).bind 1 (text "c") (.int 30)
    inner.heap.get? 1 (text "a") = some (.int 1) ∧ inner.heap.get? 1 (text "b") = some (.int 20) ∧
    inner.heap.get? 0 (text "b") = some (.int 2) ∧
    inner.heap.names 1 = [text "a", text "b", text "c"] := by
  refine ⟨rfl, rfl, rfl, ?_⟩
  decide

end Monkey
