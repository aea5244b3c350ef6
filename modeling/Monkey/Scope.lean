import Monkey.Value.Basic

/-!
# Scopes

A heap is a forest of scopes, numbered in the order in which they were made. A scope binds names and
knows the scopes around it, nearest first. Looking a name up goes outward along that chain and stops
at the first scope that binds it; binding a name only ever touches the scope it is done in.
-/

namespace Monkey

/-- A scope: the names bound in it, and the scopes around it, nearest first. -/
structure Scope where
  bindings : List (Text × Value) := []
  enclosing : List ScopeId := []
  deriving Inhabited

/-- Bind a name in a list of bindings: a name that is there keeps its place. -/
def bindName (name : Text) (value : Value) : List (Text × Value) → List (Text × Value)
  | [] => [(name, value)]
  | (n, v) :: rest =>
    if n = name then (name, value) :: rest else (n, v) :: bindName name value rest

/-- The scopes made so far. -/
structure Heap where
  scopes : Array Scope := #[]
  deriving Inhabited

namespace Heap

/-- The scope with a number; an empty one if there is none. -/
def scope (h : Heap) (id : ScopeId) : Scope :=
  h.scopes[id]?.getD {}

/-- Make a scope that nothing encloses; its number is the number of scopes so far. -/
def openTop (h : Heap) : Heap :=
  ⟨h.scopes.push {}⟩

/-- The number of the scope that is made next. -/
def nextId (h : Heap) : ScopeId :=
  h.scopes.size

/-- A scope and the scopes around it, nearest first. -/
def chain (h : Heap) (id : ScopeId) : List ScopeId :=
  id :: (h.scope id).enclosing

/-- Make a scope inside another. -/
def enclose (h : Heap) (outer : ScopeId) : Heap :=
  ⟨h.scopes.push { enclosing := h.chain outer }⟩

/-- The scope around a scope, if there is one. -/
def outer? (h : Heap) (id : ScopeId) : Option ScopeId :=
  (h.scope id).enclosing.head?

/-- Bind a name in a scope. -/
def bind (h : Heap) (id : ScopeId) (name : Text) (value : Value) : Heap :=
  ⟨h.scopes.modify id fun s => { s with bindings := bindName name value s.bindings }⟩

/-- The value that a name has in a scope: that of the nearest scope outward that binds it. -/
def get? (h : Heap) (id : ScopeId) (name : Text) : Option Value :=
  (h.chain id).findSome? fun i => (h.scope i).bindings.lookup name

/-- The names that can be seen from a scope, each once and in bytewise order. -/
def names (h : Heap) (id : ScopeId) : List Text :=
  Text.sortNames ((h.chain id).flatMap fun i => (h.scope i).bindings.map Prod.fst)

end Heap

end Monkey
