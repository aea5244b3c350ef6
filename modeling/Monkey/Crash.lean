import Monkey.Text.Basic

/-!
# Operations that can crash

To take an element that a list does not have, to divide by zero, to look into what is absent or to
meet a node that the language does not have is a crash: it ends everything, and there is no result.
The operations here crash where nothing stands before them to prevent it.
-/

namespace Monkey

/-- Why a computation crashes. -/
inductive Crash where
  | unhandledNode
  | outOfRange
  | divisionByZero
  | absent
  deriving DecidableEq, Repr, Inhabited

variable {α : Type}

/-- The element of a list at a place. -/
def item (items : List α) (place : Int) : Except Crash α :=
  if place < 0 then .error .outOfRange
  else
    match items[place.toNat]? with
    | some a => .ok a
    | none => .error .outOfRange

/-- The elements of a list from one place up to another. -/
def slice (items : List α) (start stop : Int) : Except Crash (List α) :=
  if 0 ≤ start ∧ start ≤ stop ∧ stop ≤ items.length then
    .ok ((items.take stop.toNat).drop start.toNat)
  else .error .outOfRange

/-- Room for a number of elements. -/
def room (count : Int) : Except Crash Unit :=
  if count < 0 then .error .outOfRange else .ok ()

/-- The quotient of two integers. -/
def quotient (l r : Int64) : Except Crash Int64 :=
  if r = 0 then .error .divisionByZero else .ok (l / r)

/-- What is there. -/
def present : Option α → Except Crash α
  | some a => .ok a
  | none => .error .absent

end Monkey
