import Monkey.Eval.Operator

/-!
# Built-in functions

`len` counts the runes of a string or the elements of an array, `first` and `last` give an element,
`rest` gives the elements between the first and the last, `push` gives a longer array, and `puts`
prints each argument on a line. An array is never changed: `rest` and `push` make new ones.
-/

namespace Monkey.Builtin

open Interpret

variable {σ : Type} [Eventful σ]

/-- The elements of the one argument, which must be an array; if it is none, the fault. -/
def arrayOf (function : Builtin) (args : List Value) :
    Except Crash (Except Value (List Value)) := do
  if args.length ≠ 1 then return .error (.error (.wrongArity args.length 1))
  else
    match ← item args 0 with
    | .array _ items => return .ok items
    | v => return .error (.error (.notArray function v.tag))

/-- A new array. -/
def makeArray (items : List Value) : Interpret σ Value :=
  return .array (← fresh) items

/-- Print each value on a line. -/
def printLines : List Value → Interpret σ Unit
  | [] => return
  | v :: others => do
    let shown ← attempt v.shown
    perform (.printed (shown ++ text "\n"))
    printLines others

/-- Call a built-in function. -/
def invoke : Builtin → List Value → Interpret σ Value
  | .len, args => do
    if args.length ≠ 1 then return .error (.wrongArity args.length 1)
    else
      match ← attempt (item args 0) with
      | .str t => return .int (Int64.ofNat t.runeCount)
      | .array _ items => return .int (Int64.ofNat items.length)
      | v => return .error (.noLength v.tag)
  | .puts, args => do
    printLines args
    return .null
  | .first, args => do
    match ← attempt (arrayOf .first args) with
    | .error v => return v
    | .ok items => if 0 < items.length then attempt (item items 0) else return .null
  | .last, args => do
    match ← attempt (arrayOf .last args) with
    | .error v => return v
    | .ok items =>
      if 0 < items.length then attempt (item items (items.length - 1)) else return .null
  | .rest, args => do
    match ← attempt (arrayOf .rest args) with
    | .error v => return v
    | .ok items =>
      if items.length = 0 then return .null
      else
        let stop : Int := if (items.length : Int) - 1 < 1 then 1 else items.length - 1
        attempt (room (stop - 1))
        makeArray (← attempt (slice items 1 stop))
  | .push, args => do
    if args.length ≠ 2 then return .error (.wrongArity args.length 2)
    else
      match ← attempt (item args 0) with
      | .array _ items => makeArray (items ++ [← attempt (item args 1)])
      | v => return .error (.notArray .push v.tag)

end Monkey.Builtin
