import Monkey.Eval.World

/-!
# Operators

Integer operators compute modulo 2^64, and division goes toward zero. Strings can only be joined.
Other values can only be compared for being the same.

`UnaryOp.apply`, `BinaryOp.apply` and `Value.select` say what there is to compute. Evaluations
compute it by operations that can crash, with a check before each (`BinaryOp.compute`,
`Value.pick`).
-/

namespace Monkey

/-- A unary operator on a value. -/
def UnaryOp.apply (op : UnaryOp) (v : Value) : Except Fault Value :=
  match op, v with
  | .not, v => .ok (.bool !v.isTruthy)
  | .neg, .int n => .ok (.int (-n))
  | op, v => .error (.unknownUnary op.symbol v.tag)

namespace BinaryOp

/-- A binary operator on two integers. -/
def onIntegers (op : BinaryOp) (l r : Int64) : Except Fault Value :=
  match op with
  | .add => .ok (.int (l + r))
  | .sub => .ok (.int (l - r))
  | .mul => .ok (.int (l * r))
  | .div => if r = 0 then .error .divisionByZero else .ok (.int (l / r))
  | .lt => .ok (.bool (l < r))
  | .gt => .ok (.bool (r < l))
  | .eq => .ok (.bool (l = r))
  | .ne => .ok (.bool (l ≠ r))
  | .other symbol => .error (.unknownBinary .integer symbol .integer)

/-- A binary operator on two values. -/
def apply (op : BinaryOp) (left right : Value) : Except Fault Value :=
  match left, right with
  | .int l, .int r => op.onIntegers l r
  | .str l, .str r =>
    match op with
    | .add => .ok (.str (l ++ r))
    | op => .error (.unknownBinary .string op.symbol .string)
  | left, right =>
    match op with
    | .eq => .ok (.bool (left.same right))
    | .ne => .ok (.bool !(left.same right))
    | op =>
      if left.tag = right.tag then .error (.unknownBinary left.tag op.symbol right.tag)
      else .error (.typeMismatch left.tag op.symbol right.tag)

end BinaryOp

/-- The element of a list at an integer place: null if there is none. -/
def itemAt (items : List Value) (place : Int64) : Value :=
  if place < 0 then .null else items[place.toInt.toNat]?.getD .null

/-- An array at a place or a hash at a key. What is not there is null. -/
def Value.select (left index : Value) : Except Fault Value :=
  match left with
  | .array _ items =>
    match index with
    | .int place => .ok (itemAt items place)
    | _ => .error (.notIndexable left.tag)
  | .hash _ entries =>
    match index.key? with
    | some key => .ok ((Table.find? key entries).getD .null)
    | none => .error (.unusableKey index.tag)
  | _ => .error (.notIndexable left.tag)

/-! ## Computing -/

/-- What a computation on values gives, with a fault as a value. -/
def Value.ofExcept : Except Fault Value → Value
  | .ok v => v
  | .error f => .error f

/-- Compute a binary operator on two values. -/
def BinaryOp.compute (op : BinaryOp) (left right : Value) : Except Crash Value :=
  match op, left, right with
  | .div, .int l, .int r =>
    if r = 0 then return .error .divisionByZero else return .int (← quotient l r)
  | op, left, right => return .ofExcept (op.apply left right)

/-- Take from an array what is at a place, or from a hash what is at a key. -/
def Value.pick (left index : Value) : Except Crash Value :=
  match left, index with
  | .array _ items, .int place =>
    if place < 0 ∨ (items.length : Int) ≤ place.toInt then return .null
    else item items place.toInt
  | .hash _ entries, index =>
    match index.key? with
    | some key =>
      if (Table.find? key entries).isSome then present (Table.find? key entries)
      else return .null
    | none => return .error (.unusableKey index.tag)
  | left, _ => return .error (.notIndexable left.tag)

end Monkey
