import Monkey.Text.Basic

/-!
# Integers as people write them

A numeral may have a sign, a sign of its base (`0x`, `0o`, `0b`, or a plain `0` for octal), and
underscores between its digits. It is read into 64 bits with sign.
-/

namespace Monkey.Text

/-- Why a text is not an integer. -/
inductive NumeralProblem where
  | malformed
  | outOfRange
  deriving DecidableEq, Repr

/-- A byte in lower case, if it is an ASCII letter. -/
def lowerByte (b : UInt8) : UInt8 :=
  if 0x41 ≤ b ∧ b ≤ 0x5a then b + 0x20 else b

/-- The number of a digit, of whatever base. -/
def digit? (b : UInt8) : Option Nat :=
  let b := lowerByte b
  if isDigit b then some (b.toNat - 0x30)
  else if 0x61 ≤ b ∧ b ≤ 0x7a then some (b.toNat - 0x57)
  else none

/-- Read digits of a base, skipping underscores, from a number on. Below 2^64 is the range. -/
def readDigits (base : Nat) (n : Nat) : Text → Except NumeralProblem Nat
  | [] => .ok n
  | b :: rest =>
    if b = 0x5f then readDigits base n rest
    else match digit? b with
      | none => .error .malformed
      | some d =>
        if base ≤ d then .error .malformed
        else if 2 ^ 64 ≤ n * base + d then .error .outOfRange
        else readDigits base (n * base + d) rest

/-- The base of a numeral without a sign, the digits after the sign of the base, and whether such a
sign stands before them. -/
def splitBase : Text → Nat × Text × Bool
  | [] => (10, [], false)
  | 0x30 :: rest =>
    match rest with
    | b :: c :: more =>
      match lowerByte b with
      | 0x62 => (2, c :: more, true)
      | 0x6f => (8, c :: more, true)
      | 0x78 => (16, c :: more, true)
      | _ => (8, rest, true)
    | _ => (8, rest, true)
  | t => (10, t, false)

/-- Whether each underscore stands after a digit, or after the sign of the base, and before a
digit. -/
def underscoresFit (afterDigit : Bool) : Text → Bool
  | [] => true
  | [0x5f] => false
  | 0x5f :: rest => afterDigit && underscoresFit false rest
  | _ :: rest => underscoresFit true rest

/-- Read a numeral without a sign. -/
def readNatural (t : Text) : Except NumeralProblem Nat := do
  if t.isEmpty then throw .malformed
  let (base, digits, signed) := splitBase t
  let n ← readDigits base 0 digits
  if underscoresFit signed digits then return n else throw .malformed

/-- Read an integer of 64 bits with sign. -/
def readInteger (t : Text) : Except NumeralProblem Int := do
  let (negative, digits) := match t with
    | 0x2d :: rest => (true, rest)
    | 0x2b :: rest => (false, rest)
    | t => (false, t)
  let n ← readNatural digits
  if negative then
    if n ≤ 1 <<< 63 then return -n else throw .outOfRange
  else if n < 1 <<< 63 then return n else throw .outOfRange

end Monkey.Text
