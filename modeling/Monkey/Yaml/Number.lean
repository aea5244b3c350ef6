import Monkey.Text.Integer

/-!
# Numbers and times in YAML

How numbers and points in time are written: integers in several bases, fractions with an exponent,
dates, and dates with a time of day.
-/

namespace Monkey.Yaml

/-! ## Fractions -/

/-- A fraction as it is written: its digits, how many of them stand behind the point, and an
exponent. -/
structure Fraction where
  negative : Bool
  digits : Text
  places : Nat
  exponent : Int

/-- A sign before digits: whether it is a minus, and what follows it. -/
def splitSign : Text → Bool × Text
  | 0x2d :: rest => (true, rest)
  | 0x2b :: rest => (false, rest)
  | t => (false, t)

namespace Fraction

/-- The exponent at the end of a fraction. -/
def exponent? : Text → Option Int
  | [] => some 0
  | e :: rest =>
    let (negative, digits) := splitSign rest
    if (e ≠ 0x65 ∧ e ≠ 0x45) ∨ digits.isEmpty ∨ !digits.all Text.isDigit then none
    else if negative then some (-Text.decimal digits) else some (Text.decimal digits)

/-- Read a fraction. Its digits have a point before, among or behind them, or none. -/
def ofText? (t : Text) : Option Fraction := do
  let (negative, t) := splitSign t
  let whole := t.takeWhile Text.isDigit
  let (part, rest) := match t.dropWhile Text.isDigit with
    | 0x2e :: rest => (rest.takeWhile Text.isDigit, rest.dropWhile Text.isDigit)
    | rest => ([], rest)
  if whole.isEmpty && part.isEmpty then none
  else return ⟨negative, whole ++ part, part.length, ← exponent? rest⟩

/-- The nearest double. Four hundred places beyond the digits all are zero or infinite. -/
def nearest (f : Fraction) : Float :=
  let mantissa := Text.decimal f.digits
  let exponent := f.exponent - f.places
  let size :=
    if mantissa = 0 then 0
    else if 400 + f.digits.length < exponent.natAbs then
      (if exponent < 0 then 0 else Float.ofScientific 1 false 400)
    else Float.ofScientific mantissa (exponent < 0) exponent.natAbs
  if f.negative then -size else size

end Fraction

/-- Whether every underscore in a text stands between two digits. -/
def underscoresBetweenDigits (afterDigit : Bool) : Text → Bool
  | [] => true
  | b :: rest =>
    if b = 0x5f then
      afterDigit && rest.head?.any Text.isDigit && underscoresBetweenDigits false rest
    else underscoresBetweenDigits (Text.isDigit b) rest

/-! ## Integers -/

/-- Digits of a base behind a sign. -/
def readSigned? (base : Nat) (t : Text) : Option Int :=
  let (negative, digits) := splitSign t
  if digits.isEmpty then none
  else match Text.readDigits base 0 digits with
    | .error _ => none
    | .ok n =>
      if negative then (if n ≤ 1 <<< 63 then some (-n) else none)
      else if n < 1 <<< 63 then some n else none

/-- An integer, in 64 bits with sign or without: a sign before the sign of its base. -/
def integer? (t : Text) : Option Int :=
  match Text.readInteger t with
  | .ok n => some n
  | .error _ =>
    match Text.readNatural t with
    | .ok n => some n
    | .error _ => none

/-- An integer with its sign behind the sign of its base, which is two or eight. -/
def lateSigned? : Text → Option Int
  | 0x30 :: 0x62 :: rest => readSigned? 2 rest
  | 0x30 :: 0x6f :: rest => readSigned? 8 rest
  | _ => none

/-! ## Points in time -/

/-- The number in one or two digits, and what follows. -/
def shortNumber? : Text → Option (Nat × Text)
  | a :: b :: rest =>
    if !Text.isDigit a then none
    else if Text.isDigit b then some (Text.decimal [a, b], rest)
    else some (Text.decimal [a], b :: rest)
  | [a] => if Text.isDigit a then some (Text.decimal [a], []) else none
  | [] => none

/-- What follows a byte. -/
def behind? (b : UInt8) : Text → Option Text
  | c :: rest => if c = b then some rest else none
  | [] => none

/-- The number of days in a month. -/
def daysIn (year month : Nat) : Nat :=
  match month with
  | 2 => if year % 4 = 0 ∧ (year % 100 ≠ 0 ∨ year % 400 = 0) then 29 else 28
  | 4 | 6 | 9 | 11 => 30
  | _ => 31

/-- What follows a date: a year of four digits, a month and a day that there is in it. -/
def behindDate? (t : Text) : Option Text := do
  let year := t.takeWhile Text.isDigit
  if year.length ≠ 4 then none
  let (month, rest) ← shortNumber? (← behind? 0x2d (t.drop 4))
  let (day, rest) ← shortNumber? (← behind? 0x2d rest)
  if 1 ≤ month ∧ month ≤ 12 ∧ 1 ≤ day ∧ day ≤ daysIn (Text.decimal year) month then some rest
  else none

/-- What follows a time of day. The seconds may have a fraction behind a point or a comma. -/
def behindTime? (t : Text) : Option Text := do
  let (hour, rest) ← shortNumber? t
  let (minute, rest) ← shortNumber? (← behind? 0x3a rest)
  let (second, rest) ← shortNumber? (← behind? 0x3a rest)
  if 24 ≤ hour ∨ 60 ≤ minute ∨ 60 ≤ second then none
  match rest with
  | point :: digit :: _ =>
    if (point = 0x2e ∨ point = 0x2c) ∧ Text.isDigit digit then
      some (rest.tail.dropWhile Text.isDigit)
    else some rest
  | _ => some rest

/-- Whether a text is a time zone: the letter Z, or an offset in hours and minutes. -/
def isZone : Text → Bool
  | [0x5a] => true
  | [sign, h, h', colon, m, m'] =>
    (sign = 0x2b || sign = 0x2d) && colon = 0x3a && [h, h', m, m'].all Text.isDigit
      && Text.decimal [h, h'] ≤ 24 && Text.decimal [m, m'] ≤ 60
  | _ => false

/-- Whether a text is a date, a date with a time of day, or a date with a time of day and a zone. -/
def isTimestamp (t : Text) : Bool :=
  match behindDate? t with
  | none => false
  | some [] => true
  | some (b :: rest) =>
    if b = 0x20 then behindTime? (rest.dropWhile (· = 0x20)) = some []
    else (b = 0x54 || b = 0x74) && (behindTime? rest).any isZone

end Monkey.Yaml
