import Monkey.Yaml.Basic
import Monkey.Yaml.Number

/-!
# What YAML scalars mean

A plain scalar means what it looks like: null, a boolean, an integer, a fraction, a point in time,
or else a text. A scalar that is not plain is a text. A tag says what a scalar has to mean.
-/

namespace Monkey.Yaml

/-- What a scalar means. A fraction is kept as the integer it is cut to, if that is in range. -/
inductive Meaning where
  | null
  | bool
  | int (n : Int)
  | float (cut : Option Int)
  | timestamp
  | str
  deriving DecidableEq, Repr

namespace Meaning

/-- The tag of a meaning. -/
def tag : Meaning → Text
  | .null => text "!!null"
  | .bool => text "!!bool"
  | .int _ => text "!!int"
  | .float _ => text "!!float"
  | .timestamp => text "!!timestamp"
  | .str => text "!!str"

/-- A double cut toward zero, if it is not above 2^63; what does not fit in 64 bits becomes the
least integer. -/
def cut? (x : Float) : Option Int :=
  if x ≤ 9223372036854775808.0 then
    some (if x < 9223372036854775808.0 then x.toInt64.toInt else Int64.minValue.toInt)
  else none

/-- The meaning of a fraction; one that is out of range has none. -/
def ofFraction? (t : Text) : Option Meaning := do
  let x := (← Fraction.ofText? t).nearest
  if x.isInf then none else some (.float (cut? x))

/-- Words with a fixed meaning. -/
def words : List (Text × Meaning) :=
  [(text "true", .bool), (text "True", .bool), (text "TRUE", .bool),
    (text "false", .bool), (text "False", .bool), (text "FALSE", .bool),
    ([], .null), (text "~", .null), (text "null", .null), (text "Null", .null),
    (text "NULL", .null),
    (text ".nan", .float none), (text ".NaN", .float none), (text ".NAN", .float none),
    (text ".inf", .float none), (text ".Inf", .float none), (text ".INF", .float none),
    (text "+.inf", .float none), (text "+.Inf", .float none), (text "+.INF", .float none),
    (text "-.inf", .float (some Int64.minValue.toInt)),
    (text "-.Inf", .float (some Int64.minValue.toInt)),
    (text "-.INF", .float (some Int64.minValue.toInt))]

/-- The meaning of a text that starts with a digit or a sign, if it is a number. Underscores do not
count. -/
def ofNumber? (t : Text) : Option Meaning :=
  let bare := t.filter (· ≠ 0x5f)
  match integer? bare with
  | some n => some (.int n)
  | none => ofFraction? bare <|> (lateSigned? bare).map .int

/-- The meaning of a text that starts with a point, if it is a number. Underscores stand between
digits. -/
def ofPointed? (t : Text) : Option Meaning :=
  if underscoresBetweenDigits false t then ofFraction? (t.filter (· ≠ 0x5f)) else none

/-- The meaning of a plain scalar. -/
def ofPlain (t : Text) : Meaning :=
  match words.lookup t with
  | some m => m
  | none =>
    match t with
    | [] => .null
    | b :: _ =>
      if b = 0x2e then (ofPointed? t).getD .str
      else if Text.isDigit b ∨ b = 0x2b ∨ b = 0x2d then
        if isTimestamp t then .timestamp else (ofNumber? t).getD .str
      else .str

end Meaning

/-- The tag of a text. -/
def textTag : Text :=
  Meaning.tag .str

/-- The plain key that merges a mapping into another. -/
def mergeKey : Text :=
  text "<<"

/-- Whether a tag leaves open what a scalar means. -/
def isOpenTag (tag : Text) : Bool :=
  tag = [] || tag = text "!"

/-- The tag that a scalar has, given or not. -/
def scalarTag (isPlain : Bool) (tag value : Text) : Text :=
  if !isOpenTag tag then tag
  else if !isPlain then textTag
  else if value = mergeKey then text "!!merge"
  else (Meaning.ofPlain value).tag

/-- The meaning of a scalar. Tags for texts and for binary data take every scalar, and the tag for
fractions takes an integer too. -/
def meaning (isPlain : Bool) (tag value : Text) : Except Malformed Meaning :=
  let tag := scalarTag isPlain tag value
  if tag = textTag ∨ tag = text "!!binary" then .ok .str
  else
    let m := Meaning.ofPlain value
    match m with
    | .int n =>
      if tag = m.tag then .ok m
      else if tag = text "!!float" then
        .ok (.float (if n ≤ Int64.maxValue.toInt then some n else none))
      else .error { cause := .mistagged m.tag value tag }
    | m => if tag = m.tag then .ok m else .error { cause := .mistagged m.tag value tag }

end Monkey.Yaml
