import Monkey.Log.Level
import Monkey.Text.Integer

/-!
# Flags

Arguments that start with a dash set flags; the first other argument, or two dashes alone, ends
them. A flag has a value of its kind, after an equals sign or in the next argument. A switch takes a
value only after an equals sign, and is on without one.
-/

namespace Monkey

/-- What a flag takes. -/
inductive FlagKind where
  | word
  | level
  | number
  | switch
  deriving DecidableEq, Repr

/-- The value of a flag. -/
inductive FlagValue where
  | word (t : Text)
  | level (l : LogLevel)
  | number (n : Int)
  | switch (on : Bool)
  deriving DecidableEq, Repr

/-- What is wrong with a flag. -/
inductive FlagProblem where
  | badForm (argument : Text)
  | unknown (name : Text)
  | noValue (name : Text)
  | noLevel (name value : Text)
  | noNumber (name value : Text) (problem : Text.NumeralProblem)
  | noSwitch (name value : Text)
  deriving DecidableEq, Repr

namespace FlagProblem

/-- The wording of what is wrong with a flag. -/
def message : FlagProblem → Text
  | .badForm argument => text "bad flag syntax: " ++ argument
  | .unknown name => text "flag provided but not defined: -" ++ name
  | .noValue name => text "flag needs an argument: -" ++ name
  | .noLevel name value => invalid name value (LogLevel.unknownMessage value)
  | .noNumber name value .malformed => invalid name value (text "parse error")
  | .noNumber name value .outOfRange => invalid name value (text "value out of range")
  | .noSwitch name value =>
    text "invalid boolean value " ++ value.quoted ++ text " for -" ++ name ++ text ": parse error"
where
  /-- The wording for a value that is not of the flag's kind. -/
  invalid (name value reason : Text) : Text :=
    text "invalid value " ++ value.quoted ++ text " for flag -" ++ name ++ text ": " ++ reason

end FlagProblem

/-- The flags that a command has, with their kinds. -/
abbrev FlagTable := List (Text × FlagKind)

/-- The flags that were set. The last setting of a flag comes first. -/
abbrev Flags := List (Text × FlagValue)

/-- The words for the two states of a switch. -/
def switchWords : List (Text × Bool) :=
  [(text "1", true), (text "t", true), (text "T", true), (text "TRUE", true), (text "true", true),
    (text "True", true), (text "0", false), (text "f", false), (text "F", false),
    (text "FALSE", false), (text "false", false), (text "False", false)]

/-- Read the value of a flag. -/
def FlagKind.read (kind : FlagKind) (name value : Text) : Except FlagProblem FlagValue :=
  match kind with
  | .word => .ok (.word value)
  | .level =>
    match LogLevel.ofName? value with
    | some l => .ok (.level l)
    | none => .error (.noLevel name value)
  | .number =>
    match Text.readInteger value with
    | .ok n => .ok (.number n)
    | .error problem => .error (.noNumber name value problem)
  | .switch =>
    match switchWords.lookup value with
    | some on => .ok (.switch on)
    | none => .error (.noSwitch name value)

/-- The name of a flag and what is behind the first equals sign in it, which is not its first
byte. -/
def splitFlag : Text → Text × Option Text
  | [] => ([], none)
  | b :: rest =>
    let name := b :: rest.takeWhile (· ≠ 0x3d)
    match rest.dropWhile (· ≠ 0x3d) with
    | [] => (name, none)
    | _ :: value => (name, some value)

/-- What an argument is when flags are expected. -/
inductive Argument where
  | operand
  | stop
  | malformed
  | flag (name : Text) (value : Option Text)
  deriving DecidableEq, Repr

/-- See what an argument is. -/
def Argument.ofText : Text → Argument
  | 0x2d :: 0x2d :: [] => .stop
  | 0x2d :: 0x2d :: name => named name
  | 0x2d :: b :: rest => named (b :: rest)
  | _ => .operand
where
  /-- The argument with what follows its dashes. -/
  named (name : Text) : Argument :=
    if name.head?.any (· ∈ [0x2d, 0x3d]) then .malformed
    else let (name, value) := splitFlag name; .flag name value

/-- Flags at the start of arguments: those set before the first problem, and the arguments behind
the flags. -/
def readFlags (table : FlagTable) (flags : Flags) :
    List Text → Flags × Except FlagProblem (List Text)
  | [] => (flags, .ok [])
  | a :: rest =>
    match Argument.ofText a with
    | .operand => (flags, .ok (a :: rest))
    | .stop => (flags, .ok rest)
    | .malformed => (flags, .error (.badForm a))
    | .flag name value =>
      match table.lookup name with
      | none => (flags, .error (.unknown name))
      | some kind =>
        match value with
        | some value =>
          match kind.read name value with
          | .ok v => readFlags table ((name, v) :: flags) rest
          | .error problem => (flags, .error problem)
        | none =>
          if kind = .switch then readFlags table ((name, .switch true) :: flags) rest
          else match rest with
            | [] => (flags, .error (.noValue name))
            | value :: rest =>
              match kind.read name value with
              | .ok v => readFlags table ((name, v) :: flags) rest
              | .error problem => (flags, .error problem)

end Monkey
