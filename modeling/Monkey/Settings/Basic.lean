import Monkey.Eval.World
import Monkey.Log.Level

/-!
# Settings

What a user can set, what is set when the user sets nothing, and which settings are valid.
-/

namespace Monkey

/-- The settings. The path is that of the file they were read from, if there was one. -/
structure Settings where
  path : Text := []
  prompt : Text := text ">> "
  historyFile : Text := text "~/.monkey_history"
  color : Text := text "auto"
  maxSteps : Int := 0
  maxDepth : Int := 0
  logLevel : Text := text "warn"
  deriving DecidableEq, Repr, Inhabited

/-- What makes settings invalid. -/
inductive Invalid where
  | color (mode : Text)
  | maxSteps (n : Int)
  | maxDepth (n : Int)
  | logLevel (name : Text)
  deriving DecidableEq, Repr

/-- The wording of what makes settings invalid. -/
def Invalid.message : Invalid → Text
  | .color mode => text "color must be one of auto, always, never; got " ++ mode.quoted
  | .maxSteps n => text "max_steps must not be negative, got " ++ Text.ofInt n
  | .maxDepth n => text "max_depth must not be negative, got " ++ Text.ofInt n
  | .logLevel name => LogLevel.unknownMessage name

namespace Settings

/-- The modes of colour. -/
def colorModes : List Text :=
  [text "auto", text "always", text "never"]

/-- The first thing that makes settings invalid. -/
def invalid? (s : Settings) : Option Invalid :=
  if s.color ∉ colorModes then some (.color s.color)
  else if s.maxSteps < 0 then some (.maxSteps s.maxSteps)
  else if s.maxDepth < 0 then some (.maxDepth s.maxDepth)
  else if (LogLevel.ofName? s.logLevel).isNone then some (.logLevel s.logLevel)
  else none

/-- The limits that the settings put on an evaluation. -/
def limits (s : Settings) : Limits :=
  ⟨s.maxSteps, s.maxDepth⟩

/-- The level from which on records are printed. -/
def threshold (s : Settings) : LogLevel :=
  (LogLevel.ofName? s.logLevel).getD .info

end Settings

/-- Whether colours are shown: by the mode or, if that leaves it open, if the screen can. -/
def colorsShown (mode : Text) (capable : Bool) : Bool :=
  if mode = text "always" then true
  else if mode = text "never" then false
  else capable

end Monkey
