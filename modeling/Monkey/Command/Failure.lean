import Monkey.Command.Basic
import Monkey.Settings.Load

/-!
# Failures and outputs

What a command leaves behind: texts on three channels and, if it failed, the reason.
-/

namespace Monkey

/-- Why a command failed. -/
inductive Failure where
  | arguments (problem : ArgumentProblem)
  | unloaded (problem : Settings.LoadProblem)
  | invalid (problem : Invalid)
  | noFile (command : Command)
  | unreadable (path : Text) (problem : FileProblem)
  | filesFailed (failed total : Nat)
  | parseErrors (path : Text) (count : Nat)
  | noTopic (topic : Text)

/-- The wording of why a command failed. -/
def Failure.message : Failure → Text
  | .arguments problem => problem.message
  | .unloaded problem => problem.message
  | .invalid problem => text "config: " ++ problem.message
  | .noFile command => command.name ++ text ": missing file argument"
  | .unreadable path problem =>
    text "cannot read file " ++ path ++ text ": " ++ problem.message path
  | .filesFailed failed total =>
    Text.ofNat failed ++ text " of " ++ Text.ofNat total ++ text " file(s) failed"
  | .parseErrors path count => path ++ text ": " ++ Text.ofNat count ++ text " parse error(s)"
  | .noTopic topic => text "No help topic for '" ++ topic ++ text "'"

/-- What a command leaves behind. Results go to `stdout`, log records and reports of problems to
`stderr`, and a conversation to the screen. -/
structure Output where
  stdout : Text := []
  stderr : Text := []
  screen : Text := []
  failure : Option Failure := none

/-- An output behind a text that was written to `stderr` before. -/
def Output.behind (o : Output) (before : Text) : Output :=
  { o with stderr := before ++ o.stderr }

end Monkey
