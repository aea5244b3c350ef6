import Monkey.Repl.Palette
import Monkey.Session
import Monkey.Text.Space

/-!
# Answers

What a person sees after an input: nothing for a blank one, the problems of a source that is wrong,
and otherwise what was printed and then the result. A fault is always shown, but the null of a
binding is not.
-/

namespace Monkey

/-- The face that is shown above the problems of a source. -/
def face : Text :=
  Text.unlines
    [text "            __,__",
      text "   .--.  .-\"     \"-.  .--.",
      text "  / .. \\/  .-. .-.  \\/ .. \\",
      text " | |  '|  /   Y   \\  |'  | |",
      text " | \\   \\  \\ 0 | 0 /  /   / |",
      text "  \\ '- ,\\.-\"\"\"\"\"\"\"-./, -' /",
      text "   ''-' /_   ^ ^   _\\ '-''",
      text "       |  \\._   _./  |",
      text "       \\   \\ '~' /   /",
      text "        '._ '-=-' _.'",
      text "           '-----'"]

/-- What is shown for a source that is wrong. -/
def showProblems (errors : List Text) : Text :=
  face ++ text "Woops! We ran into some monkey business here!\n parser errors:\n"
    ++ errors.flatMap fun e => text "\t" ++ e ++ text "\n"

/-- Whether a program has no result to show: it is empty or ends with a binding. -/
def Program.endsWithBinding (p : Program) : Bool :=
  match p.statements.getLast? with
  | none => true
  | some (.bind _ _ _) => true
  | some _ => false

/-- What is shown for the result of a program. -/
def showResult (colored : Bool) (p : Program) (v : Value) : Text :=
  if v.isError then paint colored .error v.inspect ++ text "\n"
  else if p.endsWithBinding then []
  else paint colored .result v.inspect ++ text "\n"

/-- Evaluate an input in a session, and yield what is shown. The log starts anew. -/
def Session.answer (s : Session) (colored : Bool) (source : Text) : Text × Session :=
  let silent := { s with world := { s.world with output := [], log := [] } }
  if source.isBlankText then ([], silent)
  else
    let parsed := parse source
    if parsed.problems.isEmpty then
      let (outcome, after) := s.evaluate (.program parsed.program)
      let shown := match outcome with
        | .value v => showResult colored parsed.program v
        | .crashed _ | .exhausted => []
      (after.world.output ++ shown, after)
    else (showProblems parsed.errors, silent)

end Monkey
