import Monkey.Repl.Answer

/-!
# From lines to inputs

Lines are gathered until they have no more opening braces than closing ones, not counting braces
between quotes; then they are one input. A line that is only `exit`, while nothing is pending, ends
the conversation. An interrupt drops what is pending, or else shows a hint.
-/

namespace Monkey

/-- The opening braces of a text minus its closing ones, except between quotes. The flag says
whether the text starts between quotes. -/
def balanceFrom (quoted : Bool) : Text → Int
  | [] => 0
  | b :: rest =>
    if b = 0x22 then balanceFrom (!quoted) rest
    else if quoted then balanceFrom quoted rest
    else if b = 0x7b then balanceFrom quoted rest + 1
    else if b = 0x7d then balanceFrom quoted rest - 1
    else balanceFrom quoted rest

/-- The opening braces of a text minus its closing ones, except between quotes. -/
def braceBalance (t : Text) : Int :=
  balanceFrom false t

/-- What is typed: a line, or an interrupt. -/
inductive Input where
  | line (t : Text)
  | interrupt
  deriving DecidableEq, Repr

/-- What happens in a conversation. -/
inductive Event where
  | evaluate (source : Text)
  | hint
  | leave
  | close
  deriving DecidableEq, Repr

/-- What an input leads to, if to anything yet, and what is pending after it. -/
def feed (pending : Text) : Input → Option Event × Text
  | .interrupt => if pending.isEmpty then (some .hint, []) else (none, [])
  | .line t =>
    if pending.isEmpty ∧ t.trim = text "exit" then (some .leave, [])
    else
      let source := pending ++ t ++ text "\n"
      if 0 < braceBalance source then (none, source) else (some (.evaluate source), [])

/-- What happens when inputs follow one another and then end. -/
def events (pending : Text) : List Input → List Event
  | [] => [.close]
  | i :: rest =>
    match feed pending i with
    | (some .leave, _) => [.leave]
    | (some event, pending) => event :: events pending rest
    | (none, pending) => events pending rest

/-- The sources that are evaluated, one after another. -/
def sources (es : List Event) : List Text :=
  es.filterMap fun
    | .evaluate source => some source
    | _ => none

/-- The inputs in a text that was typed. A line ends at a newline or a carriage return. An interrupt
drops the line it stands in up to there. -/
def typedFrom (line : Text) : Text → List Input
  | [] => if line.isEmpty then [] else [.line line]
  | b :: rest =>
    if b = 0x0a ∨ b = 0x0d then .line line :: typedFrom [] rest
    else if b = 0x03 then .interrupt :: typedFrom [] rest
    else typedFrom (line ++ [b]) rest

/-- The inputs in a text that was typed; what is not UTF-8 arrives as U+FFFD. -/
def typed (t : Text) : List Input :=
  typedFrom [] t.repair

end Monkey
