import Monkey.Repl.Lines

/-!
# Conversations

A conversation greets, answers what happens one event after another in one session, and ends when
the inputs end or the person leaves. It shows texts on a screen and keeps records for the log.
-/

namespace Monkey

/-- A conversation: whether the screen shows colours, and the session in which it evaluates. -/
structure Conversation where
  colored : Bool
  session : Session

/-- What is shown on the screen, and what is kept for the log. -/
structure Utterance where
  shown : Text := []
  log : List LogRecord := []

/-- One utterance after another. -/
def Utterance.followedBy (u v : Utterance) : Utterance :=
  ⟨u.shown ++ v.shown, u.log ++ v.log⟩

namespace Conversation

/-- A conversation under limits in a fresh session. -/
def start (colored : Bool) (limits : Limits) : Conversation :=
  ⟨colored, { limits }⟩

/-- What stands on the screen first. -/
def greeting (c : Conversation) : Text :=
  text "Hello user! This is the Monkey programming language!\n"
    ++ paint c.colored .hint (text "Feel free to type in commands (exit or Ctrl+D to quit)")
    ++ text "\n"

/-- What stands before a line that is typed on a terminal: the prompt or, while lines are pending, a
sign that the input goes on. -/
def prompt (c : Conversation) (usual pending : Text) : Text :=
  if pending.isEmpty then paint c.colored .prompt usual
  else paint c.colored .hint (text "... ")

/-- The answer to an event, and the conversation after it. -/
def respond (c : Conversation) : Event → Utterance × Conversation
  | .evaluate source =>
    let (shown, session) := c.session.answer c.colored source
    (⟨shown, session.world.log⟩, { c with session })
  | .hint =>
    (⟨paint c.colored .hint (text "(use exit or Ctrl+D to quit)") ++ text "\n", []⟩, c)
  | .leave => ({}, c)
  | .close => (⟨text "\n", []⟩, c)

/-- The answers to events that follow one another. -/
def respondAll (c : Conversation) : List Event → Utterance
  | [] => {}
  | e :: rest =>
    let (u, c) := c.respond e
    u.followedBy (c.respondAll rest)

end Conversation

end Monkey
