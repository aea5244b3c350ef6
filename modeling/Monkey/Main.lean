import Monkey.Command.Run

/-!
# The command line

The thin layer around the program: it fetches what the program may read, hands it over, and writes
what comes back. A conversation is held input by input, so that each answer appears before the next
line is typed.
-/

namespace Monkey.CommandLine

/-- A text as a string; a stray byte becomes U+FFFD. -/
def shownString (t : Text) : String :=
  String.ofList (t.runes.map Text.Rune.shown)

/-- Write a text. -/
def write (out : IO.FS.Stream) (t : Text) : IO Unit := do
  out.write ⟨t.toArray⟩
  out.flush

/-- Read a file. -/
def fetch (path : Text) : IO (Except FileProblem Text) := do
  match ← (IO.FS.readBinFile (shownString path)).toBaseIO with
  | .ok bytes => return .ok bytes.toList
  | .error (.inappropriateType _ code _) =>
    return .error (if code = 21 then .directory else .notDirectory)
  | .error _ => return .error .missing

/-- Read a line, with the newline at its end if there is one. -/
partial def readLine (input : IO.FS.Stream) (line : Text) : IO Text := do
  let bytes ← input.read 1
  match bytes.toList with
  | [] => return line.reverse
  | b :: _ => if b = 0x0a then return (b :: line).reverse else readLine input (b :: line)

/-- What a conversation is held with: the streams, the settings, and whether a prompt is shown. -/
structure Terminal where
  input : IO.FS.Stream
  screen : IO.FS.Stream
  log : IO.FS.Stream
  settings : Settings
  prompted : Bool

/-- Show an utterance. -/
def Terminal.utter (t : Terminal) (u : Utterance) : IO Unit := do
  write t.screen u.shown
  write t.log (printLog t.settings.threshold u.log)

/-- Answer inputs that were typed in one line. The result is none if the person leaves. -/
def Terminal.answer (t : Terminal) (c : Conversation) (pending : Text) :
    List Input → IO (Option (Conversation × Text))
  | [] => return some (c, pending)
  | i :: rest => do
    let (event, pending) := feed pending i
    match event with
    | none => t.answer c pending rest
    | some .leave => return none
    | some event =>
      let (u, c) := c.respond event
      t.utter u
      t.answer c pending rest

/-- Hold a conversation to its end. -/
partial def Terminal.hold (t : Terminal) (c : Conversation) (pending : Text) : IO Unit := do
  if t.prompted then
    write t.screen (c.prompt t.settings.prompt pending)
  let line ← readLine t.input []
  if line.isEmpty then
    t.utter (c.respond .close).1
  else
    match ← t.answer c pending (typed line) with
    | none => return
    | some (c, pending) => t.hold c pending

/-- Run the program with arguments. -/
def start (args : List String) : IO UInt32 := do
  let args := args.map text
  let home := text ((← IO.getEnv "HOME").getD "")
  let found ← (readPaths home args).mapM fun path => do return (path, ← fetch path)
  let stdin ← IO.getStdin
  let stdout ← IO.getStdout
  let stderr ← IO.getStderr
  let plainWished := (← IO.getEnv "NO_COLOR").any fun v => !v.isEmpty
  let host : Host :=
    { home, read := fun path => (found.lookup path).getD (.error .missing)
      capable := !plainWished && (← stdout.isTty) }
  match host.plan args with
  | .done output =>
    write stdout output.stdout
    write stderr output.stderr
    match output.failure with
    | none => return 0
    | some failure =>
      write stderr (text "error: " ++ failure.message.trim ++ text "\n")
      return 1
  | .converse settings =>
    let t : Terminal :=
      { input := stdin, screen := stdout, log := stderr, settings, prompted := ← stdin.isTty }
    let c := host.conversation settings
    t.utter ⟨c.greeting, settings.opening⟩
    t.hold c []
    t.utter ⟨[], [closing]⟩
    return 0

end Monkey.CommandLine

/-- The entry point of the program. -/
def main (args : List String) : IO UInt32 :=
  Monkey.CommandLine.start args
