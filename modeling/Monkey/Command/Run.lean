import Monkey.Command.Batch
import Monkey.Command.Listing
import Monkey.Command.Usage
import Monkey.Repl.Conversation

/-!
# The program

From arguments to what the program does: it reads its flags, loads its settings, and then carries
out a command. All but a conversation is done at once; a conversation goes on with what is typed.
-/

namespace Monkey

/-- What the program has around it: the home directory, empty if unknown, the files, and whether the
screen shows colours. -/
structure Host where
  home : Text := []
  read : Text → Except FileProblem Text
  capable : Bool := false

/-! ## Settings -/

/-- The settings with those that flags give. -/
def Settings.override (s : Settings) (flags : Flags) : Settings :=
  let s := match flags.lookup (text "color") with
    | some (.word mode) => { s with color := mode }
    | _ => s
  let s := match flags.lookup (text "max-steps") with
    | some (.number n) => { s with maxSteps := n }
    | _ => s
  let s := match flags.lookup (text "max-depth") with
    | some (.number n) => { s with maxDepth := n }
    | _ => s
  match flags.lookup (text "log-level") with
  | some (.level l) => { s with logLevel := l.name }
  | _ => s

/-- The path of the file with settings that flags name. -/
def configPath (flags : Flags) : Text :=
  match flags.lookup (text "config") with
  | some (.word path) => path
  | _ => []

/-- Load the settings, and let flags override them. -/
def Host.settings (h : Host) (flags : Flags) : Except Failure Settings :=
  match Settings.load h.read h.home (configPath flags) with
  | .error problem => .error (.unloaded problem)
  | .ok loaded =>
    let s := loaded.override flags
    match s.invalid? with
    | some problem => .error (.invalid problem)
    | none => .ok s

/-- The record that says which settings there are. -/
def Settings.record (s : Settings) : LogRecord :=
  { level := .debug, message := text "configuration loaded"
    attributes :=
      [(text "path", s.path), (text "color", s.color), (text "max_steps", Text.ofInt s.maxSteps),
        (text "max_depth", Text.ofInt s.maxDepth)] }

/-! ## What to do -/

/-- What the program does: it is done, or it converses under settings. -/
inductive Plan where
  | done (output : Output)
  | converse (settings : Settings)

/-- The plan when arguments cannot be read. The two kinds of problem are introduced differently, and
not in the same way before a command as behind it. -/
def Plan.misused (introduction gap usage : Text) (problem : ArgumentProblem) : Plan :=
  .done
    { stdout := (match problem with
        | .twoNames _ => problem.message ++ gap
        | .flag _ => introduction ++ text " " ++ problem.message ++ text "\n\n") ++ usage
      failure := some (.arguments problem) }

/-- Help on a topic or, without one, on the program. -/
def helpOn : List Text → Output
  | [] => { stdout := usage }
  | topic :: _ =>
    if topic.isEmpty then { stdout := usage }
    else match Command.ofName? topic with
      | some c => { stdout := c.usage }
      | none => { failure := some (.noTopic topic) }

/-- The plan for a command with its arguments. -/
def Command.plan (c : Command) (h : Host) (s : Settings) (args : List Text) : Plan :=
  match c.read args with
  | .error problem => .misused (text "Incorrect Usage:") (text "\n\n") c.usage problem
  | .ok a =>
    if helpFlag.isOn a.flags then .done { stdout := c.usage }
    else
      let asJson := a.flags.lookup jsonFlag = some (.switch true)
      match c with
      | .repl => .converse s
      | .run => .done (runFiles s.threshold s.limits h.read a.operands)
      | .tokens =>
        .done (listFile s.threshold h.read c (text "tokenizing") (fun _ => listTokens asJson)
          a.operands)
      | .parse =>
        .done (listFile s.threshold h.read c (text "parsing") (listProgram asJson) a.operands)
      | .help => .done (helpOn a.operands)

/-- The plan behind the record of the settings. -/
def Plan.logged (s : Settings) : Plan → Plan
  | .done o => .done (o.behind (printLog s.threshold [s.record]))
  | .converse s => .converse s

/-- The plan for the arguments of the program. Without a command, or with one that there is not, the
program converses. -/
def Host.plan (h : Host) (args : List Text) : Plan :=
  match readProgram args with
  | .error problem => .misused (text "Incorrect Usage.") (text "\n") usage problem
  | .ok a =>
    if helpFlag.isOn a.flags then .done { stdout := usage }
    else if versionFlag.isOn a.flags then
      .done { stdout := text "monkey version " ++ version ++ text "\n" }
    else match h.settings a.flags with
      | .error failure => .done { stdout := usage, failure := some failure }
      | .ok s =>
        match a.operands with
        | [] => .converse s
        | word :: rest =>
          match Command.ofName? word with
          | some c => (c.plan h s rest).logged s
          | none => .converse s

/-! ## Conversations -/

/-- The records of the log before a conversation under settings. -/
def Settings.opening (s : Settings) : List LogRecord :=
  [s.record,
    { level := .debug, message := text "repl started"
      attributes := [(text "history", s.historyFile)] }]

/-- The last record of the log of a conversation. -/
def closing : LogRecord :=
  { level := .debug, message := text "repl finished" }

/-- The conversation under settings, before anything is typed. -/
def Host.conversation (h : Host) (s : Settings) : Conversation :=
  .start (colorsShown s.color h.capable) s.limits

/-- A whole conversation. -/
def Host.converse (h : Host) (s : Settings) (inputs : List Input) : Output :=
  let c := h.conversation s
  let said := c.respondAll (events [] inputs)
  { screen := c.greeting ++ said.shown
    stderr := printLog s.threshold (s.opening ++ said.log ++ [closing]) }

/-- Run the program with arguments and with a text that is typed. -/
def Host.run (h : Host) (args : List Text) (typedText : Text) : Output :=
  match h.plan args with
  | .done output => output
  | .converse s => h.converse s (typed typedText)

/-- The paths that the program may read, given its arguments. -/
def readPaths (home : Text) (args : List Text) : List Text :=
  match readProgram args with
  | .error _ => []
  | .ok a =>
    let named := configPath a.flags
    let settings := if named.isEmpty then Path.join home Settings.homeFile else named
    let files := match a.operands with
      | [] => []
      | word :: rest =>
        match Command.ofName? word with
        | none => []
        | some c =>
          match c.read rest with
          | .ok b => b.operands
          | .error _ => []
    settings :: files

end Monkey
