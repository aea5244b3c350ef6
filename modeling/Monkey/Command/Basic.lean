import Monkey.Command.Flag

/-!
# Commands and their arguments

The program has a few commands, each with flags of its own, and flags that come before the command.
Help and version can be asked for by a long or a short name, but not by both. Behind a command,
flags may stand after other arguments.
-/

namespace Monkey

/-- What the program can be told to do. -/
inductive Command where
  | repl
  | run
  | tokens
  | parse
  | help
  deriving DecidableEq, Repr

namespace Command

/-- The name of a command. -/
def name : Command → Text
  | .repl => text "repl"
  | .run => text "run"
  | .tokens => text "tokens"
  | .parse => text "parse"
  | .help => text "help"

/-- All commands. -/
def all : List Command :=
  [.repl, .run, .tokens, .parse, .help]

/-- The command with a name. Help has a short name too. -/
def ofName? (word : Text) : Option Command :=
  if word = text "h" then some .help else all.find? fun c => c.name = word

end Command

/-! ## Flags of the program and of its commands -/

/-- A flag with a long and a short name. -/
structure TwoNames where
  long : Text
  short : Text
  deriving DecidableEq, Repr

/-- The flag that asks for help. -/
def helpFlag : TwoNames :=
  ⟨text "help", text "h"⟩

/-- The flag that asks for the version. -/
def versionFlag : TwoNames :=
  ⟨text "version", text "v"⟩

/-- Both names of a flag, which is a switch. -/
def TwoNames.table (n : TwoNames) : FlagTable :=
  [(n.long, .switch), (n.short, .switch)]

/-- Whether a flag was set by both its names. -/
def TwoNames.clash (n : TwoNames) (flags : Flags) : Bool :=
  (flags.lookup n.long).isSome && (flags.lookup n.short).isSome

/-- Whether a flag is on. -/
def TwoNames.isOn (n : TwoNames) (flags : Flags) : Bool :=
  flags.lookup n.long = some (.switch true) || flags.lookup n.short = some (.switch true)

/-- The flags that come before a command. -/
def programFlags : FlagTable :=
  [(text "config", .word), (text "log-level", .level), (text "color", .word),
    (text "max-steps", .number), (text "max-depth", .number)]
    ++ helpFlag.table ++ versionFlag.table

/-- The name of the flag that asks for JSON. -/
def jsonFlag : Text :=
  text "json"

/-- The flags of a command. -/
def Command.flags : Command → FlagTable
  | .tokens | .parse => (jsonFlag, .switch) :: helpFlag.table
  | .repl | .run | .help => helpFlag.table

/-! ## Reading arguments -/

/-- Arguments that were read: flags and operands. -/
structure Arguments where
  flags : Flags
  operands : List Text

/-- Why arguments cannot be read. -/
inductive ArgumentProblem where
  | twoNames (n : TwoNames)
  | flag (problem : FlagProblem)
  deriving DecidableEq, Repr

/-- The wording of why arguments cannot be read. -/
def ArgumentProblem.message : ArgumentProblem → Text
  | .twoNames n => text "Cannot use two forms of the same flag: " ++ n.short ++ text " " ++ n.long
  | .flag problem => problem.message

/-- Read arguments. Two names of one flag are a problem even behind a problem with another flag. -/
def Arguments.read (table : FlagTable) (switches : List TwoNames) (args : List Text) :
    Except ArgumentProblem Arguments :=
  let (flags, operands) := readFlags table [] args
  match switches.find? fun n => n.clash flags with
  | some n => .error (.twoNames n)
  | none =>
    match operands with
    | .ok operands => .ok ⟨flags, operands⟩
    | .error problem => .error (.flag problem)

/-- Whether an argument looks like a flag. A dash alone does not. -/
def looksLikeFlag (a : Text) : Bool :=
  a.head? = some 0x2d && a ≠ text "-"

/-- Arguments of a command with the flags in front: all from the first flag on, up to two dashes
alone, comes before the rest. -/
def flagsFirst (args : List Text) : List Text :=
  let before := args.takeWhile (· ≠ text "--")
  let after := args.dropWhile (· ≠ text "--")
  let leading := before.takeWhile fun a => !looksLikeFlag a
  match before.dropWhile fun a => !looksLikeFlag a with
  | [] => args
  | flagged => flagged ++ leading ++ after

/-- Read the arguments of a command. -/
def Command.read (c : Command) (args : List Text) : Except ArgumentProblem Arguments :=
  Arguments.read c.flags [helpFlag] (flagsFirst args)

/-- Read the arguments of the program. -/
def readProgram (args : List Text) : Except ArgumentProblem Arguments :=
  Arguments.read programFlags [helpFlag, versionFlag] args

end Monkey
