import Monkey.Command.Basic

/-!
# Usage

What is printed when help is asked for or arguments are wrong.
-/

namespace Monkey

/-- The version of the program. -/
def version : Text :=
  text "0.3.0"

namespace Command

/-- What a command does, in a few words. -/
def purpose : Command → Text
  | .repl => text "Start the interactive REPL"
  | .run => text "Evaluate source files, each in its own environment"
  | .tokens => text "Tokenize a file and print the tokens"
  | .parse => text "Parse a file and print the canonical program"
  | .help => text "Shows a list of commands or help for one command"

/-- What arguments a command takes. -/
def operandNames : Command → Text
  | .repl => text "[arguments...]"
  | .run => text "<file>..."
  | .tokens | .parse => text "<file>"
  | .help => text "[command]"

/-- The names of a command in a list. -/
def names : Command → Text
  | .help => text "help, h"
  | c => c.name

/-- The flags of a command, each with what it does. -/
def flagLines : Command → List (Text × Text)
  | .tokens => [(text "--json", text "print JSON")]
  | .parse => [(text "--json", text "print the AST as JSON")]
  | .repl | .run | .help => []

end Command

/-- Pairs of a term and its explanation, one on each line, with the explanations in one column. -/
def explanations (pairs : List (Text × Text)) : List Text :=
  let width := pairs.foldl (fun n p => max n p.1.length) 0
  pairs.map fun p => text "   " ++ Text.padRight (width + 2) p.1 ++ p.2

/-- The usage of the program. -/
def usage : Text :=
  Text.unlines <|
    [text "NAME:", text "   monkey - interpreter for the Monkey programming language", [],
      text "USAGE:", text "   monkey [global options] command [command options] [arguments...]", [],
      text "VERSION:", text "   " ++ version, [], text "COMMANDS:"]
    ++ explanations (Command.all.map fun c => (c.names, c.purpose))
    ++ [[], text "GLOBAL OPTIONS:"]
    ++ explanations
      [(text "--config value", text "YAML configuration file (default: $HOME/.monkey.yaml)"),
        (text "--log-level value", text "set log level (debug, info, warn, error)"),
        (text "--color value", text "colorize output (auto, always, never)"),
        (text "--max-steps value", text "abort evaluation after this many steps (0 = unlimited)"),
        (text "--max-depth value", text "abort evaluation beyond this call depth (0 = unlimited)"),
        (text "--help, -h", text "show help"),
        (text "--version, -v", text "print the version")]

/-- The usage of a command. -/
def Command.usage (c : Command) : Text :=
  Text.unlines <|
    [text "NAME:", text "   monkey " ++ c.name ++ text " - " ++ c.purpose, [], text "USAGE:",
      text "   monkey " ++ c.name ++ (if c.flagLines.isEmpty then [] else text " [command options]")
        ++ text " " ++ c.operandNames]
    ++ if c.flagLines.isEmpty then [] else [[], text "OPTIONS:"] ++ explanations c.flagLines

end Monkey
