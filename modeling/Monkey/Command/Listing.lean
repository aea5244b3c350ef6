import Monkey.Command.Failure
import Monkey.Syntax.Document
import Monkey.Syntax.Parse
import Monkey.Syntax.Render

/-!
# Listings

The tokens or the program of a file, as text or as JSON.
-/

namespace Monkey

/-- A token in a listing: its kind and its literal in columns, and where it starts. -/
def Token.listed (t : Token) : Text :=
  Text.padRight 10 t.kind.name ++ text " " ++ Text.padRight 20 t.literal.quoted ++ text " "
    ++ t.span.start.describe

/-- A token as a document. -/
def Token.document (t : Token) : Json :=
  .object
    [("kind", .str t.kind.name), ("literal", .str t.literal), ("line", .int t.span.start.line),
      ("column", .int t.span.start.column), ("offset", .int t.span.start.offset)]

/-- A diagnostic as a document. An empty hint is left out. -/
def Diagnostic.document (d : Diagnostic) : Json :=
  .object <|
    [("code", .str d.code), ("column", .int d.span.start.column)]
    ++ (if d.hint.isEmpty then [] else [("hint", .str d.hint)])
    ++ [("line", .int d.span.start.line), ("message", .str d.message),
      ("offset", .int d.span.start.offset), ("severity", .str d.severity.name)]

/-- The tokens of a source. -/
def listTokens (asJson : Bool) (source : Text) : Output :=
  let tokens := tokenize source
  { stdout :=
      if asJson then (Json.object [("tokens", .list (tokens.map Token.document))]).print
      else Text.unlines (tokens.map Token.listed) }

/-- The program of a source, with the diagnostics. A source that is wrong is a failure. -/
def listProgram (asJson : Bool) (path source : Text) : Output :=
  let parsed := parse source
  let diagnostics := parsed.diagnostics
  let failure := if diagnostics.isEmpty then none else some (.parseErrors path diagnostics.length)
  if asJson then
    { stdout := (Json.object [("ast", parsed.program.document),
        ("diagnostics", .list (diagnostics.map Diagnostic.document))]).print
      failure }
  else
    { stdout := parsed.program.render ++ text "\n"
      stderr := Diagnostic.listing diagnostics
      failure }

/-- List the file that is named first. The log says what is about to be done with it. -/
def listFile (threshold : LogLevel) (read : Text → Except FileProblem Text) (command : Command)
    (doing : Text) (list : Text → Text → Output) (names : List Text) : Output :=
  match names with
  | [] => { failure := some (.noFile command) }
  | path :: _ =>
    match read path with
    | .error problem => { failure := some (.unreadable path problem) }
    | .ok source =>
      (list path source).behind <|
        printLog threshold
          [{ level := .debug, message := doing, attributes := [(text "file", path)] }]

end Monkey
