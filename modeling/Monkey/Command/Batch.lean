import Monkey.Command.Failure
import Monkey.Repl.Answer

/-!
# Running files

Each file is evaluated in a session of its own, so none sees another. What the files printed appears
in the order in which they were named, with a report for each that failed. If a file cannot be read,
only the log shows anything of the others.
-/

namespace Monkey

/-- What came of one file. There is no result if the source is wrong. -/
structure FileReport where
  name : Text
  output : Text := []
  errors : List Text := []
  result : Option Value := none
  log : List LogRecord := []

namespace FileReport

/-- Whether a file failed: its source is wrong or its result is an error. -/
def failed (r : FileReport) : Bool :=
  !r.errors.isEmpty || r.result.any Value.isError

/-- What is reported about a file that failed. -/
def complaint (r : FileReport) : Text :=
  if r.errors.isEmpty then
    match r.result with
    | some v => if v.isError then r.name ++ text ": " ++ v.inspect ++ text "\n" else []
    | none => []
  else showProblems r.errors

/-- Evaluate the source in a file. -/
def ofSource (limits : Limits) (name source : Text) : FileReport :=
  let about (message : Text) (more : List (Text × Text)) : LogRecord :=
    { level := .debug, message, attributes := (text "file", name) :: more }
  let parsed := parse source
  if parsed.problems.isEmpty then
    let (outcome, session) := Session.evaluate { limits } (.program parsed.program)
    let result := match outcome with
      | .value v => some v
      | .crashed _ | .exhausted => none
    let kind := (result.map fun v => v.tag.name).getD []
    { name, output := session.world.output, result
      log := [about (text "evaluating") []] ++ session.world.log
        ++ [about (text "evaluated") [(text "type", kind)]] }
  else
    { name, errors := parsed.errors
      log := [about (text "parse failed") [(text "errors", Text.ofNat parsed.problems.length)]] }

end FileReport

/-- Evaluate files one after another, up to the first that cannot be read, and keep the log. -/
def evaluateFiles (limits : Limits) (read : Text → Except FileProblem Text) :
    List Text → List LogRecord × Except Failure (List FileReport)
  | [] => ([], .ok [])
  | name :: rest =>
    match read name with
    | .error problem => ([], .error (.unreadable name problem))
    | .ok source =>
      let report := FileReport.ofSource limits name source
      let (log, reports) := evaluateFiles limits read rest
      (report.log ++ log, reports.map (report :: ·))

/-- The output of files that were evaluated. -/
def reportFiles (reports : List FileReport) : Output :=
  let failed := reports.countP FileReport.failed
  { stdout := reports.flatMap FileReport.output
    stderr := reports.flatMap FileReport.complaint
    failure := if failed = 0 then none else some (.filesFailed failed reports.length) }

/-- Run files and print the records of the log from a threshold on. -/
def runFiles (threshold : LogLevel) (limits : Limits) (read : Text → Except FileProblem Text)
    (names : List Text) : Output :=
  if names.isEmpty then { failure := some (.noFile .run) }
  else
    let (log, reports) := evaluateFiles limits read names
    let logged := printLog threshold log
    match reports with
    | .error failure => { stderr := logged, failure := some failure }
    | .ok reports => (reportFiles reports).behind logged

end Monkey
