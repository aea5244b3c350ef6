import Monkey.Source.Span

/-!
# Diagnostics

What is reported about a source: a stable code, how severe it is, a message, where, and perhaps a
hint.
-/

namespace Monkey

/-- How severe a diagnostic is. -/
inductive Severity where
  | error
  | warning
  | unknown
  deriving DecidableEq, Repr, Inhabited

/-- The name of a severity. -/
def Severity.name : Severity → Text
  | .error => text "error"
  | .warning => text "warning"
  | .unknown => text "unknown"

/-- A report about a stretch of a source. An empty hint is none. -/
structure Diagnostic where
  code : Text
  severity : Severity
  message : Text
  span : Span
  hint : Text := []
  deriving DecidableEq, Repr, Inhabited

namespace Diagnostic

/-- A diagnostic on one line. -/
def describe (d : Diagnostic) : Text :=
  text "[" ++ d.code ++ text "] " ++ d.severity.name ++ text " at " ++ d.span.start.describe
    ++ text ": " ++ d.message
    ++ (if d.hint = [] then [] else text " (hint: " ++ d.hint ++ text ")")

/-- Diagnostics as a listing, one on each line. -/
def listing (ds : List Diagnostic) : Text :=
  Text.unlines (ds.map describe)

end Diagnostic

end Monkey
