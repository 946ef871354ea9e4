import IntScript.Span

/-!
# Diagnostics

A diagnostic is a message about a program: how grave it is, what it says, the place it is about,
and possibly a code and some help.
-/

namespace IntScript

/-- How grave a diagnostic is. -/
inductive Severity where
  | error | warning | info
deriving DecidableEq

/-- The text of a severity. -/
def Severity.text : Severity → String
  | .error => "error"
  | .warning => "warning"
  | .info => "info"

/-- A message about a program. -/
structure Diagnostic where
  /-- How grave it is. -/
  severity : Severity
  /-- What it says. -/
  message : String
  /-- The place that it is about. -/
  span : Option Span
  /-- Advice on what to do. -/
  help : Option String
  /-- A code to look it up by. -/
  code : Option String
deriving DecidableEq

end IntScript
