import IntScript.Diagnostic

/-!
# Ink

The parts of a report are written in different colours on a terminal that shows them, and plainly
elsewhere.
-/

namespace IntScript.Report

/-- The parts of a report that have a colour of their own. -/
inductive Ink where
  /-- The first line, by how grave the diagnostic is. -/
  | header (severity : Severity)
  /-- The frame around the source. -/
  | margin
  /-- The frame beside lines that are not source. -/
  | skippedMargin
  /-- Source that the diagnostic is not about. -/
  | unimportant
  /-- The word before the help. -/
  | note
  /-- Source that the diagnostic is about, and the lines that point at it. -/
  | label

/-- The parameters of the control sequence that selects a colour. -/
def Ink.code : Ink → String
  | .header .error => "31"
  | .header .warning => "33"
  | .header .info => "38;5;147"
  | .margin => "38;5;246"
  | .skippedMargin => "38;5;240"
  | .unimportant => "38;5;249"
  | .note => "38;5;115"
  | .label => "38;5;155"

/-- A text in a colour, if colours are used at all. -/
def paint (color : Bool) (ink : Ink) (text : String) : String :=
  if color then "\x1b[" ++ ink.code ++ "m" ++ text ++ "\x1b[0m" else text

end IntScript.Report
