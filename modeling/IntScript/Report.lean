import IntScript.Error
import IntScript.Report.Snippet

/-!
# Reports

An error is shown to the user as a report. Errors that point into the program show each diagnostic
with a snippet of the source; all others are shown by their wording alone.

Spans count bytes, while snippets count characters. A span is cut to the bytes of the source and
then taken as it is, so that a report points at the right place as long as no character before it
takes more than one byte.
-/

namespace IntScript.Report

/-- The word for a severity at the head of a report. -/
def title : Severity → String
  | .error => "Error:"
  | .warning => "Warning:"
  | .info => "Advice:"

/-- A text filled up with spaces to at least two characters. -/
def padCode (code : String) : String := code ++ Snippet.spaces (2 - code.length)

/-- The first line of a report. -/
def headerLine (color : Bool) (d : Diagnostic) : String :=
  let code := match d.code with
    | some code => "[" ++ padCode code ++ "] "
    | none => ""
  paint color (.header d.severity) (code ++ title d.severity) ++ " " ++ d.message

/-- The lines of the report of one diagnostic. -/
def diagnosticLines (color : Bool) (name source : String) (d : Diagnostic) : List String :=
  match d.span with
  | none => [d.severity.text ++ ": " ++ d.message]
  | some span =>
    let chars := source.toList
    let stop := min span.stop (Text.byteLength chars)
    let start := min span.start stop
    let outside := chars.length < start ∨ (start < stop ∧ chars.length < stop - 1)
    headerLine color d ::
      if outside then []
      else Snippet.lines ⟨color, name, pageOf chars, start, stop, d.message, d.help⟩

/-- The lines of the report of an error. -/
def errorLines (color : Bool) (name : String) (e : Error) : List String :=
  match e.source? with
  | some source => e.diagnostics.flatMap (diagnosticLines color name source)
  | none => [e.message]

/-- The name of a source that was not read from a file. -/
def defaultName : String := "<program>"

/-- The report of an error on a source with the given name. -/
def render (color : Bool) (name : String) (e : Error) : String :=
  String.join ((errorLines color name e).map (· ++ "\n"))

/-- Writes the report of an error to an output. -/
def write (color : Bool) (name : String) (e : Error) (out : Output) :
    Except DeviceFault Unit × Output :=
  out.write (Text.encode (render color name e).toList)

end IntScript.Report
