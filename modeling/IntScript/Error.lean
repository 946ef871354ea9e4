import IntScript.Eval.Fault
import IntScript.Parse.Error

/-!
# Errors

What the user of the library gets to see when a program cannot be compiled or run. Errors that
point into the program keep its source, so that they can be shown on their own.
-/

namespace IntScript

/-- An error of compiling or running a program. -/
inductive Error where
  /-- The text is not a program. -/
  | compilation (diagnostics : List Diagnostic) (source : String)
  /-- The program or its input is at fault. -/
  | runtime (diagnostic : Diagnostic) (source : String) (recoverable : Bool)
  /-- A limit was exceeded. -/
  | resourceExceeded (message : String)
  /-- The tree is not that of a program. -/
  | internal (message : String)
  /-- A device failed. -/
  | device (message : String)
deriving DecidableEq

namespace Error

/-- The error of a text that is not a program. -/
def ofParse (e : ParseError) (source : String) : Error := .compilation [e.diagnostic] source

/-- The error of a run that fails. -/
def ofFault (f : Fault) (source : String) : Error :=
  match f.cause, f.cause.group with
  | .device fault, _ => .device fault.message
  | _, .runtime => .runtime f.diagnostic source f.recoverable
  | cause, .resource => .resourceExceeded cause.message
  | cause, _ => .internal cause.message

/-- Whether a run can be repeated with more input. -/
def recoverable : Error → Bool
  | .runtime _ _ recoverable => recoverable
  | _ => false

/-- The source that the diagnostics refer to. -/
def source? : Error → Option String
  | .compilation _ source | .runtime _ source _ => some source
  | _ => none

/-- The diagnostics of an error. -/
def diagnostics : Error → List Diagnostic
  | .compilation ds _ => ds
  | .runtime d _ _ => [d]
  | _ => []

/-- The message of the device that failed. -/
def deviceMessage? : Error → Option String
  | .device message => some message
  | _ => none

/-- The wording of an error. -/
def message : Error → String
  | .compilation ds _ =>
    "Compilation failed with " ++ Decimal.text (ds.countP fun d => d.severity == .error) ++
      " error(s)"
  | .runtime d _ _ => "Runtime error: " ++ d.message
  | .resourceExceeded message => "Resource limit exceeded: " ++ message
  | .internal message => "Internal error: " ++ message
  | .device message => "I/O error: " ++ message

end Error
end IntScript
