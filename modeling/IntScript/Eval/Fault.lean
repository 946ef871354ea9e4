import IntScript.Diagnostic
import IntScript.Eval.Output
import IntScript.Stack
import IntScript.Tree.Basic

/-!
# Faults of a run

A run stops at the first fault. Faults are grouped by who is to blame: the program or its input, a
limit that was set for the run, a tree that no program text denotes, or a device.
-/

namespace IntScript

/-- Who is to blame for a fault. -/
inductive Fault.Group where
  /-- The program or its input. -/
  | runtime
  /-- A limit. -/
  | resource
  /-- The tree. -/
  | internal
  /-- A device. -/
  | device
deriving DecidableEq

/-- Why a run stops. -/
inductive Fault.Cause where
  /-- An operator cannot be applied to its operands. -/
  | arithmetic (fault : ArithmeticFault)
  /-- A number is asked for and the input has none. -/
  | inputExhausted
  /-- The next word of the input is not a number. -/
  | invalidInput (token : String)
  /-- Nodes are nested too deeply. -/
  | depthLimit (depth maxDepth : Nat)
  /-- Too many loop bodies have been started. -/
  | iterationLimit (maxIterations : Nat)
  /-- A slot is not on the stack. -/
  | outOfBounds (access : Stack.OutOfBounds)
  /-- The operand of an operator that writes is not a variable. -/
  | notAVariable (symbol : String)
  /-- A variable has no slot. -/
  | unresolved (name : String)
  /-- A node of a kind that yields no value stands where a value is needed. -/
  | missingValue (kind : Kind)
  /-- A device failed. -/
  | device (fault : DeviceFault)
deriving DecidableEq

/-- Why a run stops, and at which place in the program. -/
structure Fault where
  /-- Why the run stops. -/
  cause : Fault.Cause
  /-- The span of the node to blame, if it is known. -/
  span : Option Span
deriving DecidableEq

namespace Fault

/-- Who is to blame. -/
def Cause.group : Cause → Group
  | .arithmetic _ | .inputExhausted | .invalidInput _ => .runtime
  | .depthLimit .. | .iterationLimit _ | .outOfBounds _ => .resource
  | .notAVariable _ | .unresolved _ | .missingValue _ => .internal
  | .device _ => .device

/-- The wording of a cause. -/
def Cause.message : Cause → String
  | .arithmetic .divisionByZero => "division by zero"
  | .arithmetic .remainderByZero => "remainder by zero"
  | .inputExhausted => "input exhausted: expected an integer"
  | .invalidInput token => "invalid input '" ++ token ++ "': expected an integer"
  | .depthLimit depth maxDepth =>
    "evaluation stack overflow: depth " ++ Decimal.text depth ++ " exceeds maximum of " ++
      Decimal.text maxDepth
  | .iterationLimit n => "loop iteration limit of " ++ Decimal.text n ++ " exceeded"
  | .outOfBounds access => access.message
  | .notAVariable symbol =>
    "operator '" ++ symbol ++ "' applied to something that is not a variable"
  | .unresolved name => "variable '" ++ name ++ "' has no slot; the tree was not resolved"
  | .missingValue kind => kind.name ++ " node produced no value where one was required"
  | .device fault => "I/O error: " ++ fault.message

/-- The code of a cause. -/
def Cause.code : Cause → String
  | .arithmetic .divisionByZero => "R001"
  | .arithmetic .remainderByZero => "R002"
  | .inputExhausted => "R003"
  | .invalidInput _ => "R004"
  | .depthLimit .. | .iterationLimit _ | .outOfBounds _ => "L001"
  | .notAVariable _ | .unresolved _ | .missingValue _ => "I001"
  | .device _ => "IO01"

/-- The help that is given with a cause. -/
def Cause.help : Cause → Option String
  | .inputExhausted => some "supply more whitespace-separated integers on standard input"
  | .invalidInput _ => some "input must be whitespace-separated integers"
  | _ => none

/-- The cause of a fault of the input. -/
def Cause.ofInput : Input.Fault → Cause
  | .exhausted => .inputExhausted
  | .invalid token => .invalidInput token
  | .device fault => .device fault

/-- Whether a run can be repeated with more input. -/
def recoverable (f : Fault) : Bool := f.cause == .inputExhausted

/-- The diagnostic of a fault. -/
def diagnostic (f : Fault) : Diagnostic :=
  ⟨.error, f.cause.message, f.span, f.cause.help, some f.cause.code⟩

end Fault
end IntScript
