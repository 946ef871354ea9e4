import IntScript.Eval.Fault
import IntScript.Resolve

/-!
# The machine

A running program works on a machine: the stack with its variables, its input and output, and a
count of the loop bodies that were started. An execution takes a machine and gives an outcome and
the machine as it is left, whether it succeeds or not.

A loop may run forever, so executions are given patience: the number of rounds that each loop may
take. An execution that runs out of patience is unfinished, which is an outcome apart from success
and failure.
-/

namespace IntScript

/-- How an execution ends. -/
inductive Outcome (ε α : Type) where
  /-- It succeeds with a result. -/
  | done (result : α)
  /-- It fails. -/
  | failed (fault : ε)
  /-- It was given up. -/
  | unfinished
deriving DecidableEq

/-- The state of a running program. -/
structure Machine where
  /-- The variables. -/
  stack : Stack
  /-- The input that is left. -/
  input : Input
  /-- The output so far. -/
  output : Output
  /-- The number of loop bodies started so far, in all loops together. -/
  iterations : Nat

/-- An execution with results of type `α`. -/
def Exec (α : Type) : Type := Machine → Outcome Fault α × Machine

namespace Exec

/-- The execution that does nothing. -/
protected def pure {α : Type} (a : α) : Exec α := fun m => (.done a, m)

/-- One execution, then another that depends on its result. A failure ends the whole. -/
protected def bind {α β : Type} (x : Exec α) (f : α → Exec β) : Exec β := fun m =>
  match x m with
  | (.done a, m) => f a m
  | (.failed e, m) => (.failed e, m)
  | (.unfinished, m) => (.unfinished, m)

instance : Monad Exec where
  pure := Exec.pure
  bind := Exec.bind

/-- The execution that fails. -/
def fail {α : Type} (f : Fault) : Exec α := fun m => (.failed f, m)

/-- The execution that is given up. -/
def giveUp {α : Type} : Exec α := fun m => (.unfinished, m)

/-- Rounds of a loop: while the test yields true the body is executed, for at most the given
number of rounds. -/
def loop (test : Exec Bool) (body : Exec Unit) : Nat → Exec Unit
  | 0 => giveUp
  | patience + 1 => fun m =>
    match test m with
    | (.done true, m) =>
      match body m with
      | (.done _, m) => loop test body patience m
      | (.failed e, m) => (.failed e, m)
      | (.unfinished, m) => (.unfinished, m)
    | (.done false, m) => (.done (), m)
    | (.failed e, m) => (.failed e, m)
    | (.unfinished, m) => (.unfinished, m)

end Exec
end IntScript
