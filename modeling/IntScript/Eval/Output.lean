import IntScript.Eval.Input

/-!
# Program output

The output of a program is a row of bytes. An output may have room for a limited number of bytes
only: it keeps the bytes that fit and refuses the write that goes beyond them.
-/

namespace IntScript

/-- What a program has written, and how its output behaves. -/
structure Output where
  /-- The bytes that were written and kept. -/
  written : Array UInt8 := #[]
  /-- The number of bytes that there is room for. -/
  limit : Option Nat := none
  /-- What is reported when a write does not fit. -/
  whenFull : DeviceFault := .outputFull
  /-- Whether flushing fails. -/
  flushFails : Bool := false

namespace Output

/-- The number of bytes that can still be written. -/
def room (out : Output) : Option Nat := out.limit.map (· - out.written.size)

/-- Writes bytes. If there is no room for all of them, those that fit are kept and the write
fails. -/
def write (out : Output) (bytes : List UInt8) : Except DeviceFault Unit × Output :=
  match out.room with
  | some n =>
    if bytes.length ≤ n then (.ok (), { out with written := out.written ++ bytes })
    else (.error out.whenFull, { out with written := out.written ++ bytes.take n })
  | none => (.ok (), { out with written := out.written ++ bytes })

/-- Brings what was written to its destination. -/
def flush (out : Output) : Except DeviceFault Unit :=
  if out.flushFails then .error .flushFailed else .ok ()

/-- The text that was written; a character that did not fit as a whole is shown as U+FFFD. -/
def text (out : Output) : String := String.ofList (Text.decodeCut out.written.toList)

end Output
end IntScript
