import IntScript.Text.Blank
import IntScript.Text.Utf8
import IntScript.Value

/-!
# Program input

The input of a program is a row of integers in a stream of bytes, with blank characters between
them. The stream is taken line by line, and a line is looked at only when a number is asked for and
none is left of the line before. A line that is not valid UTF-8 is passed over as a whole with an
error, and so is a word that is not a number.

The device behind the stream may fail once when its last byte has been read; a line that it has not
completed by then is lost.
-/

namespace IntScript

/-- Failures of the devices that a program reads from and writes to. -/
inductive DeviceFault where
  /-- The input could not be read. -/
  | inputFailed
  /-- A line of the input is not valid UTF-8. -/
  | notUtf8
  /-- The output takes no more bytes. -/
  | outputFull
  /-- The output took none of the bytes it was given. -/
  | outputStopped
  /-- The output could not be brought to its destination. -/
  | flushFailed
deriving DecidableEq

/-- The wording of a device failure. -/
def DeviceFault.message : DeviceFault → String
  | .inputFailed => "input device failed"
  | .notUtf8 => "stream did not contain valid UTF-8"
  | .outputFull => "sink full"
  | .outputStopped => "failed to write whole buffer"
  | .flushFailed => "flush failed"

/-- What is left of the input of a program. -/
structure Input where
  /-- The words that are left of the current line. -/
  pending : List (List Char)
  /-- The lines that have not been looked at, each with its newline if it has one. -/
  lines : List (List UInt8)
  /-- Whether the device fails once behind the last line. -/
  fails : Bool

namespace Input

/-- Why no number could be read. -/
inductive Fault where
  /-- There is no further word. -/
  | exhausted
  /-- The next word is not a number that fits in 64 bits. -/
  | invalid (token : String)
  /-- The device failed. -/
  | device (fault : DeviceFault)
deriving DecidableEq

/-- The wording of a fault. -/
def Fault.message : Fault → String
  | .exhausted => "input exhausted"
  | .invalid token => "invalid integer '" ++ token ++ "'"
  | .device fault => fault.message

/-- The lines of a stream of bytes, each with the newline byte that ends it. -/
def splitLines : List UInt8 → List (List UInt8)
  | [] => []
  | b :: bs =>
    if b = 10 then [b] :: splitLines bs
    else match splitLines bs with
      | [] => [[b]]
      | l :: ls => (b :: l) :: ls

/-- The lines that a device delivers which fails behind the given ones: all but an incomplete last
line. -/
def completeLines : List (List UInt8) → List (List UInt8)
  | [] => []
  | l :: ls => if l.getLast? = some 10 then l :: completeLines ls else completeLines ls

/-- The input that consists of the given bytes. -/
def ofBytes (bytes : List UInt8) (fails : Bool) : Input :=
  let lines := splitLines bytes
  ⟨[], if fails then completeLines lines else lines, fails⟩

/-- The number that a word denotes. -/
def number (word : List Char) : Except Fault Value :=
  match Decimal.int64? word with
  | some v => .ok v
  | none => .error (.invalid (String.ofList word))

/-- Reads a number from the first line that holds a word. -/
def nextOfLines (fails : Bool) : List (List UInt8) → Except Fault Value × Input
  | [] => (.error (if fails then .device .inputFailed else .exhausted), ⟨[], [], false⟩)
  | l :: ls =>
    match Text.decode? l with
    | none => (.error (.device .notUtf8), ⟨[], ls, fails⟩)
    | some text =>
      match Text.words text with
      | [] => nextOfLines fails ls
      | w :: ws => (number w, ⟨ws, ls, fails⟩)

/-- Reads the next number. -/
def next (input : Input) : Except Fault Value × Input :=
  match input.pending with
  | w :: ws => (number w, { input with pending := ws })
  | [] => nextOfLines input.fails input.lines

end Input
end IntScript
