/-!
# Decimal numbers

Integers are written with the fewest decimal digits, a minus sign first if they are negative.
A signed number is read from an optional sign and one or more ASCII digits; leading zeros are
allowed. Numbers outside the 64-bit range are not read at all.
-/

namespace IntScript.Decimal

/-- The digit for a number below ten. -/
def digit (n : Nat) : Char := Char.ofNat (48 + n)

/-- The decimal digits of a natural number, the most significant first. -/
def ofNat (n : Nat) : List Char :=
  if n < 10 then [digit n] else ofNat (n / 10) ++ [digit (n % 10)]
termination_by n
decreasing_by omega

/-- The decimal form of an integer. -/
def ofInt : Int → List Char
  | .ofNat n => ofNat n
  | .negSucc n => '-' :: ofNat (n + 1)

/-- The decimal form of a natural number as a string. -/
def text (n : Nat) : String := String.ofList (ofNat n)

/-- The number that a list of digits denotes. -/
def value (ds : List Char) : Nat :=
  ds.foldl (fun n d => 10 * n + (d.toNat - 48)) 0

/-- Reads one or more digits and nothing else. -/
def nat? (ds : List Char) : Option Nat :=
  if !ds.isEmpty && ds.all Char.isDigit then some (value ds) else none

/-- Reads an optional sign followed by one or more digits. -/
def int? : List Char → Option Int
  | '-' :: ds => (nat? ds).map fun n => -(n : Int)
  | '+' :: ds => (nat? ds).map Int.ofNat
  | ds => (nat? ds).map Int.ofNat

/-- Reads a signed number that fits in 64 bits. -/
def int64? (cs : List Char) : Option Int64 :=
  (int? cs).bind fun n =>
    if Int64.minValue.toInt ≤ n ∧ n ≤ Int64.maxValue.toInt then some (Int64.ofInt n) else none

/-- Reads an unsigned number that fits in 64 bits; a plus sign may stand before it. -/
def unsigned64? (cs : List Char) : Option Nat :=
  let ds := match cs with
    | '+' :: ds => ds
    | ds => ds
  (nat? ds).bind fun n => if n < UInt64.size then some n else none

end IntScript.Decimal
