import IntScript.Text.Decimal

/-!
# Values

The only values of the language are signed 64-bit integers. Zero stands for false and every other
value for true; the language itself yields one for true.
-/

namespace IntScript

/-- A value of the language. -/
abbrev Value := Int64

namespace Value

/-- The value of a truth value. -/
def ofBool (b : Bool) : Value := if b then 1 else 0

/-- Whether a value counts as true. -/
def truthy (v : Value) : Bool := v != 0

/-- The characters that a value is printed as. -/
def chars (v : Value) : List Char := Decimal.ofInt v.toInt

/-- The text that a value is printed as. -/
def text (v : Value) : String := String.ofList (chars v)

/-- The text of a value with its kind. -/
def describe (v : Value) : String := "Int(" ++ text v ++ ")"

end Value
end IntScript
