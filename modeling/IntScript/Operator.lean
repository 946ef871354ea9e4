import IntScript.Value

/-!
# Operators

The binary and unary operators of the language, their spelling and what they compute. Arithmetic
wraps around at 64 bits and division rounds toward zero. Comparisons and logical operators yield
zero or one, and both operands of a logical operator are always used. Only division and remainder
can fail.
-/

namespace IntScript

/-- The operators with two operands. -/
inductive BinaryOp where
  | add | sub | mul | div | mod
  | eq | ne | lt | le | gt | ge
  | and | or
deriving DecidableEq, Inhabited

/-- The operators with one operand. -/
inductive UnaryOp where
  | neg | not | increment | decrement
deriving DecidableEq, Inhabited

/-- The ways in which an operator can fail. -/
inductive ArithmeticFault where
  /-- The right operand of a division is zero. -/
  | divisionByZero
  /-- The right operand of a remainder is zero. -/
  | remainderByZero
deriving DecidableEq

namespace BinaryOp

/-- All binary operators. -/
def all : List BinaryOp :=
  [.add, .sub, .mul, .div, .mod, .eq, .ne, .lt, .le, .gt, .ge, .and, .or]

/-- The spelling of an operator in a program. -/
def symbol : BinaryOp → String
  | .add => "+"
  | .sub => "-"
  | .mul => "*"
  | .div => "/"
  | .mod => "%"
  | .eq => "=="
  | .ne => "!="
  | .lt => "<"
  | .le => "<="
  | .gt => ">"
  | .ge => ">="
  | .and => "&&"
  | .or => "||"

/-- The name of an operator in a tree listing. -/
def name : BinaryOp → String
  | .add => "Add"
  | .sub => "Sub"
  | .mul => "Mul"
  | .div => "Div"
  | .mod => "Mod"
  | .eq => "Eq"
  | .ne => "Ne"
  | .lt => "Lt"
  | .le => "Le"
  | .gt => "Gt"
  | .ge => "Ge"
  | .and => "And"
  | .or => "Or"

/-- How tightly an operator binds. Operators of equal strength group from the left. -/
def strength : BinaryOp → Nat
  | .and | .or => 1
  | .eq | .ne | .lt | .le | .gt | .ge => 2
  | .add | .sub => 3
  | .mul | .div | .mod => 4

/-- The result of an operator. -/
def apply (op : BinaryOp) (l r : Value) : Except ArithmeticFault Value :=
  match op with
  | .add => .ok (l + r)
  | .sub => .ok (l - r)
  | .mul => .ok (l * r)
  | .div => if r = 0 then .error .divisionByZero else .ok (l / r)
  | .mod => if r = 0 then .error .remainderByZero else .ok (l % r)
  | .eq => .ok (Value.ofBool (l == r))
  | .ne => .ok (Value.ofBool (l != r))
  | .lt => .ok (Value.ofBool (decide (l < r)))
  | .le => .ok (Value.ofBool (decide (l ≤ r)))
  | .gt => .ok (Value.ofBool (decide (r < l)))
  | .ge => .ok (Value.ofBool (decide (r ≤ l)))
  | .and => .ok (Value.ofBool (Value.truthy l && Value.truthy r))
  | .or => .ok (Value.ofBool (Value.truthy l || Value.truthy r))

end BinaryOp

namespace UnaryOp

/-- All unary operators. -/
def all : List UnaryOp := [.neg, .not, .increment, .decrement]

/-- The spelling of an operator in a program. -/
def symbol : UnaryOp → String
  | .neg => "-"
  | .not => "!"
  | .increment => "++"
  | .decrement => "--"

/-- The name of an operator in a tree listing. -/
def name : UnaryOp → String
  | .neg => "Neg"
  | .not => "Not"
  | .increment => "PostInc"
  | .decrement => "PostDec"

/-- Whether an operator writes its result back into its operand. -/
def mutates : UnaryOp → Bool
  | .neg | .not => false
  | .increment | .decrement => true

/-- The result of an operator, also for those that write it back. -/
def apply (op : UnaryOp) (v : Value) : Value :=
  match op with
  | .neg => -v
  | .not => Value.ofBool (!Value.truthy v)
  | .increment => v + 1
  | .decrement => v - 1

end UnaryOp
end IntScript
