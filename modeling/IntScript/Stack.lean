import IntScript.Value

/-!
# The variable stack

Every variable of a program has a slot on the stack. A new stack holds zeros. Access to a slot
that is not there is refused and leaves the stack as it is.
-/

namespace IntScript

/-- The values of the variables, by slot. -/
structure Stack where
  /-- The value of each slot. -/
  values : Array Value
deriving DecidableEq, Inhabited

namespace Stack

/-- An access outside the stack. -/
structure OutOfBounds where
  /-- The slot that was asked for. -/
  slot : Nat
  /-- The number of slots that there are. -/
  size : Nat
deriving DecidableEq

/-- The wording of a refused access. -/
def OutOfBounds.message (e : OutOfBounds) : String :=
  "slot " ++ Decimal.text e.slot ++ " is out of bounds for a stack of " ++ Decimal.text e.size ++
    " slot(s)"

/-- A stack of `n` slots that all hold zero. -/
def zeros (n : Nat) : Stack := ⟨Array.replicate n 0⟩

/-- The number of slots. -/
def size (s : Stack) : Nat := s.values.size

/-- The value of a slot. -/
def read (s : Stack) (slot : Nat) : Except OutOfBounds Value :=
  match s.values[slot]? with
  | some v => .ok v
  | none => .error ⟨slot, s.size⟩

/-- The stack with a new value in one slot. -/
def write (s : Stack) (slot : Nat) (v : Value) : Except OutOfBounds Stack :=
  if slot < s.size then .ok ⟨s.values.setIfInBounds slot v⟩ else .error ⟨slot, s.size⟩

/-- The slots with their values, in order. -/
def entries (s : Stack) : List (Nat × Value) :=
  s.values.toList.zipIdx.map fun (v, i) => (i, v)

end Stack
end IntScript
