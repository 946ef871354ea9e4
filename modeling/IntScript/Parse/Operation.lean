import IntScript.Parse.Error
import IntScript.Tree.Basic

/-!
# Grouping of operators

An operation is a row of operands with operators before, behind and between them. Operators behind
an operand bind most tightly, then those before it, and those between operands by their strength;
of equally strong ones the left one comes first.

The row is grouped in one pass from left to right. Operators whose right operand is not complete
wait, the latest first. When an operator between operands comes, the waiting operators that are at
least as strong are applied to what stands before it.
-/

namespace IntScript.Operation

/-- A part of an operation. -/
inductive Item where
  /-- An operator before an operand. -/
  | before (op : UnaryOp) (span : Span)
  /-- An operand, or the error that it contains. -/
  | operand (result : Except ParseError (Tree Span))
  /-- An operator behind an operand. -/
  | behind (op : UnaryOp) (span : Span)
  /-- An operator between operands. -/
  | between (op : BinaryOp)

/-- An operator that waits for its right operand. -/
inductive Waiting where
  /-- An operator before its only operand. -/
  | unary (op : UnaryOp) (span : Span)
  /-- An operator with its left operand. -/
  | binary (left : Tree Span) (op : BinaryOp)

/-- The strength of a waiting operator; those before an operand are stronger than all others. -/
def Waiting.strength : Waiting → Nat
  | .unary .. => 5
  | .binary _ op => op.strength

/-- Gives a waiting operator its right operand. The spans of the operands, which leave out any
parentheses around them, make up the span of the result. -/
def Waiting.apply (w : Waiting) (t : Tree Span) : Tree Span :=
  match w with
  | .unary op span => .unary (span.combine t.label) op t
  | .binary left op => .binary (left.label.combine t.label) op left t

/-- Applies the waiting operators that are at least as strong as the given strength. -/
def settle (strength : Nat) : List Waiting → Tree Span → List Waiting × Tree Span
  | [], t => ([], t)
  | w :: ws, t => if strength ≤ w.strength then settle strength ws (w.apply t) else (w :: ws, t)

/-- Applies an operator behind an operand, which must be a variable. -/
def applyBehind (op : UnaryOp) (span : Span) (t : Tree Span) : Except ParseError (Tree Span) :=
  let whole := t.label.combine span
  match t.kind with
  | .var => .ok (.unary whole op t)
  | _ => .error ⟨.invalidIncrementTarget op, whole⟩

/-- The error of a row that is not an operation. The grammar does not let one pass. -/
def malformed : ParseError := ⟨.other "missing expected pair in rule", ⟨0, 0⟩⟩

mutual

/-- Goes on where an operand is expected. -/
def expectOperand (waiting : List Waiting) : List Item → Except ParseError (Tree Span)
  | .before op span :: items => expectOperand (.unary op span :: waiting) items
  | .operand result :: items => do
    let t ← result
    expectOperator waiting t items
  | _ => .error malformed

/-- Goes on behind an operand. -/
def expectOperator (waiting : List Waiting) (t : Tree Span) :
    List Item → Except ParseError (Tree Span)
  | [] => .ok (settle 0 waiting t).2
  | .behind op span :: items => do
    let t ← applyBehind op span t
    expectOperator waiting t items
  | .between op :: items =>
    let (waiting, left) := settle op.strength waiting t
    expectOperand (.binary left op :: waiting) items
  | _ => .error malformed

end

/-- The tree of an operation, or the error that comes first in it. -/
def group (items : List Item) : Except ParseError (Tree Span) := expectOperand [] items

end IntScript.Operation
