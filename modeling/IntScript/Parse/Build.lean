import IntScript.Grammar.Reading
import IntScript.Parse.Operation

/-!
# Trees from fragments

The fragments that the grammar finds in a text are put together to a tree. Every node is labelled
with its span. What the grammar leaves open is checked here: numbers must fit in 64 bits, and only
variables can be incremented or decremented. The first offence in the order of the text is
reported.
-/

namespace IntScript

namespace Grammar.Fragment

/-- The rule by which a fragment was read. -/
def rule : Fragment → Rule
  | .word r _ _ => r
  | .phrase r _ _ _ => r

/-- The span of a fragment. -/
def span : Fragment → Span
  | .word _ start text => ⟨start, start + Text.byteLength text⟩
  | .phrase _ start stop _ => ⟨start, stop⟩

end Grammar.Fragment

namespace Build

open Grammar (Rule Fragment)

/-- The error of a fragment that does not belong where it stands. -/
def misplaced (f : Fragment) : ParseError := ⟨.other ("unexpected rule " ++ f.rule.name), f.span⟩

/-- The operator that a word stands for before an operand. -/
def operatorBefore? : Rule → Option UnaryOp
  | .neg => some .neg
  | .not => some .not
  | _ => none

/-- The operator that a word stands for behind an operand. -/
def operatorBehind? : Rule → Option UnaryOp
  | .inc => some .increment
  | .dec => some .decrement
  | _ => none

/-- The operator that a word stands for between operands. -/
def operatorBetween? : Rule → Option BinaryOp
  | .add => some .add
  | .sub => some .sub
  | .mul => some .mul
  | .div => some .div
  | .rem => some .mod
  | .eq => some .eq
  | .ne => some .ne
  | .lt => some .lt
  | .le => some .le
  | .gt => some .gt
  | .ge => some .ge
  | .and => some .and
  | .or => some .or
  | _ => none

/-- The tree of a number. -/
def number (start : Nat) (text : List Char) : Except ParseError (Tree Span) :=
  let span : Span := ⟨start, start + Text.byteLength text⟩
  match Decimal.int64? text with
  | some v => .ok (.literal span v)
  | none => .error ⟨.invalidNumber (String.ofList text), span⟩

/-- The part of an operation that a fragment stands for, given the result of reading it as an
operand. -/
def item (f : Fragment) (operand : Except ParseError (Tree Span)) : Operation.Item :=
  match operatorBefore? f.rule, operatorBehind? f.rule, operatorBetween? f.rule with
  | some op, _, _ => .before op f.span
  | _, some op, _ => .behind op f.span
  | _, _, some op => .between op
  | _, _, _ => .operand operand

mutual

/-- The tree of an expression. -/
def expression : Fragment → Except ParseError (Tree Span)
  | .phrase .assignment start stop [target, value] => do
    let t ← expression target
    let v ← expression value
    return .assign ⟨start, stop⟩ t v
  | .phrase .printExpression start stop [.word .printWord _ _, operand] => do
    let t ← expression operand
    return .print ⟨start, stop⟩ t
  | .phrase .operation _ _ inner => Operation.group (items inner)
  | .word .integer start text => number start text
  | .word .input start text => .ok (.input ⟨start, start + Text.byteLength text⟩)
  | .word .identifier start text =>
    .ok (.var ⟨start, start + Text.byteLength text⟩ (String.ofList text))
  | f => .error (misplaced f)

/-- The parts of an operation. -/
def items : List Fragment → List Operation.Item
  | [] => []
  | f :: fs => item f (expression f) :: items fs

end

/-- The tree of a condition. -/
def condition (f : Fragment) : Except ParseError (Tree Span) := do
  let t ← expression f
  return .condition f.span t

/-- A branch or loop body is a block; a lone statement becomes a block of the same span. -/
def asBlock (t : Tree Span) : Tree Span := t.wrapBlock t.label

mutual

/-- The tree of a statement. -/
def statement : Fragment → Except ParseError (Tree Span)
  | .phrase .scope start stop inner => do
    let ts ← statements inner
    return .block ⟨start, stop⟩ ts
  | .phrase .expressionStatement start stop [e] => do
    let t ← expression e
    return .ofExpression ⟨start, stop⟩ t
  | .phrase .ifStatement start stop [.word .ifWord _ _, c, whenTrue] => do
    let c ← condition c
    let t ← statement whenTrue
    return .ifElse ⟨start, stop⟩ c (asBlock t) none
  | .phrase .ifStatement start stop
      [.word .ifWord _ _, c, whenTrue, .word .elseWord _ _, whenFalse] => do
    let c ← condition c
    let t ← statement whenTrue
    let e ← statement whenFalse
    return .ifElse ⟨start, stop⟩ c (asBlock t) (some (asBlock e))
  | .phrase .whileStatement start stop [.word .whileWord _ _, c, body] => do
    let c ← condition c
    let b ← statement body
    return .whileLoop ⟨start, stop⟩ c (asBlock b)
  | f => .error (misplaced f)

/-- The trees of statements, up to the end of the input. -/
def statements : List Fragment → Except ParseError (List (Tree Span))
  | [] => .ok []
  | [.word .endOfInput _ _] => .ok []
  | f :: fs => do
    let t ← statement f
    let ts ← statements fs
    return t :: ts

end

/-- The tree of a program. -/
def program : List Fragment → Except ParseError (Tree Span)
  | [.phrase .program start stop inner] => do
    let ts ← statements inner
    return .block ⟨start, stop⟩ ts
  | _ => .error Operation.malformed

end Build

end IntScript
