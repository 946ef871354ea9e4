import IntScript.Parse.Build
import IntScript.Tree.Numbered

/-!
# Trees in an arena

The parser allocates the nodes of a tree in an arena, one after the other: a node comes behind all
nodes below it, and its identity is its place in the arena. A block in the place of a branch or of
a loop body stays the node that it is, and any other statement there gets a block around it.

Apart from the identities, the trees are those of `Build`, and so are the errors.
-/

namespace IntScript

/-- A computation that can allocate nodes. It starts with the number of nodes that are there already
and ends with the number of those that are there then. -/
abbrev Builder (α : Type) := StateT Nat (Except ParseError) α

namespace Arena

open Grammar (Rule Fragment)

/-- Allocates a node with the given span. -/
def node (span : Span) (make : Mark → Tree Mark) : Builder (Tree Mark) :=
  fun n => .ok (make ⟨n, some span⟩, n + 1)

/-- The span that was given to a node. -/
def spanOf (t : Tree Mark) : Span := t.span?.getD ⟨0, 0⟩

/-- A part of an operation. -/
inductive Item where
  /-- An operator before an operand. -/
  | before (op : UnaryOp) (span : Span)
  /-- An operand that is still to be built. -/
  | operand (builder : Builder (Tree Mark))
  /-- An operator behind an operand. -/
  | behind (op : UnaryOp) (span : Span)
  /-- An operator between operands. -/
  | between (op : BinaryOp)

/-- An operator that waits for its right operand. -/
inductive Waiting where
  /-- An operator before its only operand. -/
  | unary (op : UnaryOp) (span : Span)
  /-- An operator with its left operand. -/
  | binary (left : Tree Mark) (op : BinaryOp)

/-- The strength of a waiting operator. -/
def Waiting.strength : Waiting → Nat
  | .unary .. => 5
  | .binary _ op => op.strength

/-- Gives a waiting operator its right operand. -/
def Waiting.apply (w : Waiting) (t : Tree Mark) : Builder (Tree Mark) :=
  match w with
  | .unary op span => node (span.combine (spanOf t)) (.unary · op t)
  | .binary left op => node ((spanOf left).combine (spanOf t)) (.binary · op left t)

/-- Applies the waiting operators that are at least as strong as the given strength. -/
def settle (strength : Nat) : List Waiting → Tree Mark → Builder (List Waiting × Tree Mark)
  | [], t => return ([], t)
  | w :: ws, t =>
    if strength ≤ w.strength then do
      let t ← w.apply t
      settle strength ws t
    else return (w :: ws, t)

/-- Applies an operator behind an operand, which must be a variable. -/
def applyBehind (op : UnaryOp) (span : Span) (t : Tree Mark) : Builder (Tree Mark) :=
  let whole := (spanOf t).combine span
  match t.kind with
  | .var => node whole (.unary · op t)
  | _ => throw ⟨.invalidIncrementTarget op, whole⟩

mutual

/-- Goes on where an operand is expected. -/
def expectOperand (waiting : List Waiting) : List Item → Builder (Tree Mark)
  | .before op span :: items => expectOperand (.unary op span :: waiting) items
  | .operand builder :: items => do
    let t ← builder
    expectOperator waiting t items
  | _ => throw Operation.malformed

/-- Goes on behind an operand. -/
def expectOperator (waiting : List Waiting) (t : Tree Mark) : List Item → Builder (Tree Mark)
  | [] => do
    let (_, t) ← settle 0 waiting t
    return t
  | .behind op span :: items => do
    let t ← applyBehind op span t
    expectOperator waiting t items
  | .between op :: items => do
    let (waiting, left) ← settle op.strength waiting t
    expectOperand (.binary left op :: waiting) items
  | _ => throw Operation.malformed

end

/-- The part of an operation that a fragment stands for, given how to build it as an operand. -/
def item (f : Fragment) (operand : Builder (Tree Mark)) : Item :=
  match Build.operatorBefore? f.rule, Build.operatorBehind? f.rule,
    Build.operatorBetween? f.rule with
  | some op, _, _ => .before op f.span
  | _, some op, _ => .behind op f.span
  | _, _, some op => .between op
  | _, _, _ => .operand operand

/-- Builds a number. -/
def number (start : Nat) (text : List Char) : Builder (Tree Mark) :=
  let span : Span := ⟨start, start + Text.byteLength text⟩
  match Decimal.int64? text with
  | some v => node span (.literal · v)
  | none => throw ⟨.invalidNumber (String.ofList text), span⟩

mutual

/-- Builds an expression. -/
def expression : Fragment → Builder (Tree Mark)
  | .phrase .assignment start stop [target, value] => do
    let t ← expression target
    let v ← expression value
    node ⟨start, stop⟩ (.assign · t v)
  | .phrase .printExpression start stop [.word .printWord _ _, operand] => do
    let t ← expression operand
    node ⟨start, stop⟩ (.print · t)
  | .phrase .operation _ _ inner => expectOperand [] (items inner)
  | .word .integer start text => number start text
  | .word .input start text => node ⟨start, start + Text.byteLength text⟩ .input
  | .word .identifier start text =>
    node ⟨start, start + Text.byteLength text⟩ (.var · (String.ofList text))
  | f => throw (Build.misplaced f)

/-- The parts of an operation. -/
def items : List Fragment → List Item
  | [] => []
  | f :: fs => item f (expression f) :: items fs

end

/-- Builds a condition. -/
def condition (f : Fragment) : Builder (Tree Mark) := do
  let t ← expression f
  node f.span (.condition · t)

/-- A branch or loop body is a block: a block is the node that it was, and any other statement
becomes the only one of a new block with the same span. -/
def asBlock (t : Tree Mark) : Builder (Tree Mark) :=
  if t.kind = .block then return t else node (spanOf t) (.block · [t])

mutual

/-- Builds a statement. -/
def statement : Fragment → Builder (Tree Mark)
  | .phrase .scope start stop inner => do
    let ts ← statements inner
    node ⟨start, stop⟩ (.block · ts)
  | .phrase .expressionStatement start stop [e] => do
    let t ← expression e
    node ⟨start, stop⟩ (.ofExpression · t)
  | .phrase .ifStatement start stop [.word .ifWord _ _, c, whenTrue] => do
    let c ← condition c
    let t ← statement whenTrue >>= asBlock
    node ⟨start, stop⟩ (.ifElse · c t none)
  | .phrase .ifStatement start stop
      [.word .ifWord _ _, c, whenTrue, .word .elseWord _ _, whenFalse] => do
    let c ← condition c
    let t ← statement whenTrue >>= asBlock
    let e ← statement whenFalse >>= asBlock
    node ⟨start, stop⟩ (.ifElse · c t (some e))
  | .phrase .whileStatement start stop [.word .whileWord _ _, c, body] => do
    let c ← condition c
    let b ← statement body >>= asBlock
    node ⟨start, stop⟩ (.whileLoop · c b)
  | f => throw (Build.misplaced f)

/-- Builds statements, up to the end of the input. -/
def statements : List Fragment → Builder (List (Tree Mark))
  | [] => return []
  | [.word .endOfInput _ _] => return []
  | f :: fs => do
    let t ← statement f
    let ts ← statements fs
    return t :: ts

end

/-- Builds a program. -/
def program : List Fragment → Builder (Tree Mark)
  | [.phrase .program start stop inner] => do
    let ts ← statements inner
    node ⟨start, stop⟩ (.block · ts)
  | _ => throw Operation.malformed

end Arena

end IntScript
