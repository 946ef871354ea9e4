import IntScript.Operator
import IntScript.Span

/-!
# Syntax trees

A program is a tree of expressions and statements. Every node carries a label of a type of the
user's choice: the parser labels a node with its span, and a numbered tree gives every node an
identity beside it. Two nodes with the same identity are one node that is used twice.

The tree type is wider than the language: it also holds trees that no program text denotes, such as
an assignment to a number. What such trees do is defined wherever trees are used.
-/

namespace IntScript

/-- A tree of expressions and statements whose nodes carry labels of type `α`. -/
inductive Tree (α : Type) where
  /-- A number. -/
  | literal (label : α) (value : Value)
  /-- The next number of the input. -/
  | input (label : α)
  /-- The value of a variable. -/
  | var (label : α) (name : String)
  /-- An operator between two operands. -/
  | binary (label : α) (op : BinaryOp) (left right : Tree α)
  /-- An operator on one operand. -/
  | unary (label : α) (op : UnaryOp) (operand : Tree α)
  /-- An assignment. -/
  | assign (label : α) (target value : Tree α)
  /-- An expression in the place of a statement, with what is to follow it. -/
  | sequence (label : α) (current : Tree α) (rest : Option (Tree α))
  /-- Statements in order. -/
  | block (label : α) (statements : List (Tree α))
  /-- The condition of a branch or loop. -/
  | condition (label : α) (operand : Tree α)
  /-- A branch. -/
  | ifElse (label : α) (condition whenTrue : Tree α) (whenFalse : Option (Tree α))
  /-- A loop. -/
  | whileLoop (label : α) (condition body : Tree α)
  /-- An expression whose value is printed. -/
  | print (label : α) (operand : Tree α)

/-- The twelve kinds of node. -/
inductive Kind where
  | literal | input | var | binary | unary | assign
  | sequence | block | condition | ifElse | whileLoop | print
deriving DecidableEq

/-- The name of a kind in messages. -/
def Kind.name : Kind → String
  | .literal => "literal"
  | .input => "input"
  | .var => "variable"
  | .binary => "binary operation"
  | .unary => "unary operation"
  | .assign => "assignment"
  | .sequence => "expression"
  | .block => "block"
  | .condition => "condition"
  | .ifElse => "if"
  | .whileLoop => "while"
  | .print => "print"

/-- The part that a child plays in its parent. -/
inductive Role where
  | left | right | operand | target | assigned | current | rest
  /-- The position of a statement in a block, counted from one. -/
  | statement (position : Nat)
  | condition | whenTrue | whenFalse | body | printed
deriving DecidableEq

/-- The text of a role. -/
def Role.text : Role → String
  | .left => "left"
  | .right => "right"
  | .operand => "operand"
  | .target => "assignable"
  | .assigned => "to assign"
  | .current => "expression"
  | .rest => "continuing"
  | .statement n => "statement " ++ Decimal.text n
  | .condition => "condition"
  | .whenTrue => "true"
  | .whenFalse => "false"
  | .body => "body"
  | .printed => "printed"

namespace Tree

/-- The label of the root. -/
def label {α : Type} : Tree α → α
  | .literal a _ | .input a | .var a _ | .binary a _ _ _ | .unary a _ _ | .assign a _ _
  | .sequence a _ _ | .block a _ | .condition a _ | .ifElse a _ _ _ | .whileLoop a _ _
  | .print a _ => a

/-- The kind of the root. -/
def kind {α : Type} : Tree α → Kind
  | .literal .. => .literal
  | .input .. => .input
  | .var .. => .var
  | .binary .. => .binary
  | .unary .. => .unary
  | .assign .. => .assign
  | .sequence .. => .sequence
  | .block .. => .block
  | .condition .. => .condition
  | .ifElse .. => .ifElse
  | .whileLoop .. => .whileLoop
  | .print .. => .print

/-- Whether a node is of a kind that has no children. -/
def isLeaf {α : Type} (t : Tree α) : Bool :=
  t.kind == .literal || t.kind == .input || t.kind == .var

/-- The name, if the tree is a variable. -/
def name? {α : Type} : Tree α → Option String
  | .var _ name => some name
  | _ => none

/-- The statements, if the tree is a block. -/
def statements? {α : Type} : Tree α → Option (List (Tree α))
  | .block _ statements => some statements
  | _ => none

/-- The children of a node with the parts that they play, in the order of evaluation. -/
def children {α : Type} : Tree α → List (Role × Tree α)
  | .literal .. | .input .. | .var .. => []
  | .binary _ _ l r => [(.left, l), (.right, r)]
  | .unary _ _ t => [(.operand, t)]
  | .assign _ t v => [(.target, t), (.assigned, v)]
  | .sequence _ c none => [(.current, c)]
  | .sequence _ c (some r) => [(.current, c), (.rest, r)]
  | .block _ ts => ts.zipIdx.map fun (t, i) => (.statement (i + 1), t)
  | .condition _ t => [(.operand, t)]
  | .ifElse _ c t none => [(.condition, c), (.whenTrue, t)]
  | .ifElse _ c t (some e) => [(.condition, c), (.whenTrue, t), (.whenFalse, e)]
  | .whileLoop _ c b => [(.condition, c), (.body, b)]
  | .print _ t => [(.printed, t)]

/-- A statement that evaluates an expression. -/
def ofExpression {α : Type} (label : α) (expression : Tree α) : Tree α :=
  .sequence label expression none

/-- A block is left as it is, and any other tree becomes the one statement of a block with the
given label. -/
def wrapBlock {α : Type} (label : α) : Tree α → Tree α
  | .block a statements => .block a statements
  | t => .block label [t]

mutual

/-- The tree with other labels. -/
def relabel {α β : Type} (f : α → β) : Tree α → Tree β
  | .literal a v => .literal (f a) v
  | .input a => .input (f a)
  | .var a name => .var (f a) name
  | .binary a op l r => .binary (f a) op (relabel f l) (relabel f r)
  | .unary a op t => .unary (f a) op (relabel f t)
  | .assign a t v => .assign (f a) (relabel f t) (relabel f v)
  | .sequence a c none => .sequence (f a) (relabel f c) none
  | .sequence a c (some r) => .sequence (f a) (relabel f c) (some (relabel f r))
  | .block a ts => .block (f a) (relabelAll f ts)
  | .condition a t => .condition (f a) (relabel f t)
  | .ifElse a c t none => .ifElse (f a) (relabel f c) (relabel f t) none
  | .ifElse a c t (some e) => .ifElse (f a) (relabel f c) (relabel f t) (some (relabel f e))
  | .whileLoop a c b => .whileLoop (f a) (relabel f c) (relabel f b)
  | .print a t => .print (f a) (relabel f t)

/-- The statements of a block with other labels. -/
def relabelAll {α β : Type} (f : α → β) : List (Tree α) → List (Tree β)
  | [] => []
  | t :: ts => relabel f t :: relabelAll f ts

end

end Tree
end IntScript
