import IntScript.Resolve

/-!
# Texts of a tree

Two texts describe a tree: the caption of a single node, and the structural text of a whole tree,
which spells out its kinds, operators, numbers, names and slots and nothing else.
-/

namespace IntScript.Tree

/-- The caption of a node. -/
def caption (ann : Annotations) : Tree Mark → String
  | .literal _ v => Value.text v
  | .input _ => "Input"
  | .var m name =>
    name ++ "\nslot: " ++ match ann.slot? (.var m name) with
      | some slot => Decimal.text slot
      | none => "unresolved"
  | .binary _ op _ _ => "Binary operation (" ++ op.symbol ++ ")"
  | .unary _ op _ => "Unary operation (" ++ op.symbol ++ ")"
  | .assign .. => "Assignment (a = b)"
  | .sequence .. => "Expression"
  | .block m statements =>
    let number := match ann.block? (.block m statements) with
      | some b => "id = " ++ Decimal.text b.id ++ ", order = " ++ Decimal.text b.order ++ "\n"
      | none => ""
    "Block\n" ++ number ++ "statements: " ++ Decimal.text statements.length
  | .condition .. => "Condition"
  | .ifElse _ _ _ none => "If"
  | .ifElse _ _ _ (some _) => "If / else"
  | .whileLoop .. => "While"
  | .print .. => "Print"

/-- Braces around the fields of a node. -/
def braced (head fields : String) : String := head ++ " \x7b " ++ fields ++ " \x7d"

mutual

/-- The structural text of a tree. -/
@[simp]
def structureText (ann : Annotations) : Tree Mark → String
  | .literal _ v => "Literal(" ++ Value.text v ++ ")"
  | .input _ => "Input"
  | .var m name =>
    "Variable(" ++ name ++ "@" ++ (match ann.slot? (.var m name) with
      | some slot => Decimal.text slot
      | none => "?") ++ ")"
  | .binary _ op l r =>
    braced "Binary" ("op: " ++ op.name ++ ", left: " ++ structureText ann l ++ ", right: " ++
      structureText ann r)
  | .unary _ op t => braced "Unary" ("op: " ++ op.name ++ ", operand: " ++ structureText ann t)
  | .assign _ t v =>
    braced "Assign" ("target: " ++ structureText ann t ++ ", value: " ++ structureText ann v)
  | .sequence _ c none => braced "Sequence" ("current: " ++ structureText ann c ++ ", rest: None")
  | .sequence _ c (some r) =>
    braced "Sequence" ("current: " ++ structureText ann c ++ ", rest: Some(" ++
      structureText ann r ++ ")")
  | .block _ ts => "Block([" ++ ", ".intercalate (structureTexts ann ts) ++ "])"
  | .condition _ t => "Condition(" ++ structureText ann t ++ ")"
  | .ifElse _ c t none =>
    braced "If" ("condition: " ++ structureText ann c ++ ", then_branch: " ++
      structureText ann t ++ ", else_branch: None")
  | .ifElse _ c t (some e) =>
    braced "If" ("condition: " ++ structureText ann c ++ ", then_branch: " ++
      structureText ann t ++ ", else_branch: Some(" ++ structureText ann e ++ ")")
  | .whileLoop _ c b =>
    braced "While" ("condition: " ++ structureText ann c ++ ", body: " ++ structureText ann b)
  | .print _ t => "Print(" ++ structureText ann t ++ ")"

/-- The structural texts of the statements of a block. -/
@[simp]
def structureTexts (ann : Annotations) : List (Tree Mark) → List String
  | [] => []
  | t :: ts => structureText ann t :: structureTexts ann ts

end

end IntScript.Tree
