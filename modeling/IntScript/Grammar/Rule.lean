import IntScript.Grammar.Word

/-!
# The grammar

The rules of the language and what each of them stands for. A rule is a single word, or a phrase
made up of words and other rules. Most rules show in the reading of a text as fragments of their
own; silent rules only lend their body to the rules that use them.

The grammar is read by ordered choice: the first alternative that fits is taken, and repetitions
take as much as they can. Between the parts of a phrase there may be spaces and comments.

Two tables make reading terminate. `Rule.consumes` tells which rules never match the empty text,
and `Rule.rank` orders the rules so that a rule which is tried at the very place where another one
was tried comes before it.
-/

namespace IntScript.Grammar

/-- The rules of the grammar, in the order in which they are declared. The end of the input comes
first. -/
inductive Rule where
  | endOfInput
  | whitespace | comment
  | program | statement | scope | ifStatement | whileStatement | expressionStatement
  | expression | assignment | assignOp | printExpression | operation
  | infixOp | and | or | eq | ne | le | ge | lt | gt | add | sub | mul | div | rem
  | prefixOp | neg | not
  | postfixOp | inc | dec
  | primary | integer | input
  | ifWord | elseWord | whileWord | printWord
  | keyword | identifier | identifierChar
deriving DecidableEq

/-- All rules, in the order in which they are declared. -/
def Rule.all : List Rule :=
  [.endOfInput, .whitespace, .comment, .program, .statement, .scope, .ifStatement,
    .whileStatement, .expressionStatement, .expression, .assignment, .assignOp,
    .printExpression, .operation, .infixOp, .and, .or, .eq, .ne, .le, .ge, .lt, .gt, .add,
    .sub, .mul, .div, .rem, .prefixOp, .neg, .not, .postfixOp, .inc, .dec, .primary,
    .integer, .input, .ifWord, .elseWord, .whileWord, .printWord, .keyword, .identifier,
    .identifierChar]

/-- The name of a rule in the grammar. -/
def Rule.name : Rule → String
  | .endOfInput => "EOI"
  | .whitespace => "WHITESPACE"
  | .comment => "COMMENT"
  | .program => "program"
  | .statement => "statement"
  | .scope => "scope"
  | .ifStatement => "if_stmt"
  | .whileStatement => "while_stmt"
  | .expressionStatement => "expr_stmt"
  | .expression => "expression"
  | .assignment => "assignment"
  | .assignOp => "assign_op"
  | .printExpression => "print_expr"
  | .operation => "operation"
  | .infixOp => "infix"
  | .and => "and"
  | .or => "or"
  | .eq => "eq"
  | .ne => "ne"
  | .le => "le"
  | .ge => "ge"
  | .lt => "lt"
  | .gt => "gt"
  | .add => "add"
  | .sub => "sub"
  | .mul => "mul"
  | .div => "div"
  | .rem => "rem"
  | .prefixOp => "prefix"
  | .neg => "neg"
  | .not => "not"
  | .postfixOp => "postfix"
  | .inc => "inc"
  | .dec => "dec"
  | .primary => "primary"
  | .integer => "integer"
  | .input => "input"
  | .ifWord => "kw_if"
  | .elseWord => "kw_else"
  | .whileWord => "kw_while"
  | .printWord => "kw_print"
  | .keyword => "keyword"
  | .identifier => "ident"
  | .identifierChar => "ident_char"

/-- The rule of a given name. -/
def Rule.ofName? (name : String) : Option Rule := Rule.all.find? fun r => r.name == name

/-- The parts of which rules are made up. -/
inductive Phrase where
  /-- The start of the text. -/
  | start
  /-- A word. -/
  | word (w : Word)
  /-- Nothing, provided that a text does not come next. -/
  | notAhead (text : List Char)
  /-- Whatever a rule stands for. -/
  | call (r : Rule)
  /-- One phrase, then another. -/
  | seq (first second : Phrase)
  /-- The first of two phrases that fits. -/
  | alt (first second : Phrase)
  /-- A phrase any number of times. -/
  | many (p : Phrase)
  /-- A phrase any number of further times, with space before each. -/
  | more (p : Phrase)
  /-- A phrase or nothing. -/
  | opt (p : Phrase)

/-- What a rule stands for. -/
inductive Definition where
  /-- A word that shows as a fragment. -/
  | word (w : Word)
  /-- A phrase that shows as a fragment. -/
  | phrase (p : Phrase)
  /-- A phrase that does not show. -/
  | silent (p : Phrase)

namespace Phrase

/-- A fixed text of one character. -/
def mark (c : Char) : Phrase := .word (.exact [c])

/-- Phrases one after the other. -/
def inOrder : Phrase → List Phrase → Phrase
  | p, [] => p
  | p, q :: ps => .seq p (inOrder q ps)

/-- The first of several rules that fits. -/
def oneOf : Rule → List Rule → Phrase
  | r, [] => .call r
  | r, q :: rs => .alt (.call r) (oneOf q rs)

/-- An operand with the operators before and behind it. -/
def operand : Phrase :=
  inOrder (.many (.call .prefixOp)) [.call .primary, .many (.call .postfixOp)]

end Phrase

open Phrase in
/-- What each rule stands for. -/
def Rule.definition : Rule → Definition
  | .endOfInput => .word .finish
  | .whitespace => .silent (.word .space)
  | .comment => .silent (.word .comment)
  | .program => .phrase (inOrder .start [.many (.call .statement), .call .endOfInput])
  | .statement => .silent (oneOf .scope [.ifStatement, .whileStatement, .expressionStatement])
  | .scope => .phrase (inOrder (mark '{') [.many (.call .statement), mark '}'])
  | .ifStatement => .phrase (inOrder (.call .ifWord)
      [mark '(', .call .expression, mark ')', .call .statement,
        .opt (.seq (.call .elseWord) (.call .statement))])
  | .whileStatement => .phrase (inOrder (.call .whileWord)
      [mark '(', .call .expression, mark ')', .call .statement])
  | .expressionStatement => .phrase (.seq (.call .expression) (mark ';'))
  | .expression => .silent (oneOf .assignment [.printExpression, .operation])
  | .assignment => .phrase (inOrder (.call .identifier) [.call .assignOp, .call .expression])
  | .assignOp => .silent (.seq (mark '=') (.notAhead ['=']))
  | .printExpression => .phrase (.seq (.call .printWord) (.call .expression))
  | .operation => .phrase (.seq operand (.many (.seq (.call .infixOp) operand)))
  | .infixOp => .silent (oneOf .and
      [.or, .eq, .ne, .le, .ge, .lt, .gt, .add, .sub, .mul, .div, .rem])
  | .and => .word (.exact ['&', '&'])
  | .or => .word (.exact ['|', '|'])
  | .eq => .word (.exact ['=', '='])
  | .ne => .word (.exact ['!', '='])
  | .le => .word (.exact ['<', '='])
  | .ge => .word (.exact ['>', '='])
  | .lt => .word (.exact ['<'])
  | .gt => .word (.exact ['>'])
  | .add => .word (.exact ['+'])
  | .sub => .word (.exact ['-'])
  | .mul => .word (.exact ['*'])
  | .div => .word (.exact ['/'])
  | .rem => .word (.exact ['%'])
  | .prefixOp => .silent (oneOf .neg [.not])
  | .neg => .word (.exact ['-'])
  | .not => .word (.exact ['!'])
  | .postfixOp => .silent (oneOf .inc [.dec])
  | .inc => .word (.exact ['+', '+'])
  | .dec => .word (.exact ['-', '-'])
  | .primary => .silent (.alt (.call .integer) (.alt (.call .input) (.alt (.call .identifier)
      (inOrder (mark '(') [.call .expression, mark ')']))))
  | .integer => .word .integer
  | .input => .word (.exact ['?'])
  | .ifWord => .word (.keyword .ifWord)
  | .elseWord => .word (.keyword .elseWord)
  | .whileWord => .word (.keyword .whileWord)
  | .printWord => .word (.keyword .printWord)
  | .keyword => .word .anyKeyword
  | .identifier => .word .identifier
  | .identifierChar => .silent (.word .wordChar)

/-- Whether a rule never matches the empty text. -/
def Rule.consumes : Rule → Bool
  | .endOfInput | .program => false
  | _ => true

/-- The place of a rule in the order in which rules call each other without taking any text. -/
def Rule.rank : Rule → Nat
  | .program => 30
  | .statement => 25
  | .expressionStatement => 20
  | .expression => 18
  | .infixOp => 14
  | .operation => 13
  | .primary => 8
  | .prefixOp | .postfixOp | .assignOp | .assignment | .printExpression | .scope
  | .ifStatement | .whileStatement => 4
  | .whitespace | .comment | .identifierChar => 1
  | _ => 0

namespace Phrase

/-- Whether a phrase never matches the empty text. -/
def consumes : Phrase → Bool
  | .start | .notAhead _ | .many _ | .more _ | .opt _ => false
  | .word w => w.consumes
  | .call r => r.consumes
  | .seq a b => a.consumes || b.consumes
  | .alt a b => a.consumes && b.consumes

/-- How deep the calls of a phrase can nest before any text has been taken. -/
def rank : Phrase → Nat
  | .start | .notAhead _ | .word _ => 0
  | .call r => r.rank
  | .seq a b => if a.consumes then a.rank + 1 else max a.rank b.rank + 1
  | .alt a b => max a.rank b.rank + 1
  | .many p | .more p | .opt p => p.rank + 1

end Phrase

namespace Definition

/-- Whether what a rule stands for never matches the empty text. -/
def consumes : Definition → Bool
  | .word w => w.consumes
  | .phrase p | .silent p => p.consumes

/-- The least rank that a rule with this definition can have. -/
def rank : Definition → Nat
  | .word _ => 0
  | .phrase p | .silent p => p.rank + 1

end Definition

/-- The table of rules that take text agrees with their definitions. -/
theorem Rule.consumes_definition (r : Rule) : r.consumes = true → r.definition.consumes = true := by
  cases r <;> decide

/-- The table of ranks agrees with the definitions of the rules. -/
theorem Rule.rank_definition (r : Rule) : r.definition.rank ≤ r.rank := by
  cases r <;> decide

end IntScript.Grammar
