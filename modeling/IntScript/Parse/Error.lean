import IntScript.Diagnostic
import IntScript.Grammar.Attempts
import IntScript.Operator

/-!
# Parse errors

A text is refused because it does not fit the grammar, because a number in it is too large, or
because something other than a variable is incremented or decremented. Where the grammar does not
fit, the error says what was expected at the furthest place that was reached and what stands there
instead.
-/

namespace IntScript

/-- Why a text is not a program. -/
inductive ParseError.Cause where
  /-- Something else was expected than what was found. -/
  | unexpectedToken (expected found : String)
  /-- A number does not fit in 64 bits. -/
  | invalidNumber (text : String)
  /-- An operator that changes a variable is applied to something else. -/
  | invalidIncrementTarget (op : UnaryOp)
  /-- Anything else. -/
  | other (message : String)
deriving DecidableEq

/-- Why and where a text is not a program. -/
structure ParseError where
  /-- Why the text is refused. -/
  cause : ParseError.Cause
  /-- The place of the offence. -/
  span : Span
deriving DecidableEq

namespace ParseError

/-- The wording of a cause. -/
def Cause.message : Cause → String
  | .unexpectedToken expected found => "expected " ++ expected ++ ", found " ++ found
  | .invalidNumber text => "invalid number literal '" ++ text ++ "'"
  | .invalidIncrementTarget op =>
    "operator '" ++ op.symbol ++ "' can only be applied to a variable"
  | .other message => message

/-- The code of a cause. -/
def Cause.code : Cause → String
  | .unexpectedToken .. => "P001"
  | .invalidNumber _ => "P002"
  | .invalidIncrementTarget _ => "P003"
  | .other _ => "P999"

/-- The help that is given with a cause. -/
def Cause.help : Cause → Option String
  | .invalidNumber _ => some "integer literals must fit in 64 bits"
  | .invalidIncrementTarget _ =>
    some "use `name = expr + 1` for anything that is not a plain variable"
  | _ => none

/-- The diagnostic of a parse error. -/
def diagnostic (e : ParseError) : Diagnostic :=
  ⟨.error, e.cause.message, some e.span, e.cause.help, some e.cause.code⟩

end ParseError

namespace Grammar

/-- What a rule is called where it was expected. -/
def Rule.construct : Rule → String
  | .endOfInput => "end of input"
  | .identifier => "identifier"
  | .integer => "number"
  | .input => "'?'"
  | .operation | .assignment | .printExpression => "expression"
  | .expressionStatement | .scope | .ifStatement | .whileStatement => "statement"
  | .ifWord => "'if'"
  | .elseWord => "'else'"
  | .whileWord => "'while'"
  | .printWord => "'print'"
  | .and | .or | .eq | .ne | .le | .ge | .lt | .gt | .add | .sub | .mul | .div | .rem => "operator"
  | .neg | .not => "unary operator"
  | .inc | .dec => "'++' or '--'"
  | .whitespace | .comment | .program | .statement | .expression | .assignOp | .infixOp
  | .prefixOp | .postfixOp | .primary | .keyword | .identifierChar => "token"

end Grammar

namespace ParseError

/-- Names with a comma between them and the word "or" before the last one. -/
def joinNames : List String → String
  | [] => "something else"
  | [only] => only
  | names => ", ".intercalate names.dropLast ++ " or " ++ names.getLastD ""

/-- The names of the expected rules, each name once, in the order of first mention. -/
def expectedText (rules : List Grammar.Rule) : String :=
  joinNames (rules.foldl (fun names r =>
    if r.construct ∈ names then names else names ++ [r.construct]) [])

/-- What stands at a place: a whole word, or else a single character. -/
def foundText (source : List Char) (pos : Nat) : String :=
  match (Text.dropBytes? source pos).getD [] with
  | [] => "end of input"
  | c :: cs =>
    if Grammar.isWordChar c then
      "'" ++ String.ofList ((c :: cs).takeWhile Grammar.isWordChar) ++ "'"
    else "'" ++ String.ofList [c] ++ "'"

/-- The error of a text in which some rules were expected at the start of a span. -/
def unexpected (source : List Char) (rules : List Grammar.Rule) (span : Span) : ParseError :=
  ⟨.unexpectedToken (expectedText rules) (foundText source span.start), span⟩

/-- The error of a text that does not fit the grammar. -/
def ofAttempts (source : List Char) (log : Grammar.Attempts) : ParseError :=
  unexpected source log.rules ⟨log.pos, log.pos⟩

end ParseError
end IntScript
