import IntScript.Parse.Arena

/-!
# Parsing

A text is parsed in two steps: the grammar divides it into fragments, and the fragments are put
together to a tree. A text that does not fit the grammar is refused for that reason alone, whatever
else is wrong with it.
-/

namespace IntScript

/-- The tree of a program text with the identities that its nodes got when they were allocated, or
why the text is not a program. -/
def parseNodes (source : String) : Except ParseError (Tree Mark) :=
  match Grammar.Rule.program.read source.toList with
  | .ok fragments => (Arena.program fragments).run' 0
  | .error log => .error (.ofAttempts source.toList log)

/-- The tree of a program text, or why the text is not a program. -/
def parse (source : String) : Except ParseError (Tree Span) :=
  (parseNodes source).map Tree.unmarked

end IntScript
