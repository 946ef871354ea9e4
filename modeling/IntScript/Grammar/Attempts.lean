import IntScript.Grammar.Rule

/-!
# Attempts

While a text is read, a log keeps the rules that failed at the furthest place where any rule
failed. If the text cannot be read at all, that place and those rules make up the error.

A rule that fails stands for everything that was tried inside it at its own start, so it takes the
place of what its parts have entered there. The one exception: if its parts have entered exactly
one rule there, then that rule says more, and it is kept instead.
-/

namespace IntScript.Grammar

/-- The rules that failed at the furthest place. -/
structure Attempts where
  /-- The byte offset of the furthest place. -/
  pos : Nat
  /-- The rules that were expected there, in the order in which they failed. -/
  expected : List Rule
deriving DecidableEq

namespace Attempts

/-- The log before anything was tried. -/
def none : Attempts := ⟨0, []⟩

/-- The number of rules that are entered for a place. -/
def countAt (log : Attempts) (pos : Nat) : Nat :=
  if log.pos = pos then log.expected.length else 0

/-- Enters the failure of a rule that was tried at `start` when `before` rules were entered for
that place. -/
def record (log : Attempts) (r : Rule) (start before : Nat) : Attempts :=
  if log.countAt start = before + 1 then log
  else if log.pos < start then ⟨start, [r]⟩
  else if log.pos = start then ⟨start, log.expected.take before ++ [r]⟩
  else log

/-- The rules of a log, each once, in the order in which the grammar declares them. -/
def rules (log : Attempts) : List Rule := Rule.all.filter fun r => r ∈ log.expected

end Attempts
end IntScript.Grammar
