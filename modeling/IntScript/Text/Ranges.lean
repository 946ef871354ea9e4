/-!
# Ranges of characters

A property of characters is given by a table of ranges. The ranges of a table ascend and do not
touch, so a search ends at the first range that starts behind the character.
-/

namespace IntScript.Text

/-- A table of ranges. Each has a first and a last code point, both of which belong to it. -/
abbrev Ranges := List (Nat × Nat)

namespace Ranges

/-- Whether a table lists a code point. -/
def contains : Ranges → Nat → Bool
  | [], _ => false
  | (first, last) :: rest, n => first ≤ n && (n ≤ last || contains rest n)

end Ranges
end IntScript.Text
