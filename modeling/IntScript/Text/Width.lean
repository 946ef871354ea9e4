import IntScript.Text.Wide
import IntScript.Text.ZeroWidth

/-!
# Display width

The number of columns that a character takes on a terminal. The width of a text is taken to be the
sum of those of its characters, whatever they join to.
-/

namespace IntScript.Text

/-- The number of columns that a character takes. The Khmer sign at U+17D8 abbreviates a phrase and
is drawn as three letters. A character of which nothing else is known, a control character among
them, takes one column. -/
def columns (c : Char) : Nat :=
  if c.toNat = 0x17D8 then 3
  else if isWide c then 2
  else if isZeroWidth c then 0
  else 1

end IntScript.Text
