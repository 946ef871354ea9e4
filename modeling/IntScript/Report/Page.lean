import IntScript.Text.Blank
import IntScript.Text.Width

/-!
# Pages

A page is a source text divided into lines for display. A line ends behind a line feed, a carriage
return, both together, or one of the other characters by which Unicode ends lines. Characters are
counted over the whole text.
-/

namespace IntScript.Report

/-- A line of a text. -/
structure Line where
  /-- The number of characters before the line. -/
  offset : Nat
  /-- The characters of the line with those that end it. -/
  chars : List Char
deriving Inhabited

namespace Line

/-- The number of characters of a line. -/
def length (l : Line) : Nat := l.chars.length

/-- The number of characters before the next line. -/
def next (l : Line) : Nat := l.offset + l.length

/-- The part of a line that is shown. -/
def shown (l : Line) : List Char := Text.trimEnd l.chars

end Line

/-- Whether a character ends a line. -/
def endsLine (c : Char) : Bool :=
  let n := c.toNat
  (0x0A ≤ n && n ≤ 0x0D) || n == 0x85 || n == 0x2028 || n == 0x2029

/-- The lines of a text that is not empty. -/
def divide : List Char → List (List Char)
  | [] => []
  | c :: cs =>
    if endsLine c && !(c == '\r' && cs.head? == some '\n') then [c] :: divide cs
    else match divide cs with
      | [] => [[c]]
      | l :: ls => (c :: l) :: ls

/-- Lines with their offsets, the first of which has the given one. -/
def place (offset : Nat) : List (List Char) → List Line
  | [] => []
  | l :: ls => ⟨offset, l⟩ :: place (offset + l.length) ls

/-- The lines of a text; the empty text has one empty line. -/
def pageOf (source : List Char) : Array Line :=
  match place 0 (divide source) with
  | [] => #[⟨0, []⟩]
  | ls => ls.toArray

/-- The number of the line that a character stands in, counted from zero. The end of the text
belongs to the last line. -/
def lineAt (page : Array Line) (offset : Nat) : Nat :=
  page.toList.countP (fun l => l.offset ≤ offset) - 1

/-- The columns that a tab takes at a place in a line. -/
def tabWidth (index : Nat) : Nat := (index / 4 + 1) * 4 - index

/-- The columns that the character at a place in a line takes; beyond the text it is one. -/
def widthAt (shown : List Char) (index : Nat) : Nat :=
  match shown[index]? with
  | none => 1
  | some c =>
    if c == '\t' then tabWidth index else if Text.isBlank c then 1 else Text.columns c

end IntScript.Report
