import IntScript.Report.Ink
import IntScript.Report.Page
import IntScript.Text.Decimal

/-!
# Snippets

A snippet shows the lines of the source that a diagnostic is about, in a frame, with an arrow from
the place to the message. A place within one line is underlined; a place that spans several lines
is marked by an arrow from its first to its last line, and the lines between are left out.

Places are given as numbers of characters. If they do not lie inside the text there is no snippet.
-/

namespace IntScript.Report

/-- What a snippet is to show. -/
structure Snippet where
  /-- Whether colours are used. -/
  color : Bool
  /-- The name of the source. -/
  name : String
  /-- The lines of the source. -/
  page : Array Line
  /-- The first character of the place. -/
  start : Nat
  /-- The character behind the place. -/
  stop : Nat
  /-- The message at the arrow. -/
  message : String
  /-- The help below the source. -/
  help : Option String

namespace Snippet

variable (s : Snippet)

/-- A text in a colour. -/
def ink (i : Ink) (text : String) : String := paint s.color i text

/-- A number of spaces. -/
def spaces (n : Nat) : String := String.ofList (List.replicate n ' ')

/-- A line of the source. -/
def line (i : Nat) : Line := s.page.getD i default

/-- The line in which the place starts. -/
def firstLine : Nat := lineAt s.page s.start

/-- The line in which the place ends. -/
def lastLine : Nat := lineAt s.page (max (s.stop - 1) s.start)

/-- Whether the place spans several lines. -/
def multi : Bool := s.firstLine != s.lastLine

/-- The number of digits of the greatest line number. -/
def numberWidth : Nat := (Decimal.ofNat (s.lastLine + 1)).length

/-- Whether a character belongs to the place. -/
def covers (offset : Nat) : Bool := s.start ≤ offset && offset < s.stop

/-- The frame before a line of the source. -/
def sourceMargin (i : Nat) : String :=
  let number := Decimal.text (i + 1)
  " " ++ s.ink .margin (spaces (s.numberWidth - number.length) ++ number ++ " │") ++ " "

/-- The frame before any other line. -/
def plainMargin (bar : String) : String :=
  " " ++ s.ink .skippedMargin (spaces (s.numberWidth + 1) ++ bar) ++ " "

/-- The characters of a line of the source. -/
def sourceText (i : Nat) : String :=
  let l := s.line i
  String.join (l.shown.zipIdx.map fun (c, k) =>
    let i := if s.covers (l.offset + k) then Ink.label else Ink.unimportant
    if c == '\t' then String.join (List.replicate (tabWidth k) (s.ink i " "))
    else if Text.isBlank c then s.ink i " "
    else s.ink i (String.ofList [c]))

/-- The marks below a character that takes the given number of columns: a first one, and further
ones if there is room. A character without a width has none. -/
def marksBelow (width : Nat) (marks : String × String) : String :=
  match width with
  | 0 => ""
  | rest + 1 => marks.1 ++ String.join (List.replicate rest marks.2)

/-- A row below a line of the source, with the marks of each character in turn. -/
def row (i count : Nat) (marks : Nat → String × String) : String :=
  let shown := (s.line i).shown
  String.join ((List.range count).map fun k => marksBelow (widthAt shown k) (marks k))

/-- Blank columns. -/
def blankMarks : String × String := (" ", " ")

/-- One mark in every column. -/
def marks (mark : String) : String × String := (s.ink .label mark, s.ink .label mark)

/-- The source line and arrow of a place within one line. -/
def singleBody : List String :=
  let i := s.firstLine
  let l := s.line i
  let middle := (s.start + s.stop) / 2 - l.offset
  let count := s.stop - l.offset + 2
  let underline := s.row i count fun k =>
    if k == middle then
      if s.covers (l.offset + k) then (s.ink .label "┬", s.ink .label "─")
      else (s.ink .label "│", s.ink .label " ")
    else if s.covers (l.offset + k) then s.marks "─"
    else blankMarks
  let arrow := s.row i count fun k =>
    if k == middle then (s.ink .label "╰", s.ink .label "─")
    else if middle < k then s.marks "─"
    else blankMarks
  [s.sourceMargin i ++ s.sourceText i, s.plainMargin "│" ++ underline,
    s.plainMargin "│" ++ arrow ++ " " ++ s.message]

/-- The marks that lead to a line of a place that spans several lines. -/
def lead (corner : String) : String :=
  s.ink .label corner ++ s.ink .label "─" ++ s.ink .label "▶" ++ s.ink .label " "

/-- The last line of a place that spans several lines, with the arrow to the message. -/
def closing (i : Nat) : List String :=
  let count := (s.line i).length + 2
  [s.sourceMargin i ++ s.lead "├" ++ s.sourceText i,
    s.plainMargin "│" ++ s.ink .label "│" ++ spaces 3 ++ s.row i count fun _ => blankMarks,
    s.plainMargin "│" ++ s.ink .label "╰" ++ s.ink .label "─" ++ s.ink .label "─" ++
      s.ink .label "─" ++ (s.row i count fun _ => s.marks "─") ++ " " ++ s.message]

/-- The source lines and arrow of a place that spans several lines. -/
def multiBody : List String :=
  let first := s.firstLine
  let last := s.lastLine
  let closed := max (s.stop - 1) s.start < (s.line last).next
  let omitted := last - first - 1 + if closed then 0 else 1
  [s.sourceMargin first ++ s.lead "╭" ++ s.sourceText first] ++
    (if omitted = 0 then [] else [s.plainMargin "┆" ++ s.ink .label "┆" ++ spaces 3]) ++
    (if closed then s.closing last else [])

/-- The source lines and arrow. -/
def body : List String :=
  if s.multi then s.multiBody
  else if s.stop ≤ (s.line s.firstLine).next then s.singleBody
  else [s.plainMargin "│"]

/-- A line without a carriage return at its end. -/
def trimReturn (line : String) : String :=
  let cs := line.toList
  String.ofList (if cs.getLast? == some '\r' then cs.dropLast else cs)

/-- The lines of a text without their ends. A carriage return belongs to a line end only if a line
feed follows it. -/
def textLines (text : String) : List String :=
  let pieces := text.splitOn "\n"
  pieces.dropLast.map trimReturn ++ pieces.getLast?.toList.filter (!·.isEmpty)

/-- The help below the source. -/
def helpBody : List String :=
  match s.help with
  | none => []
  | some help =>
    let pad :=
      if !s.multi then ""
      else if s.start = (s.line 0).length then s.ink .label "│" ++ spaces 3
      else spaces 4
    let margin := s.plainMargin "│" ++ pad
    margin :: (textLines help).zipIdx.map fun (l, k) =>
      margin ++ (if k = 0 then s.ink .note "Help" ++ ": " else spaces 6) ++ l

/-- The lines of a snippet. -/
def lines : List String :=
  let indent := spaces (s.numberWidth + 2)
  let column := s.start - (s.line s.firstLine).offset + 1
  [indent ++ s.ink .margin "╭" ++ s.ink .margin "─" ++ s.ink .margin "[" ++ " " ++ s.name ++ ":" ++
      Decimal.text (s.firstLine + 1) ++ ":" ++ Decimal.text column ++ " " ++ s.ink .margin "]",
    indent ++ s.ink .margin "│"] ++
    s.body ++ s.helpBody ++
    [s.ink .margin (String.ofList (List.replicate (s.numberWidth + 2) '─') ++ "╯")]

end Snippet
end IntScript.Report
