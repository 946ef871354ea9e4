import IntScript.Text.Utf8

/-!
# Spans of source text

A span is a range of byte offsets in a program text. Nothing is assumed of the two offsets: they
may be out of order, out of range or inside a character, and every operation has a defined answer
then.
-/

namespace IntScript

/-- A range of byte offsets. -/
structure Span where
  /-- Offset of the first byte. -/
  start : Nat
  /-- Offset of the byte behind the last one. -/
  stop : Nat
deriving DecidableEq, Inhabited

namespace Span

/-- The smallest span that covers two spans. -/
def combine (a b : Span) : Span := ⟨min a.start b.start, max a.stop b.stop⟩

/-- The part of the source that a span covers, and the empty text if it covers no whole
characters. -/
def textIn (s : Span) (source : List Char) : List Char :=
  (Text.slice? source s.start s.stop).getD []

/-- The bytes behind the last newline of a text. -/
def bytesBehindNewline (before : List Char) : Nat :=
  Text.byteLength (before.reverse.takeWhile (· != '\n'))

/-- Line and column of the start of a span, both counted from one. The column counts bytes. An
offset inside a character counts as standing in the first line. -/
def lineColumn (s : Span) (source : List Char) : Nat × Nat :=
  let start := min s.start (Text.byteLength source)
  match Text.takeBytes? source start with
  | some before => (before.count '\n' + 1, bytesBehindNewline before + 1)
  | none => (1, start + 1)

end Span
end IntScript
