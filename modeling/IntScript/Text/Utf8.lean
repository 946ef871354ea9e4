/-!
# Byte offsets in a text

Positions in a program are byte offsets of its UTF-8 form, while the text itself is a list of
characters. The functions here measure a text in bytes and cut it at byte offsets. A cut that
falls inside a character, or past the end, has no result.
-/

namespace IntScript.Text

/-- The number of bytes that a text takes in UTF-8. -/
def byteLength : List Char → Nat
  | [] => 0
  | c :: cs => c.utf8Size + byteLength cs

/-- The bytes of a concatenation are those of its two parts. -/
theorem byteLength_append (cs ds : List Char) :
    byteLength (cs ++ ds) = byteLength cs + byteLength ds := by
  induction cs with
  | nil => simp [byteLength]
  | cons c cs ih => simp [byteLength, ih, Nat.add_assoc]

/-- A text that is not empty takes bytes. -/
theorem byteLength_pos {cs : List Char} (h : cs ≠ []) : 0 < byteLength cs := by
  cases cs with
  | nil => exact absurd rfl h
  | cons c cs =>
    have hc := c.utf8Size_pos
    rw [byteLength]
    omega

/-- The text behind its first `n` bytes. -/
def dropBytes? : List Char → Nat → Option (List Char)
  | cs, 0 => some cs
  | [], _ + 1 => none
  | c :: cs, n + 1 => if c.utf8Size ≤ n + 1 then dropBytes? cs (n + 1 - c.utf8Size) else none

/-- The first `n` bytes of a text. -/
def takeBytes? : List Char → Nat → Option (List Char)
  | _, 0 => some []
  | [], _ + 1 => none
  | c :: cs, n + 1 =>
    if c.utf8Size ≤ n + 1 then (takeBytes? cs (n + 1 - c.utf8Size)).map (c :: ·) else none

/-- The text from byte `start` up to byte `stop`; none if the two are out of order, out of range
or inside a character. -/
def slice? (cs : List Char) (start stop : Nat) : Option (List Char) :=
  if start ≤ stop then (dropBytes? cs start).bind (takeBytes? · (stop - start)) else none

/-- The UTF-8 bytes of a text. -/
def encode (cs : List Char) : List UInt8 :=
  (String.ofList cs).toUTF8.data.toList

/-- The text that a list of bytes is the UTF-8 form of. -/
def decode? (bytes : List UInt8) : Option (List Char) :=
  (String.fromUTF8? ⟨bytes.toArray⟩).map String.toList

/-- The text of bytes that were cut off somewhere: a character that lost its end is shown as
U+FFFD. At most three bytes of a character can be left over. -/
def decodeCut (bytes : List UInt8) : List Char :=
  match decode? bytes with
  | some cs => cs
  | none =>
    match [1, 2, 3].findSome? fun n => decode? (bytes.take (bytes.length - n)) with
    | some cs => cs ++ ['\uFFFD']
    | none => ['\uFFFD']

end IntScript.Text
