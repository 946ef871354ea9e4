/-!
# Words of the language

The smallest parts of a program text: marks such as `&&`, keywords, identifiers, numbers, blanks
and comments. Scanning a word takes it off the front of a text and gives the word and what is left.
A keyword must not run on into a longer word, and an identifier must not be a keyword.
-/

namespace IntScript.Grammar

/-- The reserved words. -/
inductive Keyword where
  | ifWord | elseWord | whileWord | printWord
deriving DecidableEq

/-- All reserved words. -/
def Keyword.all : List Keyword := [.ifWord, .elseWord, .whileWord, .printWord]

/-- The spelling of a reserved word. -/
def Keyword.spelling : Keyword → List Char
  | .ifWord => ['i', 'f']
  | .elseWord => ['e', 'l', 's', 'e']
  | .whileWord => ['w', 'h', 'i', 'l', 'e']
  | .printWord => ['p', 'r', 'i', 'n', 't']

/-- Whether a character can stand in a word: an ASCII letter or digit, or an underscore. -/
def isWordChar (c : Char) : Bool := c.isAlphanum || c == '_'

/-- Whether a character can stand at the start of an identifier. -/
def isWordStart (c : Char) : Bool := c.isAlpha || c == '_'

/-- Whether a character separates words: a space, a tab or a part of a line end. -/
def isSpace (c : Char) : Bool := c == ' ' || c == '\t' || c == '\r' || c == '\n'

/-- A kind of word. -/
inductive Word where
  /-- A fixed text. -/
  | exact (text : List Char)
  /-- A reserved word. -/
  | keyword (k : Keyword)
  /-- Any reserved word. -/
  | anyKeyword
  /-- A word that is not reserved and does not start with a digit. -/
  | identifier
  /-- One or more digits. -/
  | integer
  /-- A single character that separates words. -/
  | space
  /-- Two slashes and what follows them in the line. -/
  | comment
  /-- A single character of a word. -/
  | wordChar
  /-- The end of the text. -/
  | finish

/-- Takes a fixed text off the front of another one and gives what is left. -/
def dropText? : List Char → List Char → Option (List Char)
  | [], cs => some cs
  | _ :: _, [] => none
  | t :: ts, c :: cs => if t = c then dropText? ts cs else none

/-- Takes a reserved word off the front of a text. -/
def scanKeyword (k : Keyword) (cs : List Char) : Option (List Char × List Char) :=
  match dropText? k.spelling cs with
  | none => none
  | some rest =>
    match rest with
    | c :: _ => if isWordChar c then none else some (k.spelling, rest)
    | [] => some (k.spelling, rest)

/-- Takes the first character off a text if it belongs to a class. -/
def scanChar (p : Char → Bool) : List Char → Option (List Char × List Char)
  | c :: cs => if p c then some ([c], cs) else none
  | [] => none

/-- Takes a character of one class, and all characters of another class behind it, off the front
of a text. -/
def scanRun (first later : Char → Bool) : List Char → Option (List Char × List Char)
  | c :: cs => if first c then some (c :: cs.takeWhile later, cs.dropWhile later) else none
  | [] => none

namespace Word

/-- Takes a word off the front of a text. -/
def scan (w : Word) (cs : List Char) : Option (List Char × List Char) :=
  match w with
  | .exact text => (dropText? text cs).map fun rest => (text, rest)
  | .keyword k => scanKeyword k cs
  | .anyKeyword => Keyword.all.findSome? fun k => scanKeyword k cs
  | .identifier =>
    if Keyword.all.any fun k => (scanKeyword k cs).isSome then none
    else scanRun isWordStart isWordChar cs
  | .integer => scanRun Char.isDigit Char.isDigit cs
  | .space => scanChar isSpace cs
  | .comment =>
    match cs with
    | '/' :: '/' :: cs => some ('/' :: '/' :: cs.takeWhile (· != '\n'), cs.dropWhile (· != '\n'))
    | _ => none
  | .wordChar => scanChar isWordChar cs
  | .finish => if cs.isEmpty then some ([], []) else none

/-- Whether a word cannot be empty. -/
def consumes : Word → Bool
  | .exact text => !text.isEmpty
  | .finish => false
  | _ => true

end Word

/-- A text that starts with another one consists of it and of what is left. -/
theorem append_of_dropText? {s cs rest : List Char} (h : dropText? s cs = some rest) :
    cs = s ++ rest := by
  induction s generalizing cs with
  | nil => simpa [dropText?] using h
  | cons c s ih =>
    cases cs with
    | nil => simp [dropText?] at h
    | cons d cs =>
      simp only [dropText?] at h
      split at h
      · next hc => rw [ih h, hc, List.cons_append]
      · simp at h

/-- A scanned keyword is the front of the text. -/
theorem scanKeyword_append {k : Keyword} {cs t rest : List Char}
    (h : scanKeyword k cs = some (t, rest)) : cs = t ++ rest ∧ t = k.spelling := by
  unfold scanKeyword at h
  split at h
  · simp at h
  · next r hr =>
    have hcs := append_of_dropText? hr
    split at h
    · split at h
      · simp at h
      · simp only [Option.some.injEq, Prod.mk.injEq] at h
        exact ⟨by rw [hcs, ← h.1, ← h.2], h.1.symm⟩
    · simp only [Option.some.injEq, Prod.mk.injEq] at h
      exact ⟨by rw [hcs, ← h.1, ← h.2], h.1.symm⟩

/-- A scanned character is the front of the text. -/
theorem scanChar_append {p : Char → Bool} {cs t rest : List Char}
    (h : scanChar p cs = some (t, rest)) : cs = t ++ rest ∧ t ≠ [] := by
  cases cs with
  | nil => simp [scanChar] at h
  | cons c cs =>
    simp only [scanChar] at h
    split at h
    · simp only [Option.some.injEq, Prod.mk.injEq] at h
      exact ⟨by simp [← h.1, ← h.2], by simp [← h.1]⟩
    · simp at h

/-- A scanned run is the front of the text and is not empty. -/
theorem scanRun_append {first later : Char → Bool} {cs t rest : List Char}
    (h : scanRun first later cs = some (t, rest)) : cs = t ++ rest ∧ t ≠ [] := by
  cases cs with
  | nil => simp [scanRun] at h
  | cons c cs =>
    simp only [scanRun] at h
    split at h
    · simp only [Option.some.injEq, Prod.mk.injEq] at h
      exact ⟨by simp [← h.1, ← h.2], by simp [← h.1]⟩
    · simp at h

/-- No keyword is empty. -/
theorem Keyword.spelling_ne_nil (k : Keyword) : k.spelling ≠ [] := by
  cases k <;> simp [Keyword.spelling]

/-- A word and what is left behind it make up the text, and the word is empty only if its kind
allows that. -/
theorem Word.scan_append {w : Word} {cs t rest : List Char} (h : w.scan cs = some (t, rest)) :
    cs = t ++ rest ∧ (w.consumes = true → t ≠ []) := by
  cases w with
  | exact text =>
    obtain ⟨r, hr, he⟩ := Option.map_eq_some_iff.1 h
    simp only [Prod.mk.injEq] at he
    refine ⟨by rw [append_of_dropText? hr, he.1, he.2], fun hc => ?_⟩
    rw [← he.1]
    simpa [consumes] using hc
  | keyword k =>
    obtain ⟨h, ht⟩ := scanKeyword_append h
    exact ⟨h, fun _ => ht ▸ k.spelling_ne_nil⟩
  | anyKeyword =>
    obtain ⟨k, _, hk⟩ := List.exists_of_findSome?_eq_some h
    obtain ⟨h, ht⟩ := scanKeyword_append hk
    exact ⟨h, fun _ => ht ▸ k.spelling_ne_nil⟩
  | identifier =>
    simp only [scan] at h
    split at h
    · simp at h
    · exact ⟨(scanRun_append h).1, fun _ => (scanRun_append h).2⟩
  | integer => exact ⟨(scanRun_append h).1, fun _ => (scanRun_append h).2⟩
  | space => exact ⟨(scanChar_append h).1, fun _ => (scanChar_append h).2⟩
  | comment =>
    simp only [scan] at h
    split at h
    · simp only [Option.some.injEq, Prod.mk.injEq] at h
      exact ⟨by simp [← h.1, ← h.2], fun _ => by simp [← h.1]⟩
    · simp at h
  | wordChar => exact ⟨(scanChar_append h).1, fun _ => (scanChar_append h).2⟩
  | finish =>
    simp only [scan] at h
    split at h
    · next he =>
      simp only [Option.some.injEq, Prod.mk.injEq] at h
      exact ⟨by simp [← h.1, ← h.2, List.isEmpty_iff.1 he], by simp [consumes]⟩
    · simp at h

end IntScript.Grammar
