import IntScript.Grammar.Laws
import IntScript.Proofs.Grammar.Words

/-!
# The rules of words

Five rules of the grammar compete for the words of a text: one takes identifiers, and each of the
others takes one reserved word. Which of them fits at a place depends on the whole run of word
characters there, and whatever fits takes the whole run. So no two of them ever fit at the same
place, and a word that merely begins like a reserved one is left in one piece.
-/

namespace IntScript.Grammar

/-- A digit. -/
def IsDigit (x : Char) : Prop := '0' ≤ x ∧ x ≤ '9'

/-- A letter, among which the underscore is counted. -/
def IsLetter (x : Char) : Prop := ('A' ≤ x ∧ x ≤ 'Z' ∨ 'a' ≤ x ∧ x ≤ 'z') ∨ x = '_'

/-- The longest part at the front of a text that is made up of letters and digits. -/
structure IsLeadingWord (w text : List Char) : Prop where
  /-- It stands at the front. -/
  front : w <+: text
  /-- It is made up of letters and digits. -/
  characters : ∀ x ∈ w, IsLetter x ∨ IsDigit x
  /-- Everything else at the front that is made up of letters and digits is a part of it. -/
  longest : ∀ v, v <+: text → (∀ x ∈ v, IsLetter x ∨ IsDigit x) → v <+: w

/-- The rules of the reserved words, and how these are spelled. -/
def Rule.reserved : List (Rule × String) :=
  [(.ifWord, "if"), (.elseWord, "else"), (.whileWord, "while"), (.printWord, "print")]

/-- The rules of words. -/
def Rule.words : List Rule := .identifier :: reserved.map Prod.fst

/-- What reading a rule at a place finds, if anything. -/
def Rule.finds (r : Rule) (c : Cursor) (log : Attempts) : Option Found :=
  ((Phrase.call r).read c log).2

/-- What the rules of words make of a place where a text goes on with a word, which may be empty,
and with a rest behind it. -/
structure Rule.ClassifiesWord (c : Cursor) (log : Attempts) (w rest : List Char) : Prop where
  /-- The word and the rest make up the text. -/
  text : c.rest = w ++ rest
  /-- The word is the longest one. -/
  word : IsLeadingWord w c.rest
  /-- The word is an identifier unless it is empty, begins with a digit or is reserved. -/
  identifier : (identifier.finds c log).isSome ↔
    w ≠ [] ∧ (∀ x ∈ w.head?, ¬IsDigit x) ∧ ∀ q ∈ reserved, w ≠ q.2.toList
  /-- The rule of a reserved word fits if that is the whole word. -/
  keyword : ∀ q ∈ reserved, (q.1.finds c log).isSome ↔ w = q.2.toList
  /-- Whichever rule fits takes exactly the word. -/
  whole : ∀ r ∈ words, ∀ m ∈ r.finds c log, m = (c.past w rest, [.word r c.pos w])
  /-- No two rules fit. -/
  unique : ∀ r ∈ words, ∀ s ∈ words, (r.finds c log).isSome → (s.finds c log).isSome → r = s
  /-- A reserved word is not split off a longer word. -/
  unsplit : ∀ q ∈ reserved, ∀ x behind, c.rest = q.2.toList ++ x :: behind →
    IsLetter x ∨ IsDigit x → q.1.finds c log = none

/-- Numbers are made up of digits. -/
theorem isDigit_iff {x : Char} : x.isDigit = true ↔ IsDigit x := by
  simp only [Char.isDigit, IsDigit, Bool.and_eq_true, decide_eq_true_eq, Char.le_def]

/-- Identifiers begin with letters. -/
theorem isWordStart_iff {x : Char} : isWordStart x = true ↔ IsLetter x := by
  have hupper : x.isUpper = true ↔ 'A' ≤ x ∧ x ≤ 'Z' := decide_eq_true_iff
  have hlower : x.isLower = true ↔ 'a' ≤ x ∧ x ≤ 'z' := by
    change (decide (x.val ≥ 'a'.val) && decide (x.val ≤ 'z'.val)) = true ↔ _
    rw [Bool.and_eq_true, decide_eq_true_iff, decide_eq_true_iff]
    rfl
  change (x.isUpper || x.isLower || x == '_') = true ↔ _
  rw [Bool.or_eq_true, Bool.or_eq_true, hupper, hlower, beq_iff_eq]
  rfl

/-- Words are made up of letters and digits. -/
theorem isWordChar_iff {x : Char} : isWordChar x = true ↔ IsLetter x ∨ IsDigit x := by
  rw [← isWordStart_iff, ← isDigit_iff]
  simp only [isWordChar, isWordStart, Char.isAlphanum, Bool.or_eq_true, or_right_comm]

/-- No letter is a digit. -/
theorem IsLetter.not_isDigit {x : Char} (h : IsLetter x) : ¬IsDigit x := by
  rintro ⟨-, h9⟩
  rcases h with (⟨hA, -⟩ | ⟨ha, -⟩) | rfl
  · exact absurd (Char.le_trans hA h9) (by decide)
  · exact absurd (Char.le_trans ha h9) (by decide)
  · exact absurd h9 (by decide)

/-- The run of word characters at the front of a text is its longest word. -/
theorem isLeadingWord_takeWhile (cs : List Char) : IsLeadingWord (cs.takeWhile isWordChar) cs where
  front := List.takeWhile_prefix isWordChar
  characters := by
    have hall : (cs.takeWhile isWordChar).all isWordChar = true := by simp
    exact fun x hx => isWordChar_iff.1 (List.all_eq_true.1 hall x hx)
  longest := by
    rintro v ⟨rest, rfl⟩ hv
    rw [List.takeWhile_append_of_pos fun x hx => isWordChar_iff.2 (hv x hx)]
    exact List.prefix_append _ _

/-- A rule of a reserved word is defined by that word. -/
theorem Rule.definition_of_reserved {q : Rule × String} (h : q ∈ Rule.reserved) :
    ∃ k : Keyword, q.1.definition = .word (.keyword k) ∧ k.spelling = q.2.toList := by
  simp only [reserved, List.mem_cons, List.not_mem_nil, or_false] at h
  rcases h with rfl | rfl | rfl | rfl
  · exact ⟨.ifWord, rfl, rfl⟩
  · exact ⟨.elseWord, rfl, rfl⟩
  · exact ⟨.whileWord, rfl, rfl⟩
  · exact ⟨.printWord, rfl, rfl⟩

/-- Every reserved word has a rule. -/
theorem Rule.exists_reserved (k : Keyword) : ∃ q ∈ Rule.reserved, k.spelling = q.2.toList := by
  cases k with
  | ifWord => exact ⟨(.ifWord, "if"), by decide, rfl⟩
  | elseWord => exact ⟨(.elseWord, "else"), by decide, rfl⟩
  | whileWord => exact ⟨(.whileWord, "while"), by decide, rfl⟩
  | printWord => exact ⟨(.printWord, "print"), by decide, rfl⟩

/-- Different reserved words have different rules. -/
theorem Rule.reserved_inj {q q' : Rule × String} (hq : q ∈ Rule.reserved)
    (hq' : q' ∈ Rule.reserved) (h : q.2 = q'.2) : q.1 = q'.1 := by
  have hall : ∀ q ∈ Rule.reserved, ∀ q' ∈ Rule.reserved, q.2 = q'.2 → q.1 = q'.1 := by decide
  exact hall q hq q' hq' h

/-- A word is an identifier unless it is empty, begins with a digit or is reserved. -/
theorem isIdentifier_iff {w : List Char} (hw : ∀ x ∈ w, IsLetter x ∨ IsDigit x) :
    isIdentifier w = true ↔
      w ≠ [] ∧ (∀ x ∈ w.head?, ¬IsDigit x) ∧ ∀ q ∈ Rule.reserved, w ≠ q.2.toList := by
  cases w with
  | nil => simp [isIdentifier]
  | cons c cs =>
    have hstart : isWordStart c = true ↔ ¬IsDigit c := by
      rw [isWordStart_iff]
      exact ⟨fun h => h.not_isDigit, (hw c List.mem_cons_self).resolve_right⟩
    have hall : cs.all isWordChar = true :=
      List.all_eq_true.2 fun x hx => isWordChar_iff.2 (hw x (List.mem_cons_of_mem _ hx))
    have hfree : (Keyword.all.all fun k => k.spelling != c :: cs) = true ↔
        ∀ q ∈ Rule.reserved, c :: cs ≠ q.2.toList := by
      rw [List.all_eq_true]
      constructor
      · intro h q hq heq
        obtain ⟨k, -, hk⟩ := Rule.definition_of_reserved hq
        have hmem : k ∈ Keyword.all := by cases k <;> decide
        exact bne_iff_ne.1 (h k hmem) (hk.trans heq.symm)
      · intro h k _
        obtain ⟨q, hq, hk⟩ := Rule.exists_reserved k
        exact bne_iff_ne.2 fun heq => h q hq (heq.symm.trans hk)
    simp only [isIdentifier, hall, Bool.and_true, Bool.and_eq_true, hstart, hfree, ne_eq,
      List.cons_ne_nil, not_false_eq_true, true_and, List.head?_cons, Option.mem_def,
      Option.some.injEq, forall_eq']

namespace Rule

variable (c : Cursor) (log : Attempts)

/-- A rule of a single word finds what a scan of the word takes. -/
theorem finds_word {r : Rule} {v : Word} (hr : r.definition = .word v) :
    r.finds c log = (v.scan c.rest).map fun m => (c.past m.1 m.2, [.word r c.pos m.1]) := by
  rw [finds, Phrase.read_call_word hr]
  rcases v.scan c.rest with _ | ⟨t, rest⟩ <;> rfl

/-- The rule of a reserved word finds the word at the front, if that is the reserved one. -/
theorem finds_reserved {q : Rule × String} (hq : q ∈ reserved) :
    q.1.finds c log =
      if c.rest.takeWhile isWordChar = q.2.toList then
        some (c.past (c.rest.takeWhile isWordChar) (c.rest.dropWhile isWordChar),
          [.word q.1 c.pos (c.rest.takeWhile isWordChar)])
      else none := by
  obtain ⟨k, hk, hspelling⟩ := definition_of_reserved hq
  rw [finds_word c log hk, Word.scan, scanKeyword_eq, hspelling]
  split
  · next hw => rw [hw]; rfl
  · rfl

/-- The rule of identifiers finds the word at the front, if that is an identifier. -/
theorem finds_identifier :
    identifier.finds c log =
      if isIdentifier (c.rest.takeWhile isWordChar) then
        some (c.past (c.rest.takeWhile isWordChar) (c.rest.dropWhile isWordChar),
          [.word .identifier c.pos (c.rest.takeWhile isWordChar)])
      else none := by
  rw [finds_word c log rfl, scan_identifier_eq]
  split <;> rfl

/-- The rule of a reserved word fits where that is the word at the front. -/
theorem isSome_finds_reserved {q : Rule × String} (hq : q ∈ reserved) :
    (q.1.finds c log).isSome ↔ c.rest.takeWhile isWordChar = q.2.toList := by
  rw [finds_reserved c log hq]
  split <;> simp_all

/-- The rule of identifiers fits where the word at the front is neither empty nor reserved and does
not begin with a digit. -/
theorem isSome_finds_identifier :
    (identifier.finds c log).isSome ↔
      c.rest.takeWhile isWordChar ≠ [] ∧ (∀ x ∈ (c.rest.takeWhile isWordChar).head?, ¬IsDigit x) ∧
        ∀ q ∈ reserved, c.rest.takeWhile isWordChar ≠ q.2.toList := by
  rw [finds_identifier, ← isIdentifier_iff (isLeadingWord_takeWhile c.rest).characters]
  split <;> simp_all

/-- A rule of words that fits takes the whole word at the front. -/
theorem eq_of_finds {r : Rule} (hr : r ∈ words) {m : Found} (hm : m ∈ r.finds c log) :
    m = (c.past (c.rest.takeWhile isWordChar) (c.rest.dropWhile isWordChar),
      [.word r c.pos (c.rest.takeWhile isWordChar)]) := by
  rcases List.mem_cons.1 hr with rfl | hr
  · rw [finds_identifier] at hm
    split at hm
    · exact (Option.some.inj hm).symm
    · cases hm
  · obtain ⟨q, hq, rfl⟩ := List.mem_map.1 hr
    rw [finds_reserved c log hq] at hm
    split at hm
    · exact (Option.some.inj hm).symm
    · cases hm

/-- At most one of the rules of words fits. -/
theorem eq_of_isSome_finds {r s : Rule} (hr : r ∈ words) (hs : s ∈ words)
    (hfits : (r.finds c log).isSome) (hfits' : (s.finds c log).isSome) : r = s := by
  -- a word is not an identifier and reserved, and it is spelled in one way
  rcases List.mem_cons.1 hr with rfl | hr <;> rcases List.mem_cons.1 hs with rfl | hs
  · rfl
  · obtain ⟨q, hq, rfl⟩ := List.mem_map.1 hs
    have hfree := ((isSome_finds_identifier c log).1 hfits).2.2
    exact absurd ((isSome_finds_reserved c log hq).1 hfits') (hfree q hq)
  · obtain ⟨q, hq, rfl⟩ := List.mem_map.1 hr
    have hfree := ((isSome_finds_identifier c log).1 hfits').2.2
    exact absurd ((isSome_finds_reserved c log hq).1 hfits) (hfree q hq)
  · obtain ⟨q, hq, rfl⟩ := List.mem_map.1 hr
    obtain ⟨q', hq', rfl⟩ := List.mem_map.1 hs
    have hspelled := (isSome_finds_reserved c log hq).1 hfits
    have hspelled' := (isSome_finds_reserved c log hq').1 hfits'
    exact reserved_inj hq hq' (String.toList_inj.1 (hspelled.symm.trans hspelled'))

/-- The rule of a reserved word does not fit where the word goes on. -/
theorem finds_eq_none {q : Rule × String} (hq : q ∈ reserved) {x : Char} {behind : List Char}
    (htext : c.rest = q.2.toList ++ x :: behind) (hx : IsLetter x ∨ IsDigit x) :
    q.1.finds c log = none := by
  rw [← Option.not_isSome_iff_eq_none, isSome_finds_reserved c log hq]
  intro heq
  -- the reserved word and the character behind it would be a part of the reserved word
  have hword := isLeadingWord_takeWhile c.rest
  rw [heq] at hword
  have hcharacters : ∀ y ∈ q.2.toList ++ [x], IsLetter y ∨ IsDigit y := by
    intro y hy
    rcases List.mem_append.1 hy with hy | hy
    · exact hword.characters y hy
    · exact List.mem_singleton.1 hy ▸ hx
  have hfront : q.2.toList ++ [x] <+: c.rest := by
    rw [htext]
    exact ⟨behind, by rw [List.append_assoc, List.singleton_append]⟩
  have hlength := (hword.longest _ hfront hcharacters).length_le
  rw [List.length_append, List.length_singleton] at hlength
  omega

/-- Words are classified exactly. At every place, whatever has been tried before, the longest word
there decides: it is an identifier if it is not empty, does not begin with a digit and is not
reserved, and each reserved word fits only where it is the whole word. Whichever rule fits takes
exactly the word, no two of them fit, and no reserved word is split off a longer word. -/
theorem classifiesWord :
    ClassifiesWord c log (c.rest.takeWhile isWordChar) (c.rest.dropWhile isWordChar) where
  text := List.takeWhile_append_dropWhile.symm
  word := isLeadingWord_takeWhile c.rest
  identifier := isSome_finds_identifier c log
  keyword := fun _ hq => isSome_finds_reserved c log hq
  whole := fun _ hr _ hm => eq_of_finds c log hr hm
  unique := fun _ hr _ hs => eq_of_isSome_finds c log hr hs
  unsplit := fun _ hq _ _ htext hx => finds_eq_none c log hq htext hx

end Rule

end IntScript.Grammar
