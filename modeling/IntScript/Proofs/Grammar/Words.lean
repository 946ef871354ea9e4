import IntScript.Grammar.Word

/-!
# How words are told apart

A text starts with a run of word characters, which may be empty. Whether a reserved word or an
identifier comes next depends on that run alone, and what is taken is the whole run: no reserved
word is split off the front of a longer word.
-/

namespace IntScript.Grammar

/-- Whether a word has the form of an identifier and is not reserved. -/
def isIdentifier : List Char → Bool
  | [] => false
  | c :: cs =>
    isWordStart c && cs.all isWordChar && Keyword.all.all fun k => k.spelling != c :: cs

/-- A text begins with itself. -/
theorem dropText?_append (s cs : List Char) : dropText? s (s ++ cs) = some cs := by
  induction s with
  | nil => simp only [dropText?, List.nil_append]
  | cons c s ih => simp only [List.cons_append, dropText?, if_true, ih]

/-- A run of characters of a class ends where the class does. -/
theorem takeWhile_run {p : Char → Bool} {w rest : List Char} (hw : w.all p = true)
    (hr : ∀ c ∈ rest.head?, p c = false) : (w ++ rest).takeWhile p = w := by
  rw [List.takeWhile_append_of_pos (List.all_eq_true.1 hw)]
  cases rest with
  | nil => simp
  | cons c rest => simp [hr c rfl]

/-- What follows a run of characters of a class. -/
theorem dropWhile_run {p : Char → Bool} {w rest : List Char} (hw : w.all p = true)
    (hr : ∀ c ∈ rest.head?, p c = false) : (w ++ rest).dropWhile p = rest := by
  rw [List.dropWhile_append_of_pos (List.all_eq_true.1 hw)]
  cases rest with
  | nil => rfl
  | cons c rest => simp [hr c rfl]

/-- What follows a run does not go on with the class. -/
theorem head_dropWhile (p : Char → Bool) (cs : List Char) :
    ∀ c ∈ (cs.dropWhile p).head?, p c = false := by
  intro c hc
  have hh := List.head?_dropWhile_not p cs
  rw [Option.mem_def.1 hc] at hh
  simpa using hh

/-- Reserved words consist of word characters. -/
theorem Keyword.spelling_all (k : Keyword) : k.spelling.all isWordChar = true := by
  cases k <;> decide

/-- A reserved word comes next exactly if it is the whole run of word characters. -/
theorem scanKeyword_eq (k : Keyword) (cs : List Char) :
    scanKeyword k cs =
      if cs.takeWhile isWordChar = k.spelling then some (k.spelling, cs.dropWhile isWordChar)
      else none := by
  split
  · next hw =>
    have hd : dropText? k.spelling cs = some (cs.dropWhile isWordChar) := by
      have hcs := List.takeWhile_append_dropWhile (p := isWordChar) (l := cs)
      rw [hw] at hcs
      rw [← dropText?_append k.spelling (cs.dropWhile isWordChar), hcs]
    have hh := head_dropWhile isWordChar cs
    rw [scanKeyword, hd]
    cases hr : cs.dropWhile isWordChar with
    | nil => rfl
    | cons c rest =>
      rw [hr] at hh
      simp [hh c rfl]
  · next hw =>
    cases hs : scanKeyword k cs with
    | none => rfl
    | some m =>
      obtain ⟨t, rest⟩ := m
      obtain ⟨happ, ht⟩ := scanKeyword_append hs
      refine absurd ?_ hw
      have hrest : ∀ c ∈ rest.head?, isWordChar c = false := by
        intro c hc
        have hd : dropText? k.spelling cs = some rest := by
          rw [happ, ht, dropText?_append]
        rw [scanKeyword, hd] at hs
        cases rest with
        | nil => simp at hc
        | cons b rest =>
          simp only [List.head?_cons, Option.mem_def, Option.some.injEq] at hc
          subst hc
          have hb : isWordChar b = false ∧ k.spelling = t := by simpa using hs
          exact hb.1
      rw [happ, ht, takeWhile_run k.spelling_all hrest]

/-- A letter or underscore is a word character. -/
theorem isWordChar_of_isWordStart {c : Char} (h : isWordStart c = true) : isWordChar c = true := by
  simp only [isWordStart, Bool.or_eq_true] at h
  simp only [isWordChar, Char.isAlphanum, Bool.or_eq_true]
  rcases h with h | h
  · exact .inl (.inl h)
  · exact .inr h

/-- An identifier comes next exactly if the run of word characters is one. -/
theorem scan_identifier_eq (cs : List Char) :
    Word.identifier.scan cs =
      if isIdentifier (cs.takeWhile isWordChar) then
        some (cs.takeWhile isWordChar, cs.dropWhile isWordChar)
      else none := by
  have hk : (Keyword.all.any fun k => (scanKeyword k cs).isSome) =
      !(Keyword.all.all fun k => k.spelling != cs.takeWhile isWordChar) := by
    simp only [scanKeyword_eq, Keyword.all, List.any_cons, List.any_nil, List.all_cons,
      List.all_nil]
    grind
  rw [Word.scan, hk]
  cases cs with
  | nil => rfl
  | cons c cs =>
    by_cases hc : isWordStart c = true
    · have hw := isWordChar_of_isWordStart hc
      have hall : (cs.takeWhile isWordChar).all isWordChar = true := by simp
      rw [List.takeWhile_cons_of_pos hw, List.dropWhile_cons_of_pos hw]
      simp only [isIdentifier, hc, hall, Bool.true_and, scanRun, if_true]
      cases Keyword.all.all fun k => k.spelling != c :: cs.takeWhile isWordChar <;> rfl
    · have hn : isIdentifier ((c :: cs).takeWhile isWordChar) = false := by
        by_cases hw : isWordChar c = true
        · rw [List.takeWhile_cons_of_pos hw]
          simp [isIdentifier, hc]
        · rw [List.takeWhile_cons_of_neg hw]
          rfl
      rw [hn]
      simp [scanRun, hc]

end IntScript.Grammar
