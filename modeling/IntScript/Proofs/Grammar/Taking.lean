import IntScript.Proofs.Grammar.Spacing

/-!
# What phrases take

Readings of phrases in front of tokens, whatever the space between the tokens: a phrase takes some
tokens, or it misses and takes none. One rule for each way of making phrases tells what a phrase
takes from what its parts take.
-/

namespace IntScript.Grammar

/-- A word that is to be found at a token, whatever follows it. -/
def Word.Fits (w : Word) (t : List Char) : Prop :=
  ∀ after, IsLoose after → w.scan (t ++ after) = some (t, after)

/-- A word that is not to be found at a token, whatever follows it. -/
def Word.Fails (w : Word) (t : List Char) : Prop :=
  ∀ after, IsLoose after → w.scan (t ++ after) = none

/-- A blank character cannot stand in a word. -/
theorem isWordChar_of_isSpace {c : Char} (h : isSpace c = true) : isWordChar c = false := by
  simp only [isSpace, Bool.or_eq_true, beq_iff_eq] at h
  rcases h with ((rfl | rfl) | rfl) | rfl <;> decide

/-- Whether a text without blanks comes next is decided within the token. -/
theorem dropText?_loose {s t after : List Char} (hs : s.all (fun c => !isSpace c) = true)
    (hafter : IsLoose after) :
    dropText? s (t ++ after) = (dropText? s t).map (· ++ after) := by
  induction s generalizing t with
  | nil => rfl
  | cons c s ih =>
    simp only [List.all_cons, Bool.and_eq_true] at hs
    cases t with
    | nil =>
      cases after with
      | nil => rfl
      | cons a after =>
        have hne : c ≠ a := by
          rintro rfl
          have hspace := hafter c rfl
          simp [hspace] at hs
        simp [dropText?, hne]
    | cons d t =>
      simp only [List.cons_append, dropText?]
      split
      · exact ih hs.2
      · rfl

/-- A run of word characters ends with its token. -/
theorem takeWhile_loose (t : List Char) {after : List Char} (hafter : IsLoose after) :
    (t ++ after).takeWhile isWordChar = t.takeWhile isWordChar := by
  induction t with
  | nil =>
    cases after with
    | nil => rfl
    | cons a after =>
      have ha := isWordChar_of_isSpace (hafter a rfl)
      simp [ha]
  | cons c t ih => rw [List.cons_append, List.takeWhile_cons, List.takeWhile_cons, ih]

/-- Behind a token that is a run of word characters comes what follows the token. -/
theorem dropWhile_loose {t after : List Char} (ht : t.all isWordChar = true)
    (hafter : IsLoose after) : (t ++ after).dropWhile isWordChar = after :=
  dropWhile_run ht fun c hc => isWordChar_of_isSpace (hafter c hc)

namespace Word

/-- A fixed text fits itself. -/
theorem fits_exact (t : List Char) : (exact t).Fits t := by
  intro after _
  rw [scan, dropText?_append]
  rfl

/-- A fixed text without blanks fails at a token that does not begin with it. -/
theorem fails_exact {s t : List Char} (hs : s.all (fun c => !isSpace c) = true)
    (h : dropText? s t = none) : (exact s).Fails t := by
  intro after hafter
  rw [scan, dropText?_loose hs hafter, h]
  rfl

/-- A reserved word fits its spelling. -/
theorem fits_keyword (k : Keyword) : (keyword k).Fits k.spelling := by
  intro after hafter
  have hrun : k.spelling.takeWhile isWordChar = k.spelling := by cases k <;> rfl
  rw [scan, scanKeyword_eq, takeWhile_loose _ hafter, if_pos hrun,
    dropWhile_loose k.spelling_all hafter]

/-- A reserved word fails at tokens that are not that word. -/
theorem fails_keyword {k : Keyword} {t : List Char} (h : t.takeWhile isWordChar ≠ k.spelling) :
    (keyword k).Fails t := by
  intro after hafter
  rw [scan, scanKeyword_eq, takeWhile_loose _ hafter, if_neg h]

/-- An identifier consists of word characters. -/
theorem all_of_isIdentifier {t : List Char} (h : isIdentifier t = true) :
    t.all isWordChar = true := by
  cases t with
  | nil => cases h
  | cons c t =>
    simp only [isIdentifier, Bool.and_eq_true] at h
    simp only [List.all_cons, isWordChar_of_isWordStart h.1.1, h.1.2, Bool.and_self]

/-- An identifier is found where it stands. -/
theorem fits_identifier {t : List Char} (h : isIdentifier t = true) : identifier.Fits t := by
  intro after hafter
  have hall := all_of_isIdentifier h
  have hrun : (t ++ after).takeWhile isWordChar = t :=
    takeWhile_run hall fun c hc => isWordChar_of_isSpace (hafter c hc)
  rw [scan_identifier_eq, hrun, if_pos h, dropWhile_loose hall hafter]

/-- No identifier is found at a token that does not begin with one. -/
theorem fails_identifier {t : List Char} (h : isIdentifier (t.takeWhile isWordChar) = false) :
    identifier.Fails t := by
  intro after hafter
  rw [scan_identifier_eq, takeWhile_loose _ hafter, h]
  rfl

/-- A row of digits is found where it stands. -/
theorem fits_integer {t : List Char} (hn : t ≠ []) (h : t.all Char.isDigit = true) :
    integer.Fits t := by
  intro after hafter
  have hdigit : ∀ c ∈ after.head?, c.isDigit = false := by
    intro c hc
    have hword := isWordChar_of_isSpace (hafter c hc)
    simp only [isWordChar, Char.isAlphanum, Bool.or_eq_false_iff] at hword
    exact hword.1.2
  cases t with
  | nil => exact absurd rfl hn
  | cons c t =>
    simp only [List.all_cons, Bool.and_eq_true] at h
    rw [scan, List.cons_append, scanRun, if_pos h.1, takeWhile_run h.2 hdigit,
      dropWhile_run h.2 hdigit]

/-- No row of digits is found at a token that does not begin with a digit. -/
theorem fails_integer {c : Char} {t : List Char} (h : c.isDigit = false) :
    integer.Fails (c :: t) := by
  intro after _
  rw [scan, List.cons_append, scanRun, if_neg (by simp [h])]

end Word

/-- Whether a rule stands for a fixed text with which a token does not begin. -/
def Rule.isUnlike (t : List Char) (r : Rule) : Bool :=
  match r.definition with
  | .word (.exact s) => s.all (fun c => !isSpace c) && (dropText? s t).isNone
  | _ => false

namespace Phrase

/-- In front of tokens a phrase is read up to other tokens, and the fragments found are as
described. -/
def Takes (p : Phrase) (ts us : List (List Char)) (Q : List Fragment → Prop) : Prop :=
  ∀ c, Stands ts c → ∃ d fs, Reads p c (some (d, fs)) ∧ Stands us d.skip ∧ Q fs

/-- In front of tokens a phrase does not fit. -/
def Misses (p : Phrase) (ts : List (List Char)) : Prop := ∀ c, Stands ts c → Reads p c none

/-- Behind a first one, further repetitions of a phrase are read up to other tokens. -/
def TakesMore (p : Phrase) (ts us : List (List Char)) (Q : List Fragment → Prop) : Prop :=
  ∀ c, Stands ts c.skip → ∃ d fs, Reads (.more p) c (some (d, fs)) ∧ Stands us d.skip ∧ Q fs

variable {p q : Phrase} {r : Rule} {w : Word} {t : List Char} {ts us vs : List (List Char)}
  {Q Q' : List Fragment → Prop}

/-- Less can be said about the fragments. -/
theorem Takes.weaken (h : Takes p ts us Q) (hQ : ∀ fs, Q fs → Q' fs) : Takes p ts us Q' := by
  intro c hc
  obtain ⟨d, fs, hreads, hd, hfs⟩ := h c hc
  exact ⟨d, fs, hreads, hd, hQ fs hfs⟩

/-- A word that fits takes its token. -/
theorem Takes.word (h : w.Fits t) : Takes (.word w) (t :: ts) ts (· = []) := by
  intro c hc
  obtain ⟨after, hrest, hloose, hnext⟩ := hc.next
  have hscan : w.scan c.rest = some (t, after) := by rw [hrest, h after hloose]
  exact ⟨_, _, .word hscan, hnext, rfl⟩

/-- A word that fails misses. -/
theorem Misses.word (h : w.Fails t) : Misses (.word w) (t :: ts) := by
  intro c hc
  obtain ⟨after, hrest, hloose, -⟩ := hc.next
  exact .noWord (by rw [hrest, h after hloose])

/-- A word that cannot be empty misses at the end of the text. -/
theorem Misses.word_nil (h : w.scan [] = none) : Misses (.word w) [] := by
  intro c hc
  exact .noWord (by rw [hc.rest_eq_nil, h])

/-- A rule for a word takes its token and shows it. -/
theorem Takes.callWord (hr : r.definition = .word w) (h : w.Fits t) :
    Takes (.call r) (t :: ts) ts fun fs => ∃ pos, fs = [.word r pos t] := by
  intro c hc
  obtain ⟨after, hrest, hloose, hnext⟩ := hc.next
  have hscan : w.scan c.rest = some (t, after) := by rw [hrest, h after hloose]
  exact ⟨_, _, .callWord hr hscan, hnext, c.pos, rfl⟩

/-- A rule for a word that fails misses. -/
theorem Misses.callWord (hr : r.definition = .word w) (h : w.Fails t) :
    Misses (.call r) (t :: ts) := by
  intro c hc
  obtain ⟨after, hrest, hloose, -⟩ := hc.next
  exact .callNoWord hr (by rw [hrest, h after hloose])

/-- Rules for fixed texts miss at a token that begins with none of them. -/
theorem misses_of_isUnlike {rs : List Rule} (h : rs.all (Rule.isUnlike t) = true) :
    ∀ r ∈ rs, Misses (.call r) (t :: ts) := by
  intro r hr
  have h := List.all_eq_true.1 h r hr
  rw [Rule.isUnlike] at h
  split at h
  · next s hr =>
    rw [Bool.and_eq_true, Option.isNone_iff_eq_none] at h
    exact .callWord hr (Word.fails_exact h.1 h.2)
  · cases h

/-- A rule for a word that cannot be empty misses at the end of the text. -/
theorem Misses.callWord_nil (hr : r.definition = .word w) (h : w.scan [] = none) :
    Misses (.call r) [] := by
  intro c hc
  exact .callNoWord hr (by rw [hc.rest_eq_nil, h])

/-- Looking ahead takes nothing. -/
theorem Takes.notAhead {s : List Char} (hs : s.all (fun c => !isSpace c) = true)
    (h : dropText? s t = none) : Takes (.notAhead s) (t :: ts) (t :: ts) (· = []) := by
  intro c hc
  obtain ⟨after, hrest, hloose, -⟩ := hc.next
  have hnone : dropText? s c.rest = none := by rw [hrest, dropText?_loose hs hloose, h]; rfl
  refine ⟨c, [], .notAhead hnone, ?_, rfl⟩
  rw [hc.skip_eq]
  exact hc

/-- A silent rule takes what its body takes. -/
theorem Takes.callSilent (hr : r.definition = .silent p) (h : Takes p ts us Q) :
    Takes (.call r) ts us Q := by
  intro c hc
  obtain ⟨d, fs, hreads, hd, hfs⟩ := h c hc
  exact ⟨d, fs, .callSilent hr hreads, hd, hfs⟩

/-- A silent rule misses where its body does. -/
theorem Misses.callSilent (hr : r.definition = .silent p) (h : Misses p ts) :
    Misses (.call r) ts := fun c hc => .callSilent hr (h c hc)

/-- A rule for a phrase takes what its body takes and shows it as a fragment. -/
theorem Takes.callPhrase (hr : r.definition = .phrase p) (h : Takes p ts us Q) :
    Takes (.call r) ts us fun fs => ∃ start stop inner,
      fs = [.phrase r start stop inner] ∧ Q inner := by
  intro c hc
  obtain ⟨d, fs, hreads, hd, hfs⟩ := h c hc
  exact ⟨d, _, .callPhrase hr hreads, hd, c.pos, d.pos, fs, rfl, hfs⟩

/-- A rule for a phrase misses where its body does. -/
theorem Misses.callPhrase (hr : r.definition = .phrase p) (h : Misses p ts) :
    Misses (.call r) ts := fun c hc => .callNoPhrase hr (h c hc)

/-- One phrase takes tokens and the next one goes on behind them. -/
theorem Takes.seq (hp : Takes p ts us Q) (hq : Takes q us vs Q') :
    Takes (.seq p q) ts vs fun fs => ∃ gs hs, fs = gs ++ hs ∧ Q gs ∧ Q' hs := by
  intro c hc
  obtain ⟨d, gs, hreads, hd, hgs⟩ := hp c hc
  obtain ⟨e, hs, hreads', he, hhs⟩ := hq d.skip hd
  exact ⟨e, gs ++ hs, .seq hreads hreads', he, gs, hs, rfl, hgs, hhs⟩

/-- Phrases in order miss where the first one does. -/
theorem Misses.seq_first (hp : Misses p ts) : Misses (.seq p q) ts :=
  fun c hc => .seqFirst (hp c hc)

/-- Phrases in order miss if the second one misses behind the first one. -/
theorem Misses.seq_second (hp : Takes p ts us Q) (hq : Misses q us) : Misses (.seq p q) ts := by
  intro c hc
  obtain ⟨d, fs, hreads, hd, -⟩ := hp c hc
  exact .seqSecond hreads (hq d.skip hd)

/-- The first alternative takes what it can. -/
theorem Takes.alt_first (hp : Takes p ts us Q) : Takes (.alt p q) ts us Q := by
  intro c hc
  obtain ⟨d, fs, hreads, hd, hfs⟩ := hp c hc
  exact ⟨d, fs, .altFirst hreads, hd, hfs⟩

/-- The second alternative takes what the first one misses. -/
theorem Takes.alt_second (hp : Misses p ts) (hq : Takes q ts us Q) :
    Takes (.alt p q) ts us Q := by
  intro c hc
  obtain ⟨d, fs, hreads, hd, hfs⟩ := hq c hc
  exact ⟨d, fs, .altSecond (hp c hc) hreads, hd, hfs⟩

/-- Alternatives that all miss. -/
theorem Misses.alt (hp : Misses p ts) (hq : Misses q ts) : Misses (.alt p q) ts :=
  fun c hc => .altSecond (hp c hc) (hq c hc)

/-- Several rules miss if each of them does. -/
theorem Misses.oneOf {rs : List Rule} (h : ∀ x ∈ r :: rs, Misses (.call x) ts) :
    Misses (oneOf r rs) ts := by
  induction rs generalizing r with
  | nil => exact h r List.mem_cons_self
  | cons q rs ih =>
    rw [List.forall_mem_cons] at h
    exact .alt h.1 (ih h.2)

/-- Of several rules one takes what all before it miss. -/
theorem Takes.oneOf {rs : List Rule} {x : Rule} (hx : x ∈ r :: rs)
    (hbefore : ∀ y ∈ (r :: rs).takeWhile (· ≠ x), Misses (.call y) ts)
    (h : Takes (.call x) ts us Q) : Takes (oneOf r rs) ts us Q := by
  induction rs generalizing r with
  | nil =>
    cases List.mem_singleton.1 hx
    exact h
  | cons q rs ih =>
    by_cases hr : r = x
    · subst hr
      exact .alt_first h
    · rw [List.takeWhile_cons_of_pos (by simpa using hr), List.forall_mem_cons] at hbefore
      have hx' : x ∈ q :: rs := (List.mem_cons.1 hx).resolve_left fun he => hr he.symm
      exact .alt_second hbefore.1 (ih hx' hbefore.2)

/-- A phrase or nothing, where the phrase takes something. -/
theorem Takes.opt (hp : Takes p ts us Q) : Takes (.opt p) ts us Q := by
  intro c hc
  obtain ⟨d, fs, hreads, hd, hfs⟩ := hp c hc
  exact ⟨d, fs, .opt hreads, hd, hfs⟩

/-- A phrase or nothing, where the phrase misses. -/
theorem Takes.opt_none (hp : Misses p ts) : Takes (.opt p) ts ts (· = []) := by
  intro c hc
  refine ⟨c, [], .optNone (hp c hc), ?_, rfl⟩
  rw [hc.skip_eq]
  exact hc

/-- No repetition of a phrase that misses. -/
theorem Takes.many_none (hp : Misses p ts) : Takes (.many p) ts ts (· = []) := by
  intro c hc
  refine ⟨c, [], .manyNone (hp c hc), ?_, rfl⟩
  rw [hc.skip_eq]
  exact hc

/-- A repetition and further ones behind it. -/
theorem Takes.many (hc : p.consumes = true) (hp : Takes p ts us Q) (hm : TakesMore p us vs Q') :
    Takes (.many p) ts vs fun fs => ∃ gs hs, fs = gs ++ hs ∧ Q gs ∧ Q' hs := by
  intro c hstands
  obtain ⟨d, gs, hreads, hd, hgs⟩ := hp c hstands
  obtain ⟨e, hs, hreads', he, hhs⟩ := hm d hd
  exact ⟨e, gs ++ hs, .many hc hreads hreads', he, gs, hs, rfl, hgs, hhs⟩

/-- Less can be said about the fragments of further repetitions. -/
theorem TakesMore.weaken (h : TakesMore p ts us Q) (hQ : ∀ fs, Q fs → Q' fs) :
    TakesMore p ts us Q' := by
  intro c hc
  obtain ⟨d, fs, hreads, hd, hfs⟩ := h c hc
  exact ⟨d, fs, hreads, hd, hQ fs hfs⟩

/-- No further repetition of a phrase that misses. -/
theorem TakesMore.none (hp : Misses p ts) : TakesMore p ts ts (· = []) :=
  fun c hc => ⟨c, [], .moreNone (hp c.skip hc), hc, rfl⟩

/-- A further repetition and more behind it. -/
theorem TakesMore.more (hc : p.consumes = true) (hp : Takes p ts us Q)
    (hm : TakesMore p us vs Q') :
    TakesMore p ts vs fun fs => ∃ gs hs, fs = gs ++ hs ∧ Q gs ∧ Q' hs := by
  intro c hstands
  obtain ⟨d, gs, hreads, hd, hgs⟩ := hp c.skip hstands
  obtain ⟨e, hs, hreads', he, hhs⟩ := hm d hd
  exact ⟨e, gs ++ hs, .more hc hreads hreads', he, gs, hs, rfl, hgs, hhs⟩

end Phrase

end IntScript.Grammar
