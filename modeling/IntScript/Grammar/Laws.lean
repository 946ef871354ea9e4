import IntScript.Grammar.Reading

/-!
# Laws of reading

One equation for each form of phrase says how it is read, in terms of the readings of its parts.
They are all that is needed to reason about reading; the bookkeeping by which it terminates does
not appear in them. The last statement says that reading moves forward.
-/
namespace IntScript.Grammar.Phrase

/-- The start of the text matches nothing, at offset zero only. -/
theorem read_start (c : Cursor) (log : Attempts) :
    Phrase.start.read c log = (log, if c.pos = 0 then some (c, []) else none) := by
  simp only [read]
  rw [search]
  by_cases h : c.pos = 0 <;> simp [h]

/-- A word is scanned off the text and leaves no fragment. -/
theorem read_word (w : Word) (c : Cursor) (log : Attempts) :
    (Phrase.word w).read c log =
      match w.scan c.rest with
      | none => (log, none)
      | some (t, rest) => (log, some (c.past t rest, [])) := by
  simp only [read]
  rw [search]
  split <;> simp_all

/-- A text that must not come next takes nothing. -/
theorem read_notAhead (t : List Char) (c : Cursor) (log : Attempts) :
    (Phrase.notAhead t).read c log =
      (log, if (dropText? t c.rest).isSome then none else some (c, [])) := by
  simp only [read]
  rw [search]
  by_cases h : (dropText? t c.rest).isSome = true <;> simp [h]

/-- The second phrase is read behind the first one and the space that follows it. -/
theorem read_seq (p q : Phrase) (c : Cursor) (log : Attempts) :
    (Phrase.seq p q).read c log =
      match p.read c log with
      | (log, none) => (log, none)
      | (log, some (d, fs)) =>
        match q.read d.skip log with
        | (log, none) => (log, none)
        | (log, some (e, gs)) => (log, some (e, fs ++ gs)) := by
  simp only [read]
  rw [search]
  rcases p.search c log with ⟨l, _ | ⟨⟨d, fs⟩, hd⟩⟩
  · rfl
  · simp only [Option.map_some]
    rcases q.search d.skip l with ⟨l', _ | ⟨⟨e, gs⟩, he⟩⟩ <;> rfl

/-- The second phrase is read only where the first one does not fit. -/
theorem read_alt (p q : Phrase) (c : Cursor) (log : Attempts) :
    (Phrase.alt p q).read c log =
      match p.read c log with
      | (log, some m) => (log, some m)
      | (log, none) => q.read c log := by
  simp only [read]
  rw [search]
  rcases p.search c log with ⟨l, _ | ⟨m, hm⟩⟩
  · simp only [Option.map_none]
    rcases q.search c l with ⟨l', _ | ⟨m, hm⟩⟩ <;> rfl
  · rfl

/-- An optional phrase always fits. -/
theorem read_opt (p : Phrase) (c : Cursor) (log : Attempts) :
    (Phrase.opt p).read c log =
      match p.read c log with
      | (log, none) => (log, some (c, []))
      | (log, some m) => (log, some m) := by
  simp only [read]
  rw [search]
  rcases p.search c log with ⟨l, _ | ⟨m, hm⟩⟩ <;> rfl

/-- Repetitions are read until the phrase no longer fits. -/
theorem read_many (p : Phrase) (hp : p.consumes = true) (c : Cursor) (log : Attempts) :
    (Phrase.many p).read c log =
      match p.read c log with
      | (log, none) => (log, some (c, []))
      | (log, some (d, fs)) =>
        match (Phrase.more p).read d log with
        | (log, none) => (log, some (d, fs))
        | (log, some (e, gs)) => (log, some (e, fs ++ gs)) := by
  simp only [read]
  rw [search]
  rcases p.search c log with ⟨l, _ | ⟨⟨d, fs⟩, hd⟩⟩
  · rfl
  · simp only [Option.map_some, dif_pos hp]
    rcases (Phrase.more p).search d l with ⟨l', _ | ⟨⟨e, gs⟩, he⟩⟩ <;> rfl

/-- A further repetition may have space before it, which is not taken if the phrase does not fit
behind it. -/
theorem read_more (p : Phrase) (hp : p.consumes = true) (c : Cursor) (log : Attempts) :
    (Phrase.more p).read c log =
      match p.read c.skip log with
      | (log, none) => (log, some (c, []))
      | (log, some (d, fs)) =>
        match (Phrase.more p).read d log with
        | (log, none) => (log, some (d, fs))
        | (log, some (e, gs)) => (log, some (e, fs ++ gs)) := by
  simp only [read]
  rw [search]
  rcases p.search c.skip log with ⟨l, _ | ⟨⟨d, fs⟩, hd⟩⟩
  · rfl
  · simp only [Option.map_some, dif_pos hp]
    rcases (Phrase.more p).search d l with ⟨l', _ | ⟨⟨e, gs⟩, he⟩⟩ <;> rfl

/-- A rule that is a word leaves the word as a fragment, and its failure is recorded. -/
theorem read_call_word {r : Rule} {w : Word} (hr : r.definition = .word w) (c : Cursor)
    (log : Attempts) :
    (Phrase.call r).read c log =
      match w.scan c.rest with
      | none => (log.record r c.pos (log.countAt c.pos), none)
      | some (t, rest) => (log, some (c.past t rest, [.word r c.pos t])) := by
  simp only [read]
  rw [search]
  split
  · next v hv =>
    obtain rfl : v = w := by simpa [hr] using hv.symm
    split <;> simp_all
  · simp_all
  · simp_all

/-- A rule that is a phrase leaves a fragment around those of its body, and its failure is
recorded. -/
theorem read_call_phrase {r : Rule} {p : Phrase} (hr : r.definition = .phrase p) (c : Cursor)
    (log : Attempts) :
    (Phrase.call r).read c log =
      match p.read c log with
      | (after, none) => (after.record r c.pos (log.countAt c.pos), none)
      | (after, some (d, inner)) => (after, some (d, [.phrase r c.pos d.pos inner])) := by
  simp only [read]
  rw [search]
  split
  · simp_all
  · simp_all
  · next v hv =>
    obtain rfl : v = p := by simpa [hr] using hv.symm
    rcases v.search c log with ⟨l, _ | ⟨⟨d, fs⟩, hd⟩⟩ <;> rfl

/-- A silent rule is read as its body. -/
theorem read_call_silent {r : Rule} {p : Phrase} (hr : r.definition = .silent p) (c : Cursor)
    (log : Attempts) :
    (Phrase.call r).read c log = p.read c log := by
  simp only [read]
  rw [search]
  split
  · simp_all
  · next v hv =>
    obtain rfl : v = p := by simpa [hr] using hv.symm
    rcases v.search c log with ⟨l, _ | ⟨m, hm⟩⟩ <;> rfl
  · simp_all

/-- Reading never gives back text, and takes some if the phrase cannot be empty. -/
theorem behind_of_read {p : Phrase} {c d : Cursor} {log after : Attempts} {fs : List Fragment}
    (h : p.read c log = (after, some (d, fs))) : Behind p.consumes c d := by
  simp only [read] at h
  rcases hs : p.search c log with ⟨l, _ | ⟨⟨e, gs⟩, he⟩⟩
  · simp [hs] at h
  · simp only [hs, Option.map_some, Prod.mk.injEq, Option.some.injEq] at h
    exact h.2.1 ▸ he

end IntScript.Grammar.Phrase
