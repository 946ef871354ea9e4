import IntScript.Grammar.Laws

/-!
# Readings as derivations

The outcome of reading a phrase at a place is derived by rules that mention neither the log of
attempts nor the measure by which reading terminates. Reading finds an outcome exactly if it can be
derived, so what holds of all derivations holds of all readings, and an outcome is known as soon as
one derivation of it is.
-/

namespace IntScript.Grammar

/-- The outcomes of reading a phrase at a place: the place behind it with the fragments found, or
nothing where the phrase does not fit. -/
inductive Phrase.Reads : Phrase → Cursor → Option Found → Prop
  | start {c : Cursor} (h : c.pos = 0) : Reads .start c (some (c, []))
  | startElsewhere {c : Cursor} (h : c.pos ≠ 0) : Reads .start c none
  | word {w : Word} {c : Cursor} {t rest : List Char} (h : w.scan c.rest = some (t, rest)) :
      Reads (.word w) c (some (c.past t rest, []))
  | noWord {w : Word} {c : Cursor} (h : w.scan c.rest = none) : Reads (.word w) c none
  | notAhead {t : List Char} {c : Cursor} (h : dropText? t c.rest = none) :
      Reads (.notAhead t) c (some (c, []))
  | ahead {t rest : List Char} {c : Cursor} (h : dropText? t c.rest = some rest) :
      Reads (.notAhead t) c none
  | callWord {r : Rule} {w : Word} {c : Cursor} {t rest : List Char}
      (hr : r.definition = .word w) (h : w.scan c.rest = some (t, rest)) :
      Reads (.call r) c (some (c.past t rest, [.word r c.pos t]))
  | callNoWord {r : Rule} {w : Word} {c : Cursor} (hr : r.definition = .word w)
      (h : w.scan c.rest = none) : Reads (.call r) c none
  | callSilent {r : Rule} {p : Phrase} {c : Cursor} {o : Option Found}
      (hr : r.definition = .silent p) (h : Reads p c o) : Reads (.call r) c o
  | callPhrase {r : Rule} {p : Phrase} {c d : Cursor} {inner : List Fragment}
      (hr : r.definition = .phrase p) (h : Reads p c (some (d, inner))) :
      Reads (.call r) c (some (d, [.phrase r c.pos d.pos inner]))
  | callNoPhrase {r : Rule} {p : Phrase} {c : Cursor} (hr : r.definition = .phrase p)
      (h : Reads p c none) : Reads (.call r) c none
  | seq {p q : Phrase} {c d e : Cursor} {fs gs : List Fragment} (hp : Reads p c (some (d, fs)))
      (hq : Reads q d.skip (some (e, gs))) : Reads (.seq p q) c (some (e, fs ++ gs))
  | seqFirst {p q : Phrase} {c : Cursor} (hp : Reads p c none) : Reads (.seq p q) c none
  | seqSecond {p q : Phrase} {c d : Cursor} {fs : List Fragment} (hp : Reads p c (some (d, fs)))
      (hq : Reads q d.skip none) : Reads (.seq p q) c none
  | altFirst {p q : Phrase} {c : Cursor} {m : Found} (hp : Reads p c (some m)) :
      Reads (.alt p q) c (some m)
  | altSecond {p q : Phrase} {c : Cursor} {o : Option Found} (hp : Reads p c none)
      (hq : Reads q c o) : Reads (.alt p q) c o
  | opt {p : Phrase} {c : Cursor} {m : Found} (hp : Reads p c (some m)) :
      Reads (.opt p) c (some m)
  | optNone {p : Phrase} {c : Cursor} (hp : Reads p c none) : Reads (.opt p) c (some (c, []))
  | many {p : Phrase} {c d e : Cursor} {fs gs : List Fragment} (hc : p.consumes = true)
      (hp : Reads p c (some (d, fs))) (hm : Reads (.more p) d (some (e, gs))) :
      Reads (.many p) c (some (e, fs ++ gs))
  | manyOnce {p : Phrase} {c : Cursor} {m : Found} (hc : p.consumes = false)
      (hp : Reads p c (some m)) : Reads (.many p) c (some m)
  | manyNone {p : Phrase} {c : Cursor} (hp : Reads p c none) : Reads (.many p) c (some (c, []))
  | more {p : Phrase} {c d e : Cursor} {fs gs : List Fragment} (hc : p.consumes = true)
      (hp : Reads p c.skip (some (d, fs))) (hm : Reads (.more p) d (some (e, gs))) :
      Reads (.more p) c (some (e, fs ++ gs))
  | moreOnce {p : Phrase} {c : Cursor} {m : Found} (hc : p.consumes = false)
      (hp : Reads p c.skip (some m)) : Reads (.more p) c (some m)
  | moreNone {p : Phrase} {c : Cursor} (hp : Reads p c.skip none) :
      Reads (.more p) c (some (c, []))

namespace Phrase

/-- Repetitions of a phrase that may be empty stop behind the first one. -/
theorem read_many_once (p : Phrase) (hp : p.consumes = false) (c : Cursor) (log : Attempts) :
    (Phrase.many p).read c log =
      match p.read c log with
      | (log, none) => (log, some (c, []))
      | (log, some m) => (log, some m) := by
  simp only [read]
  rw [search]
  rcases p.search c log with ⟨l, _ | ⟨⟨d, fs⟩, hd⟩⟩
  · rfl
  · simp only [Option.map_some, hp, Bool.false_eq_true, dif_neg, not_false_eq_true]

/-- Further repetitions of a phrase that may be empty stop behind the first one. -/
theorem read_more_once (p : Phrase) (hp : p.consumes = false) (c : Cursor) (log : Attempts) :
    (Phrase.more p).read c log =
      match p.read c.skip log with
      | (log, none) => (log, some (c, []))
      | (log, some m) => (log, some m) := by
  simp only [read]
  rw [search]
  rcases p.search c.skip log with ⟨l, _ | ⟨⟨d, fs⟩, hd⟩⟩
  · rfl
  · simp only [Option.map_some, hp, Bool.false_eq_true, dif_neg, not_false_eq_true]

/-- A derived outcome is the one that reading finds, whatever has been tried before. -/
theorem read_of_reads {p : Phrase} {c : Cursor} {o : Option Found} (h : Reads p c o)
    (log : Attempts) : ∃ after, p.read c log = (after, o) := by
  induction h generalizing log with
  | start h => exact ⟨log, by rw [read_start, if_pos h]⟩
  | startElsewhere h => exact ⟨log, by rw [read_start, if_neg h]⟩
  | word h => exact ⟨log, by rw [read_word, h]⟩
  | noWord h => exact ⟨log, by rw [read_word, h]⟩
  | notAhead h => exact ⟨log, by rw [read_notAhead, h]; rfl⟩
  | ahead h => exact ⟨log, by rw [read_notAhead, h]; rfl⟩
  | callWord hr h => exact ⟨log, by rw [read_call_word hr, h]⟩
  | callNoWord hr h => exact ⟨_, by rw [read_call_word hr, h]⟩
  | callSilent hr _ ih =>
    obtain ⟨after, ha⟩ := ih log
    exact ⟨after, by rw [read_call_silent hr, ha]⟩
  | callPhrase hr _ ih =>
    obtain ⟨after, ha⟩ := ih log
    exact ⟨after, by rw [read_call_phrase hr, ha]⟩
  | callNoPhrase hr _ ih =>
    obtain ⟨after, ha⟩ := ih log
    exact ⟨_, by rw [read_call_phrase hr, ha]⟩
  | seq _ _ ihp ihq =>
    obtain ⟨mid, hm⟩ := ihp log
    obtain ⟨after, ha⟩ := ihq mid
    exact ⟨after, by rw [read_seq, hm]; dsimp only; rw [ha]⟩
  | seqFirst _ ihp =>
    obtain ⟨after, ha⟩ := ihp log
    exact ⟨after, by rw [read_seq, ha]⟩
  | seqSecond _ _ ihp ihq =>
    obtain ⟨mid, hm⟩ := ihp log
    obtain ⟨after, ha⟩ := ihq mid
    exact ⟨after, by rw [read_seq, hm]; dsimp only; rw [ha]⟩
  | altFirst _ ihp =>
    obtain ⟨after, ha⟩ := ihp log
    exact ⟨after, by rw [read_alt, ha]⟩
  | altSecond _ _ ihp ihq =>
    obtain ⟨mid, hm⟩ := ihp log
    obtain ⟨after, ha⟩ := ihq mid
    exact ⟨after, by rw [read_alt, hm]; dsimp only; rw [ha]⟩
  | opt _ ihp =>
    obtain ⟨after, ha⟩ := ihp log
    exact ⟨after, by rw [read_opt, ha]⟩
  | optNone _ ihp =>
    obtain ⟨after, ha⟩ := ihp log
    exact ⟨after, by rw [read_opt, ha]⟩
  | many hc _ _ ihp ihm =>
    obtain ⟨mid, hm⟩ := ihp log
    obtain ⟨after, ha⟩ := ihm mid
    exact ⟨after, by rw [read_many _ hc, hm]; dsimp only; rw [ha]⟩
  | manyOnce hc _ ihp =>
    obtain ⟨after, ha⟩ := ihp log
    exact ⟨after, by rw [read_many_once _ hc, ha]⟩
  | @manyNone p c _ ihp =>
    obtain ⟨after, ha⟩ := ihp log
    cases hc : p.consumes with
    | true => exact ⟨after, by rw [read_many _ hc, ha]⟩
    | false => exact ⟨after, by rw [read_many_once _ hc, ha]⟩
  | more hc _ _ ihp ihm =>
    obtain ⟨mid, hm⟩ := ihp log
    obtain ⟨after, ha⟩ := ihm mid
    exact ⟨after, by rw [read_more _ hc, hm]; dsimp only; rw [ha]⟩
  | moreOnce hc _ ihp =>
    obtain ⟨after, ha⟩ := ihp log
    exact ⟨after, by rw [read_more_once _ hc, ha]⟩
  | @moreNone p c _ ihp =>
    obtain ⟨after, ha⟩ := ihp log
    cases hc : p.consumes with
    | true => exact ⟨after, by rw [read_more _ hc, ha]⟩
    | false => exact ⟨after, by rw [read_more_once _ hc, ha]⟩

/-- Further repetitions always fit, if only as none at all. -/
theorem read_more_isSome (p : Phrase) (c : Cursor) (log : Attempts) :
    ∃ after m, (Phrase.more p).read c log = (after, some m) := by
  cases hc : p.consumes with
  | true =>
    rw [read_more p hc]
    rcases p.read c.skip log with ⟨l, _ | ⟨d, fs⟩⟩
    · exact ⟨l, _, rfl⟩
    · dsimp only
      rcases (Phrase.more p).read d l with ⟨l', _ | ⟨e, gs⟩⟩ <;> exact ⟨l', _, rfl⟩
  | false =>
    rw [read_more_once p hc]
    rcases p.read c.skip log with ⟨l, _ | m⟩ <;> exact ⟨l, _, rfl⟩

/-- What reading a phrase finds at a place can be derived. -/
def Derives (p : Phrase) (c : Cursor) : Prop :=
  ∀ ⦃log after : Attempts⦄ ⦃o : Option Found⦄, p.read c log = (after, o) → Reads p c o

namespace Derives

variable {p q : Phrase} {c : Cursor}

/-- The start of a text. -/
theorem start : Derives .start c := by
  intro log after o h
  rw [read_start] at h
  split at h <;> cases h
  · next hs => exact .start hs
  · next hs => exact .startElsewhere hs

/-- A word. -/
theorem word (w : Word) : Derives (.word w) c := by
  intro log after o h
  rw [read_word] at h
  split at h <;> cases h
  · next hs => exact .noWord hs
  · next hs => exact .word hs

/-- Text that must not come next. -/
theorem notAhead (t : List Char) : Derives (.notAhead t) c := by
  intro log after o h
  rw [read_notAhead] at h
  cases hd : dropText? t c.rest with
  | none =>
    rw [hd] at h
    cases h
    exact .notAhead hd
  | some rest =>
    rw [hd] at h
    cases h
    exact .ahead hd

/-- A rule that stands for a word. -/
theorem callWord {r : Rule} {w : Word} (hr : r.definition = .word w) : Derives (.call r) c := by
  intro log after o h
  rw [read_call_word hr] at h
  split at h <;> cases h
  · next hs => exact .callNoWord hr hs
  · next hs => exact .callWord hr hs

/-- A rule that stands for a phrase and leaves no fragment of its own. -/
theorem callSilent {r : Rule} (hr : r.definition = .silent p) (hp : Derives p c) :
    Derives (.call r) c := by
  intro log after o h
  rw [read_call_silent hr] at h
  exact .callSilent hr (hp h)

/-- A rule that stands for a phrase. -/
theorem callPhrase {r : Rule} (hr : r.definition = .phrase p) (hp : Derives p c) :
    Derives (.call r) c := by
  intro log after o h
  rw [read_call_phrase hr] at h
  rcases hread : p.read c log with ⟨l, m⟩
  rw [hread] at h
  cases m with
  | none =>
    cases h
    exact .callNoPhrase hr (hp hread)
  | some m =>
    cases h
    exact .callPhrase hr (hp hread)

/-- One phrase after another, with space between them. -/
theorem seq (hp : Derives p c) (hq : ∀ d, Behind p.consumes c d → Derives q d.skip) :
    Derives (.seq p q) c := by
  intro log after o h
  rw [read_seq] at h
  rcases hfirst : p.read c log with ⟨l, m⟩
  rw [hfirst] at h
  cases m with
  | none =>
    cases h
    exact .seqFirst (hp hfirst)
  | some m =>
    obtain ⟨d, fs⟩ := m
    dsimp only at h
    rcases hsecond : q.read d.skip l with ⟨l', n⟩
    have hreads := hq d (behind_of_read hfirst) hsecond
    rw [hsecond] at h
    cases n with
    | none =>
      cases h
      exact .seqSecond (hp hfirst) hreads
    | some n =>
      cases h
      exact .seq (hp hfirst) hreads

/-- The first one of two phrases that fits. -/
theorem alt (hp : Derives p c) (hq : Derives q c) : Derives (.alt p q) c := by
  intro log after o h
  rw [read_alt] at h
  rcases hfirst : p.read c log with ⟨l, m⟩
  rw [hfirst] at h
  cases m with
  | none => exact .altSecond (hp hfirst) (hq h)
  | some m =>
    cases h
    exact .altFirst (hp hfirst)

/-- A phrase that may be left out. -/
theorem opt (hp : Derives p c) : Derives (.opt p) c := by
  intro log after o h
  rw [read_opt] at h
  rcases hread : p.read c log with ⟨l, m⟩
  rw [hread] at h
  cases m with
  | none =>
    cases h
    exact .optNone (hp hread)
  | some m =>
    cases h
    exact .opt (hp hread)

/-- Repetitions of a phrase. -/
theorem many (hp : Derives p c)
    (hmore : p.consumes = true → ∀ d, Behind true c d → Derives (.more p) d) :
    Derives (.many p) c := by
  intro log after o h
  rcases hread : p.read c log with ⟨l, m⟩
  cases hc : p.consumes with
  | false =>
    rw [read_many_once p hc, hread] at h
    cases m with
    | none =>
      cases h
      exact .manyNone (hp hread)
    | some m =>
      cases h
      exact .manyOnce hc (hp hread)
  | true =>
    rw [read_many p hc, hread] at h
    cases m with
    | none =>
      cases h
      exact .manyNone (hp hread)
    | some m =>
      obtain ⟨d, fs⟩ := m
      obtain ⟨l', ⟨e, gs⟩, hfurther⟩ := read_more_isSome p d l
      dsimp only at h
      rw [hfurther] at h
      cases h
      exact .many hc (hp hread) (hmore hc d (hc ▸ behind_of_read hread) hfurther)

/-- Further repetitions of a phrase, each with space before it. -/
theorem more (hp : Derives p c.skip)
    (hmore : p.consumes = true → ∀ d, Behind true c.skip d → Derives (.more p) d) :
    Derives (.more p) c := by
  intro log after o h
  rcases hread : p.read c.skip log with ⟨l, m⟩
  cases hc : p.consumes with
  | false =>
    rw [read_more_once p hc, hread] at h
    cases m with
    | none =>
      cases h
      exact .moreNone (hp hread)
    | some m =>
      cases h
      exact .moreOnce hc (hp hread)
  | true =>
    rw [read_more p hc, hread] at h
    cases m with
    | none =>
      cases h
      exact .moreNone (hp hread)
    | some m =>
      obtain ⟨d, fs⟩ := m
      obtain ⟨l', ⟨e, gs⟩, hfurther⟩ := read_more_isSome p d l
      dsimp only at h
      rw [hfurther] at h
      cases h
      exact .more hc (hp hread) (hmore hc d (hc ▸ behind_of_read hread) hfurther)

end Derives

/-- What reading finds anywhere can be derived, by induction on the text that is left and, where
none of it is taken, on the rank of the phrase. -/
theorem derives (p : Phrase) (c : Cursor) : Derives p c := by
  match p with
  | .start => exact .start
  | .word w => exact .word w
  | .notAhead t => exact .notAhead t
  | .call r =>
    cases hd : r.definition with
    | word w => exact .callWord hd
    | silent body =>
      have hr : (Definition.silent body).rank ≤ r.rank := hd ▸ r.rank_definition
      exact .callSilent hd (derives body c)
    | phrase body =>
      have hr : (Definition.phrase body).rank ≤ r.rank := hd ▸ r.rank_definition
      exact .callPhrase hd (derives body c)
  | .seq p q => exact .seq (derives p c) fun d hd => derives q d.skip
  | .alt p q => exact .alt (derives p c) (derives q c)
  | .opt p => exact .opt (derives p c)
  | .many p => exact .many (derives p c) fun hc d hd => derives (.more p) d
  | .more p => exact .more (derives p c.skip) fun hc d hd => derives (.more p) d
termination_by (c.rest.length, p.rank)
decreasing_by
  · exact Prod.Lex.right _ (Nat.lt_of_succ_le hr)
  · exact Prod.Lex.right _ (Nat.lt_of_succ_le hr)
  · exact Prod.Lex.right _ (by simp only [rank]; split <;> omega)
  · have hs := d.skip_length
    have hl := hd.1
    by_cases hp : p.consumes = true
    · have hlt := hd.2 hp
      exact Prod.Lex.left _ _ (by omega)
    · rcases Nat.lt_or_eq_of_le (Nat.le_trans hs hl) with hlt | heq
      · exact Prod.Lex.left _ _ hlt
      · rw [heq]
        exact Prod.Lex.right _ (by simp only [rank, if_neg hp]; omega)
  · exact Prod.Lex.right _ (by simp only [rank]; omega)
  · exact Prod.Lex.right _ (by simp only [rank]; omega)
  · exact Prod.Lex.right _ (by simp only [rank]; omega)
  · exact Prod.Lex.right _ (by simp only [rank]; omega)
  · exact Prod.Lex.left _ _ (hd.2 rfl)
  · have hs := c.skip_length
    rcases Nat.lt_or_eq_of_le hs with hlt | heq
    · exact Prod.Lex.left _ _ hlt
    · rw [heq]
      exact Prod.Lex.right _ (by simp only [rank]; omega)
  · have hs := c.skip_length
    have hlt := hd.2 rfl
    exact Prod.Lex.left _ _ (by omega)

/-- What reading finds can be derived. -/
theorem reads_of_read {p : Phrase} {c : Cursor} {log after : Attempts} {o : Option Found}
    (h : p.read c log = (after, o)) : Reads p c o :=
  derives p c h

/-- Reading finds an outcome exactly if it can be derived, whatever has been tried before. -/
theorem reads_iff {p : Phrase} {c : Cursor} {o : Option Found} (log : Attempts) :
    Reads p c o ↔ (p.read c log).2 = o := by
  constructor
  · intro h
    obtain ⟨after, ha⟩ := read_of_reads h log
    rw [ha]
  · intro h
    have hr : p.read c log = ((p.read c log).1, o) := by rw [← h]
    exact reads_of_read hr

end Phrase

/-- The fragments of a text are those of the derivation at its start. -/
theorem Rule.read_eq_ok_iff {r : Rule} {source : List Char} {fs : List Fragment} :
    r.read source = .ok fs ↔ ∃ d, (Phrase.call r).Reads (.atStart source) (some (d, fs)) := by
  simp only [Phrase.reads_iff .none]
  unfold Rule.read
  rcases (Phrase.call r).read (.atStart source) .none with ⟨log, _ | ⟨d, gs⟩⟩
  · simp only [reduceCtorEq, exists_false]
  · simp only [Except.ok.injEq, Option.some.injEq, Prod.mk.injEq, exists_eq_left']

end IntScript.Grammar
