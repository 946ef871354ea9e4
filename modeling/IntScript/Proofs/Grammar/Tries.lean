import IntScript.Proofs.Grammar.Cuts

/-!
# Readings and how far they look

A reading by ordered choice may look further into a text than what it takes in the end: it goes
along one alternative, fails there and takes another one. Its reach is the furthest place at which
it has looked for a word. Readings are described here with their reach, on texts without space at
the front, so that neither offsets nor fragments nor the space between words appear. The furthest
place in the log of attempts never lies behind the reach.
-/

namespace IntScript.Grammar

/-- The phrase that a definition stands for. -/
def Definition.body : Definition → Phrase
  | .word w => .word w
  | .phrase p | .silent p => p

/-- Whether a rule has to do with space or with single characters, or is the whole program. No rule
refers to these. -/
def Rule.isOuter : Rule → Bool
  | .program | .whitespace | .comment | .keyword | .identifierChar => true
  | _ => false

namespace Phrase

/-- Whether a phrase is made up of plain words as rules are: repeated phrases take text, and one
character decides about what must not come next. -/
def isRegular : Phrase → Bool
  | .start | .more _ => false
  | .word w => w.isPlain
  | .notAhead t => t.length == 1
  | .call r => !r.isOuter
  | .seq p q | .alt p q => p.isRegular && q.isRegular
  | .many p => p.consumes && p.isRegular
  | .opt p => p.isRegular

/-- Rules that others refer to stand for regular phrases. -/
theorem isRegular_body {r : Rule} {f : Definition} (hr : r.definition = f)
    (h : (call r).isRegular = true) : f.body.isRegular = true := by
  subst hr
  revert h
  cases r <;> decide

end Phrase

/-- The further one of two places in a text, which are given by what comes behind them. -/
def further (a b : List Char) : List Char := if b.length < a.length then b else a

/-- Which one of two places is the further one. -/
theorem further_cases (a b : List Char) :
    (b.length < a.length ∧ further a b = b) ∨ (a.length ≤ b.length ∧ further a b = a) := by
  unfold further
  split
  · next h => exact .inl ⟨h, rfl⟩
  · next h => exact .inr ⟨Nat.le_of_not_lt h, rfl⟩

/-- The further one of two places lies behind both of them. -/
theorem further_suffix {a b cs : List Char} (ha : a <:+ cs) (hb : b <:+ cs) :
    further a b <:+ a ∧ further a b <:+ b := by
  rcases further_cases a b with ⟨hlt, heq⟩ | ⟨hle, heq⟩
  · rw [heq]
    exact ⟨List.suffix_of_suffix_length_le hb ha (Nat.le_of_lt hlt), List.suffix_refl b⟩
  · rw [heq]
    exact ⟨List.suffix_refl a, List.suffix_of_suffix_length_le ha hb hle⟩

/-- A text can be cut at the further one of two places where it can be cut. -/
theorem Leads.further {cs a b : List Char} (ha : Leads cs a) (hb : Leads cs b) :
    Leads cs (further a b) := by
  rcases further_cases a b with ⟨-, heq⟩ | ⟨-, heq⟩
  · rw [heq]
    exact hb
  · rw [heq]
    exact ha

/-- The outcome of reading a phrase in front of a text, and the reach of the reading. The outcome is
what is left behind the phrase and the space that follows it, or nothing where the phrase does not
fit. -/
inductive Phrase.Tries : Phrase → List Char → Option (List Char) → List Char → Prop
  | word {w : Word} {cs t rest : List Char} (h : w.scan cs = some (t, rest)) :
      Tries (.word w) cs (some (bare rest)) cs
  | noWord {w : Word} {cs : List Char} (h : w.scan cs = none) : Tries (.word w) cs none cs
  | notAhead {t cs : List Char} (h : dropText? t cs = none) : Tries (.notAhead t) cs (some cs) cs
  | ahead {t cs rest : List Char} (h : dropText? t cs = some rest) : Tries (.notAhead t) cs none cs
  | call {r : Rule} {cs e : List Char} {o : Option (List Char)}
      (h : Tries r.definition.body cs o e) : Tries (.call r) cs o e
  | seq {p q : Phrase} {cs ds e e' : List Char} {o : Option (List Char)}
      (hp : Tries p cs (some ds) e) (hq : Tries q ds o e') : Tries (.seq p q) cs o (further e e')
  | seqFirst {p q : Phrase} {cs e : List Char} (hp : Tries p cs none e) :
      Tries (.seq p q) cs none e
  | altFirst {p q : Phrase} {cs ds e : List Char} (hp : Tries p cs (some ds) e) :
      Tries (.alt p q) cs (some ds) e
  | altSecond {p q : Phrase} {cs e e' : List Char} {o : Option (List Char)}
      (hp : Tries p cs none e) (hq : Tries q cs o e') : Tries (.alt p q) cs o (further e e')
  | opt {p : Phrase} {cs ds e : List Char} (hp : Tries p cs (some ds) e) :
      Tries (.opt p) cs (some ds) e
  | optNone {p : Phrase} {cs e : List Char} (hp : Tries p cs none e) :
      Tries (.opt p) cs (some cs) e
  | many {p : Phrase} {cs ds es e e' : List Char} (hp : Tries p cs (some ds) e)
      (hm : Tries (.many p) ds (some es) e') : Tries (.many p) cs (some es) (further e e')
  | manyNone {p : Phrase} {cs e : List Char} (hp : Tries p cs none e) :
      Tries (.many p) cs (some cs) e

namespace Phrase

variable {p q : Phrase}

/-- A regular sequence or choice has regular parts. -/
theorem isRegular_parts (h : (p.isRegular && q.isRegular) = true) :
    p.isRegular = true ∧ q.isRegular = true := Bool.and_eq_true_iff.1 h

/-- A text can be cut at the reach of a reading and behind what it takes. -/
theorem Tries.leads {cs e : List Char} {o : Option (List Char)} (h : Tries p cs o e)
    (hp : p.isRegular = true) : Leads cs e ∧ ∀ ds ∈ o, Leads cs ds := by
  induction h with
  | word h =>
    refine ⟨.refl _, ?_⟩
    rintro _ ⟨⟩
    exact (Word.leads_of_scan hp h).trans (.bare _)
  | noWord _ => exact ⟨.refl _, by rintro _ ⟨⟩⟩
  | notAhead _ =>
    refine ⟨.refl _, ?_⟩
    rintro _ ⟨⟩
    exact .refl _
  | ahead _ => exact ⟨.refl _, by rintro _ ⟨⟩⟩
  | call _ ih => exact ih (isRegular_body rfl hp)
  | @seq p q cs ds e e' o _ _ ihp ihq =>
    obtain ⟨hp, hq⟩ := isRegular_parts hp
    obtain ⟨hreach, hds⟩ := ihp hp
    obtain ⟨hreach', hes⟩ := ihq hq
    have hlead := hds ds rfl
    exact ⟨hreach.further (hlead.trans hreach'), fun es hes' => hlead.trans (hes es hes')⟩
  | seqFirst _ ih => exact ⟨(ih (isRegular_parts hp).1).1, by rintro _ ⟨⟩⟩
  | altFirst _ ih => exact ih (isRegular_parts hp).1
  | @altSecond p q cs e e' o _ _ ihp ihq =>
    obtain ⟨hp, hq⟩ := isRegular_parts hp
    obtain ⟨hreach, -⟩ := ihp hp
    obtain ⟨hreach', hds⟩ := ihq hq
    exact ⟨hreach.further hreach', hds⟩
  | opt _ ih => exact ih hp
  | optNone _ ih =>
    refine ⟨(ih hp).1, ?_⟩
    rintro _ ⟨⟩
    exact .refl _
  | @many p cs ds es e e' _ _ ihp ihm =>
    obtain ⟨hreach, hds⟩ := ihp (Bool.and_eq_true_iff.1 hp).2
    obtain ⟨hreach', hes⟩ := ihm hp
    have hlead := hds ds rfl
    exact ⟨hreach.further (hlead.trans hreach'), fun es hes' => hlead.trans (hes es hes')⟩
  | manyNone _ ih =>
    refine ⟨(ih (Bool.and_eq_true_iff.1 hp).2).1, ?_⟩
    rintro _ ⟨⟩
    exact .refl _

/-- What is left behind a phrase has no space at the front. -/
theorem Tries.bare_eq {cs e : List Char} {o : Option (List Char)} (h : Tries p cs o e)
    (hcs : bare cs = cs) : ∀ ds ∈ o, bare ds = ds := by
  induction h with
  | word _ =>
    rintro _ ⟨⟩
    exact bare_bare _
  | notAhead _ => rintro _ ⟨⟩; exact hcs
  | call _ ih => exact ih hcs
  | seq _ _ ihp ihq => exact ihq (ihp hcs _ rfl)
  | altFirst _ ih => exact ih hcs
  | altSecond _ _ _ ih => exact ih hcs
  | opt _ ih => exact ih hcs
  | optNone _ _ => rintro _ ⟨⟩; exact hcs
  | many _ _ ihp ihm => exact ihm (ihp hcs _ rfl)
  | manyNone _ _ => rintro _ ⟨⟩; exact hcs
  | _ => rintro _ ⟨⟩

end Phrase

/-- What a reading from one place does to the log: its furthest place stays, or it becomes a place
that lies between that place and the reach of the reading. -/
def Attempts.Within (c : Cursor) (e : List Char) (log after : Attempts) : Prop :=
  after.pos = log.pos ∨ ∃ d, c.Before d ∧ d.pos = after.pos ∧ e <:+ d.rest

namespace Attempts

variable {c d : Cursor} {e e' e'' : List Char} {log mid after : Attempts}

/-- The log may stay as it is. -/
theorem Within.refl (c : Cursor) (e : List Char) (log : Attempts) : Within c e log log := .inl rfl

/-- One reading after another one that did not start behind it. -/
theorem Within.trans (h : Within c e log mid) (hcd : c.Before d) (h' : Within d e' mid after)
    (he : e'' <:+ e) (he' : e'' <:+ e') : Within c e'' log after := by
  rcases h' with hpos | ⟨f, hf, hpos, hreach⟩
  · rcases h with hpos' | ⟨f, hf, hpos', hreach⟩
    · exact .inl (hpos.trans hpos')
    · exact .inr ⟨f, hf, hpos'.trans hpos.symm, he.trans hreach⟩
  · exact .inr ⟨f, hcd.trans hf, hpos, he'.trans hreach⟩

/-- A reading from a later place. -/
theorem Within.of_before (hcd : c.Before d) (h : Within d e log after) : Within c e log after := by
  rcases h with hpos | ⟨f, hf, hpos, hreach⟩
  · exact .inl hpos
  · exact .inr ⟨f, hcd.trans hf, hpos, hreach⟩

/-- The failure of a rule is entered for the place where the rule was tried. -/
theorem Within.record (h : Within c e log after) (he : e <:+ c.rest) (r : Rule) (count : Nat) :
    Within c e log (after.record r c.pos count) := by
  have hpos : (after.record r c.pos count).pos = after.pos ∨
      (after.record r c.pos count).pos = c.pos := by
    unfold Attempts.record
    split
    · exact .inl rfl
    · split
      · exact .inr rfl
      · split
        · exact .inr rfl
        · exact .inl rfl
  rcases hpos with hpos | hpos
  · rcases h with hsame | ⟨d, hd, hd', hreach⟩
    · exact .inl (hpos.trans hsame)
    · exact .inr ⟨d, hd, hd'.trans hpos.symm, hreach⟩
  · exact .inr ⟨c, .refl c, hpos.symm, he⟩

end Attempts

namespace Phrase

variable {p : Phrase}

/-- Further repetitions are repetitions, once the space before them is left out. -/
def spaced : Phrase → Phrase
  | .more p => .many p
  | p => p

/-- Regular phrases have no further repetitions outside of repetitions. -/
theorem spaced_eq (hp : p.isRegular = true) : p.spaced = p := by
  cases p with
  | more p => cases hp
  | _ => rfl

/-- What is left behind a phrase and the space that follows it. -/
def left (o : Option Found) : Option (List Char) := o.map fun m => bare m.1.rest

/-- A reading at a place is described by another phrase, and the log does not go behind its
reach. -/
def Explores (p q : Phrase) (c : Cursor) (o : Option Found) : Prop :=
  ∃ e, Tries q (bare c.rest) (left o) e ∧
    ∀ log, ∃ after, p.read c log = (after, o) ∧ Attempts.Within c e log after

/-- A phrase that is read as another one is described as that one is. -/
theorem Explores.lift {p' q q' : Phrase} {c : Cursor} {o o' : Option Found}
    (h : Explores p q c o)
    (htries : ∀ e, Tries q (bare c.rest) (left o) e → Tries q' (bare c.rest) (left o') e)
    (hread : ∀ log after, p.read c log = (after, o) → p'.read c log = (after, o')) :
    Explores p' q' c o' := by
  obtain ⟨e, he, hlog⟩ := h
  refine ⟨e, htries e he, fun log => ?_⟩
  obtain ⟨after, hafter, hwithin⟩ := hlog log
  exact ⟨after, hread log after hafter, hwithin⟩

/-- A phrase that is read as two others, one after the other, is described by both. There may be
space before each of them. -/
theorem Explores.andThen {p' q q' s : Phrase} {b c d d' : Cursor} {fs : List Fragment}
    {o o' : Option Found} (h : Explores p p c (some (d, fs))) (hp : p.isRegular = true)
    (h' : Explores q q' d' o) (hq : q'.isRegular = true)
    (hbc : b.Before c) (hcd : c.Before d) (hdd : d.Before d')
    (hc : bare c.rest = bare b.rest) (hd : bare d'.rest = bare d.rest)
    (htries : ∀ e e', Tries p (bare b.rest) (some (bare d.rest)) e →
      Tries q' (bare d.rest) (left o) e' → Tries s (bare b.rest) (left o') (further e e'))
    (hread : ∀ log mid after, p.read c log = (mid, some (d, fs)) → q.read d' mid = (after, o) →
      p'.read b log = (after, o')) : Explores p' s b o' := by
  obtain ⟨e, he, hlog⟩ := h
  obtain ⟨e', he', hlog'⟩ := h'
  rw [hc] at he
  rw [hd] at he'
  refine ⟨further e e', htries e e' he he', fun log => ?_⟩
  obtain ⟨mid, hmid, hwithin⟩ := hlog log
  obtain ⟨after, hafter, hwithin'⟩ := hlog' mid
  obtain ⟨hlead, hds⟩ := he.leads hp
  have hlead' := (hds _ rfl).trans (he'.leads hq).1
  have hsuffix := further_suffix hlead.suffix hlead'.suffix
  refine ⟨after, hread log mid after hmid hafter, ?_⟩
  exact .of_before hbc (hwithin.trans (hcd.trans hdd) hwithin' hsuffix.1 hsuffix.2)

/-- A sequence whose first phrase fits is described by both of its phrases, whether the second one
fits or not. -/
theorem Explores.seq {q : Phrase} {c d : Cursor} {fs : List Fragment} {o : Option Found}
    (h : Explores p p c (some (d, fs))) (hp : p.isRegular = true) (hcd : c.Before d)
    (h' : Explores q q d.skip o) (hq : q.isRegular = true) :
    Explores (.seq p q) (.seq p q) c (o.map fun m => (m.1, fs ++ m.2)) := by
  have hleft : left (o.map fun m => (m.1, fs ++ m.2)) = left o := by
    rw [left, left, Option.map_map]
    rfl
  refine h.andThen hp h' hq (.refl c) hcd d.before_skip rfl (by rw [d.bare_skip, d.skip_rest])
    (fun _ _ he he' => hleft ▸ .seq he he') ?_
  intro log mid after hmid hafter
  rw [read_seq, hmid]
  dsimp only
  rw [hafter]
  cases o <;> rfl

section Cases

variable {q : Phrase} {c d : Cursor} {o : Option Found} {fs : List Fragment}

/-- A word is looked for where the reading starts. -/
theorem Explores.word {w : Word} {t rest : List Char} (hc : bare c.rest = c.rest)
    (h : w.scan c.rest = some (t, rest)) :
    Explores (.word w) (.word w) c (some (c.past t rest, [])) := by
  refine ⟨c.rest, ?_, fun log => ⟨log, by rw [read_word, h], .refl _ _ _⟩⟩
  rw [hc]
  exact .word h

/-- A word that is not there is looked for where the reading starts. -/
theorem Explores.noWord {w : Word} (hc : bare c.rest = c.rest) (h : w.scan c.rest = none) :
    Explores (.word w) (.word w) c none := by
  refine ⟨c.rest, ?_, fun log => ⟨log, by rw [read_word, h], .refl _ _ _⟩⟩
  rw [hc]
  exact .noWord h

/-- Text that must not come next is looked for where the reading starts. -/
theorem Explores.notAhead {t : List Char} (hc : bare c.rest = c.rest)
    (h : dropText? t c.rest = none) :
    Explores (.notAhead t) (.notAhead t) c (some (c, [])) := by
  refine ⟨c.rest, ?_, fun log => ⟨log, by rw [read_notAhead, h]; rfl, .refl _ _ _⟩⟩
  have hleft : left (some (c, [])) = some c.rest := congrArg some hc
  rw [hc, hleft]
  exact .notAhead h

/-- Text that comes next but must not is found where the reading starts. -/
theorem Explores.ahead {t rest : List Char} (hc : bare c.rest = c.rest)
    (h : dropText? t c.rest = some rest) : Explores (.notAhead t) (.notAhead t) c none := by
  refine ⟨c.rest, ?_, fun log => ⟨log, by rw [read_notAhead, h]; rfl, .refl _ _ _⟩⟩
  rw [hc]
  exact .ahead h

/-- A rule for a word looks for the word. -/
theorem Explores.callWord {r : Rule} {w : Word} {t rest : List Char} (hr : r.definition = .word w)
    (hc : bare c.rest = c.rest) (h : w.scan c.rest = some (t, rest)) :
    Explores (.call r) (.call r) c (some (c.past t rest, [.word r c.pos t])) := by
  refine ⟨c.rest, .call ?_, fun log => ⟨log, by rw [read_call_word hr, h], .refl _ _ _⟩⟩
  rw [hr, hc]
  exact .word h

/-- A rule for a word that is not there is entered into the log. -/
theorem Explores.callNoWord {r : Rule} {w : Word} (hr : r.definition = .word w)
    (hc : bare c.rest = c.rest) (h : w.scan c.rest = none) :
    Explores (.call r) (.call r) c none := by
  refine ⟨c.rest, .call ?_, fun log => ⟨_, by rw [read_call_word hr, h], ?_⟩⟩
  · rw [hr, hc]
    exact .noWord h
  · exact (Attempts.Within.refl c c.rest log).record (List.suffix_refl _) r _

/-- A rule that leaves no fragment of its own is read as the phrase that it stands for. -/
theorem Explores.callSilent {r : Rule} (hr : r.definition = .silent p) (h : Explores p p c o) :
    Explores (.call r) (.call r) c o := by
  refine h.lift (fun e he => .call (by rw [hr]; exact he)) ?_
  intro log after hread
  rw [read_call_silent hr, hread]

/-- A rule that fits is read as the phrase that it stands for. -/
theorem Explores.callPhrase {r : Rule} (hr : r.definition = .phrase p)
    (h : Explores p p c (some (d, fs))) :
    Explores (.call r) (.call r) c (some (d, [.phrase r c.pos d.pos fs])) := by
  refine h.lift (fun e he => .call (by rw [hr]; exact he)) ?_
  intro log after hread
  rw [read_call_phrase hr, hread]

/-- A rule whose phrase does not fit is entered into the log itself. -/
theorem Explores.callNoPhrase {r : Rule} (hr : r.definition = .phrase p) (hp : p.isRegular = true)
    (hc : bare c.rest = c.rest) (h : Explores p p c none) :
    Explores (.call r) (.call r) c none := by
  obtain ⟨e, htries, hlog⟩ := h
  refine ⟨e, .call (by rw [hr]; exact htries), fun log => ?_⟩
  obtain ⟨after, hread, hwithin⟩ := hlog log
  have hreach : e <:+ c.rest := by
    rw [← hc]
    exact (htries.leads hp).1.suffix
  exact ⟨_, by rw [read_call_phrase hr, hread], hwithin.record hreach r _⟩

/-- A sequence whose first phrase does not fit is described by that phrase. -/
theorem Explores.seqFirst (h : Explores p p c none) :
    Explores (.seq p q) (.seq p q) c none := by
  refine h.lift (fun e he => .seqFirst he) ?_
  intro log after hread
  rw [read_seq, hread]

/-- A choice whose first phrase fits is described by that phrase. -/
theorem Explores.altFirst {m : Found} (h : Explores p p c (some m)) :
    Explores (.alt p q) (.alt p q) c (some m) := by
  refine h.lift (fun e he => .altFirst he) ?_
  intro log after hread
  rw [read_alt, hread]

/-- A choice whose first phrase does not fit looks as far as the further one of both phrases. -/
theorem Explores.altSecond (h : Explores p p c none) (hp : p.isRegular = true)
    (h' : Explores q q c o) (hq : q.isRegular = true) : Explores (.alt p q) (.alt p q) c o := by
  obtain ⟨e, htries, hlog⟩ := h
  obtain ⟨e', htries', hlog'⟩ := h'
  refine ⟨further e e', .altSecond htries htries', fun log => ?_⟩
  obtain ⟨mid, hmid, hwithin⟩ := hlog log
  obtain ⟨after, hafter, hwithin'⟩ := hlog' mid
  have hsuffix := further_suffix (htries.leads hp).1.suffix (htries'.leads hq).1.suffix
  refine ⟨after, ?_, hwithin.trans (.refl c) hwithin' hsuffix.1 hsuffix.2⟩
  rw [read_alt, hmid]
  exact hafter

/-- An optional phrase that fits is described by the phrase. -/
theorem Explores.opt {m : Found} (h : Explores p p c (some m)) :
    Explores (.opt p) (.opt p) c (some m) := by
  refine h.lift (fun e he => .opt he) ?_
  intro log after hread
  rw [read_opt, hread]

/-- An optional phrase that does not fit is left out. -/
theorem Explores.optNone (h : Explores p p c none) :
    Explores (.opt p) (.opt p) c (some (c, [])) := by
  refine h.lift (fun e he => .optNone he) ?_
  intro log after hread
  rw [read_opt, hread]

/-- Repetitions are described by the first one and the further ones. -/
theorem Explores.many {m : Found} (hcons : p.consumes = true) (hp : p.isRegular = true)
    (h : Explores p p c (some (d, fs))) (hcd : c.Before d)
    (h' : Explores (.more p) (.many p) d (some m)) :
    Explores (.many p) (.many p) c (some (m.1, fs ++ m.2)) := by
  have hmany : (Phrase.many p).isRegular = true := Bool.and_eq_true_iff.2 ⟨hcons, hp⟩
  refine h.andThen hp h' hmany (.refl c) hcd (.refl d) rfl rfl (fun _ _ he he' => .many he he') ?_
  intro log mid after hmid hafter
  rw [read_many _ hcons, hmid]
  dsimp only
  rw [hafter]

/-- There may be no repetition at all. -/
theorem Explores.manyNone (hcons : p.consumes = true) (h : Explores p p c none) :
    Explores (.many p) (.many p) c (some (c, [])) := by
  refine h.lift (fun e he => .manyNone he) ?_
  intro log after hread
  rw [read_many _ hcons, hread]

/-- Further repetitions are described by the first one, behind some space, and those after it. -/
theorem Explores.more {m : Found} (hcons : p.consumes = true) (hp : p.isRegular = true)
    (h : Explores p p c.skip (some (d, fs))) (hcd : c.skip.Before d)
    (h' : Explores (.more p) (.many p) d (some m)) :
    Explores (.more p) (.many p) c (some (m.1, fs ++ m.2)) := by
  have hmany : (Phrase.many p).isRegular = true := Bool.and_eq_true_iff.2 ⟨hcons, hp⟩
  refine h.andThen hp h' hmany c.before_skip hcd (.refl d) (by rw [c.bare_skip, c.skip_rest]) rfl
    (fun _ _ he he' => .many he he') ?_
  intro log mid after hmid hafter
  rw [read_more _ hcons, hmid]
  dsimp only
  rw [hafter]

/-- There may be no further repetition. -/
theorem Explores.moreNone (hcons : p.consumes = true) (h : Explores p p c.skip none) :
    Explores (.more p) (.many p) c (some (c, [])) := by
  obtain ⟨e, htries, hlog⟩ := h
  rw [c.skip_rest, bare_bare] at htries
  refine ⟨e, .manyNone htries, fun log => ?_⟩
  obtain ⟨after, hread, hwithin⟩ := hlog log
  exact ⟨after, by rw [read_more _ hcons, hread], hwithin.of_before c.before_skip⟩

/-- A regular phrase describes itself. -/
theorem Explores.of_spaced (hp : p.isRegular = true) (hc : bare c.rest = c.rest)
    (h : p.spaced.isRegular = true → (p.isRegular = true → bare c.rest = c.rest) →
      Explores p p.spaced c o) : Explores p p c o := by
  rw [spaced_eq hp] at h
  exact h hp fun _ => hc

end Cases

/-- Every reading of a regular phrase has a reach, behind which the log does not go. -/
theorem Reads.explores {c : Cursor} {o : Option Found} (h : Reads p c o)
    (hp : p.spaced.isRegular = true) (hc : p.isRegular = true → bare c.rest = c.rest) :
    Explores p p.spaced c o := by
  induction h with
  | start _ => cases hp
  | startElsewhere _ => cases hp
  | word h => exact .word (hc hp) h
  | noWord h => exact .noWord (hc hp) h
  | notAhead h => exact .notAhead (hc hp) h
  | ahead h => exact .ahead (hc hp) h
  | callWord hr h => exact .callWord hr (hc hp) h
  | callNoWord hr h => exact .callNoWord hr (hc hp) h
  | callSilent hr _ ih => exact .callSilent hr (.of_spaced (isRegular_body hr hp) (hc hp) ih)
  | callPhrase hr _ ih => exact .callPhrase hr (.of_spaced (isRegular_body hr hp) (hc hp) ih)
  | callNoPhrase hr _ ih =>
    have hbody := isRegular_body hr hp
    exact .callNoPhrase hr hbody (hc hp) (.of_spaced hbody (hc hp) ih)
  | @seq p q c d e fs gs hfirst _ ihp ihq =>
    obtain ⟨hp', hq⟩ := isRegular_parts hp
    exact (Explores.of_spaced hp' (hc hp) ihp).seq hp' (before_of_reads hfirst rfl)
      (.of_spaced hq d.bare_skip ihq) hq
  | seqFirst _ ihp => exact .seqFirst (.of_spaced (isRegular_parts hp).1 (hc hp) ihp)
  | @seqSecond p q c d fs hfirst _ ihp ihq =>
    obtain ⟨hp', hq⟩ := isRegular_parts hp
    exact (Explores.of_spaced hp' (hc hp) ihp).seq hp' (before_of_reads hfirst rfl)
      (.of_spaced hq d.bare_skip ihq) hq
  | altFirst _ ihp => exact .altFirst (.of_spaced (isRegular_parts hp).1 (hc hp) ihp)
  | altSecond _ _ ihp ihq =>
    obtain ⟨hp', hq⟩ := isRegular_parts hp
    exact .altSecond (.of_spaced hp' (hc hp) ihp) hp' (.of_spaced hq (hc hp) ihq) hq
  | opt _ ih => exact .opt (.of_spaced hp (hc hp) ih)
  | optNone _ ih => exact .optNone (.of_spaced hp (hc hp) ih)
  | many hcons hfirst _ ihp ihm =>
    obtain ⟨-, hp'⟩ := Bool.and_eq_true_iff.1 hp
    exact .many hcons hp' (.of_spaced hp' (hc hp) ihp) (before_of_reads hfirst rfl) (ihm hp nofun)
  | manyOnce hcons _ _ =>
    obtain ⟨hcons', -⟩ := Bool.and_eq_true_iff.1 hp
    rw [hcons] at hcons'
    cases hcons'
  | manyNone _ ih =>
    obtain ⟨hcons, hp'⟩ := Bool.and_eq_true_iff.1 hp
    exact .manyNone hcons (.of_spaced hp' (hc hp) ih)
  | @more p c d e fs gs hcons hfirst _ ihp ihm =>
    obtain ⟨-, hp'⟩ := Bool.and_eq_true_iff.1 hp
    exact .more hcons hp' (.of_spaced hp' c.bare_skip ihp) (before_of_reads hfirst rfl)
      (ihm hp nofun)
  | moreOnce hcons _ _ =>
    obtain ⟨hcons', -⟩ := Bool.and_eq_true_iff.1 hp
    rw [hcons] at hcons'
    cases hcons'
  | @moreNone p c _ ih =>
    obtain ⟨hcons, hp'⟩ := Bool.and_eq_true_iff.1 hp
    exact .moreNone hcons (.of_spaced hp' c.bare_skip ih)

/-- A reading that leaves nothing has failed. -/
theorem reads_of_left_none {c : Cursor} (h : ∃ m, Reads p c m ∧ left m = none) :
    Reads p c none := by
  obtain ⟨m, hm, hleft⟩ := h
  rw [left, Option.map_eq_none_iff] at hleft
  exact hleft ▸ hm

/-- A reading that leaves a text has come to a place before that text. -/
theorem reads_of_left_some {c : Cursor} {ds : List Char}
    (h : ∃ m, Reads p c m ∧ left m = some ds) :
    ∃ d fs, Reads p c (some (d, fs)) ∧ bare d.rest = ds := by
  obtain ⟨m, hm, hleft⟩ := h
  obtain ⟨⟨d, fs⟩, rfl, hd⟩ := Option.map_eq_some_iff.1 hleft
  exact ⟨d, fs, hm, hd⟩

/-- What is described of a text is read at every place with that text. Repetitions are also read as
further repetitions, with space before them. -/
theorem Tries.reads {cs e : List Char} {o : Option (List Char)} (h : Tries p cs o e)
    (hp : p.isRegular = true) (hcs : bare cs = cs) :
    (∀ c : Cursor, c.rest = cs → ∃ m, Reads p c m ∧ left m = o) ∧
      ∀ q, p = .many q → ∀ c : Cursor, bare c.rest = cs →
        ∃ m, Reads (.more q) c m ∧ left m = o := by
  induction h with
  | word h =>
    refine ⟨fun c hc => ⟨_, .word (by rw [hc]; exact h), rfl⟩, by rintro _ ⟨⟩⟩
  | noWord h => exact ⟨fun c hc => ⟨_, .noWord (by rw [hc]; exact h), rfl⟩, by rintro _ ⟨⟩⟩
  | notAhead h =>
    refine ⟨fun c hc => ⟨_, .notAhead (by rw [hc]; exact h), ?_⟩, by rintro _ ⟨⟩⟩
    subst hc
    exact congrArg some hcs
  | ahead h => exact ⟨fun c hc => ⟨_, .ahead (by rw [hc]; exact h), rfl⟩, by rintro _ ⟨⟩⟩
  | @call r cs e o _ ih =>
    refine ⟨fun c hc => ?_, by rintro _ ⟨⟩⟩
    obtain ⟨m, hm, hleft⟩ := (ih (isRegular_body rfl hp) hcs).1 c hc
    cases hr : r.definition with
    | word w =>
      rw [hr] at hm
      cases hm with
      | word h => exact ⟨_, .callWord hr h, hleft⟩
      | noWord h => exact ⟨_, .callNoWord hr h, hleft⟩
    | silent p =>
      rw [hr] at hm
      exact ⟨m, .callSilent hr hm, hleft⟩
    | phrase p =>
      rw [hr] at hm
      cases m with
      | none => exact ⟨_, .callNoPhrase hr hm, hleft⟩
      | some m => exact ⟨_, .callPhrase hr hm, hleft⟩
  | @seq p q cs ds e e' o hfirst _ ihp ihq =>
    obtain ⟨hp', hq⟩ := isRegular_parts hp
    refine ⟨fun c hc => ?_, by rintro _ ⟨⟩⟩
    obtain ⟨d, fs, hm, hd⟩ := reads_of_left_some ((ihp hp' hcs).1 c hc)
    obtain ⟨n, hn, hleft⟩ :=
      (ihq hq (hfirst.bare_eq hcs _ rfl)).1 d.skip (by rw [d.skip_rest]; exact hd)
    cases n with
    | none => exact ⟨_, .seqSecond hm hn, hleft⟩
    | some n => exact ⟨_, .seq hm hn, hleft⟩
  | seqFirst _ ih =>
    refine ⟨fun c hc => ?_, by rintro _ ⟨⟩⟩
    have hm := reads_of_left_none ((ih (isRegular_parts hp).1 hcs).1 c hc)
    exact ⟨_, .seqFirst hm, rfl⟩
  | altFirst _ ih =>
    refine ⟨fun c hc => ?_, by rintro _ ⟨⟩⟩
    obtain ⟨d, fs, hm, hd⟩ := reads_of_left_some ((ih (isRegular_parts hp).1 hcs).1 c hc)
    exact ⟨_, .altFirst hm, congrArg some hd⟩
  | altSecond _ _ ihp ihq =>
    obtain ⟨hp', hq⟩ := isRegular_parts hp
    refine ⟨fun c hc => ?_, by rintro _ ⟨⟩⟩
    have hm := reads_of_left_none ((ihp hp' hcs).1 c hc)
    obtain ⟨n, hn, hleft⟩ := (ihq hq hcs).1 c hc
    exact ⟨n, .altSecond hm hn, hleft⟩
  | opt _ ih =>
    refine ⟨fun c hc => ?_, by rintro _ ⟨⟩⟩
    obtain ⟨d, fs, hm, hd⟩ := reads_of_left_some ((ih hp hcs).1 c hc)
    exact ⟨_, .opt hm, congrArg some hd⟩
  | optNone _ ih =>
    refine ⟨fun c hc => ?_, by rintro _ ⟨⟩⟩
    have hm := reads_of_left_none ((ih hp hcs).1 c hc)
    subst hc
    exact ⟨_, .optNone hm, congrArg some hcs⟩
  | @many p cs ds es e e' hfirst _ ihp ihm =>
    obtain ⟨hcons, hp'⟩ := Bool.and_eq_true_iff.1 hp
    have hmore := (ihm hp (hfirst.bare_eq hcs _ rfl)).2 p rfl
    constructor
    · intro c hc
      obtain ⟨d, fs, hm, hd⟩ := reads_of_left_some ((ihp hp' hcs).1 c hc)
      obtain ⟨f, gs, hn, hf⟩ := reads_of_left_some (hmore d hd)
      exact ⟨_, .many hcons hm hn, congrArg some hf⟩
    · rintro _ ⟨⟩ c hc
      have hskip : c.skip.rest = cs := by rw [c.skip_rest, hc]
      obtain ⟨d, fs, hm, hd⟩ := reads_of_left_some ((ihp hp' hcs).1 c.skip hskip)
      obtain ⟨f, gs, hn, hf⟩ := reads_of_left_some (hmore d hd)
      exact ⟨_, .more hcons hm hn, congrArg some hf⟩
  | @manyNone p cs e _ ih =>
    obtain ⟨-, hp'⟩ := Bool.and_eq_true_iff.1 hp
    constructor
    · intro c hc
      have hm := reads_of_left_none ((ih hp' hcs).1 c hc)
      subst hc
      exact ⟨_, .manyNone hm, congrArg some hcs⟩
    · rintro _ ⟨⟩ c hc
      have hskip : c.skip.rest = cs := by rw [c.skip_rest, hc]
      have hm := reads_of_left_none ((ih hp' hcs).1 c.skip hskip)
      exact ⟨_, .moreNone hm, congrArg some hc⟩

end Phrase

end IntScript.Grammar
