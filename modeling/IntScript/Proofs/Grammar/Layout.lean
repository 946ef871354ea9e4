import IntScript.Parse.Build
import IntScript.Proofs.Grammar.Places

/-!
# How fragments stand in a text

The fragments of a reading stand one behind the other, and the fragments inside a phrase stand one
behind the other inside its span. Every word is what its rule reads at its place. There may be space
between fragments, before them and behind them, so that the span of a phrase can be wider than what
its fragments cover.
-/

namespace IntScript.Grammar

/-- A word that its rule reads at a place of a text. -/
def StandsAt (cs : List Char) (r : Rule) (start : Nat) (text : List Char) : Prop :=
  ∃ (before after : List Char) (w : Word), cs = before ++ (text ++ after) ∧
    Text.byteLength before = start ∧ r.definition = .word w ∧
      w.scan (text ++ after) = some (text, after)

/-- Fragments that stand one behind the other between two places of a text, as do the fragments
inside each of them. -/
inductive Fragment.Laid (cs : List Char) : Nat → List Fragment → Nat → Prop
  | nil {lo hi : Nat} (h : lo ≤ hi) : Laid cs lo [] hi
  | word {lo hi start : Nat} {r : Rule} {text : List Char} {fs : List Fragment}
      (hlo : lo ≤ start) (hword : StandsAt cs r start text)
      (hfs : Laid cs (start + Text.byteLength text) fs hi) :
      Laid cs lo (.word r start text :: fs) hi
  | phrase {lo hi start stop : Nat} {r : Rule} {inner fs : List Fragment} (hlo : lo ≤ start)
      (htakes : r.consumes = true → start < stop) (hinner : Laid cs start inner stop)
      (hfs : Laid cs stop fs hi) (hr : ∃ p, r.definition = .phrase p) :
      Laid cs lo (.phrase r start stop inner :: fs) hi

/-- A word takes bytes if its rule cannot match the empty text. -/
theorem StandsAt.pos {cs : List Char} {r : Rule} {start : Nat} {text : List Char}
    (h : StandsAt cs r start text) (hr : r.consumes = true) : 0 < Text.byteLength text := by
  obtain ⟨before, after, w, -, -, hdef, hscan⟩ := h
  have hw : w.consumes = true := by
    have hconsumes := r.consumes_definition hr
    rwa [hdef] at hconsumes
  exact Text.byteLength_pos ((Word.scan_append hscan).2 hw)

/-- Less text stands behind a place that lies strictly behind another one. -/
theorem Cursor.Before.pos_lt {c d : Cursor} (h : c.Before d)
    (hlt : d.rest.length < c.rest.length) : c.pos < d.pos := by
  obtain ⟨s, hrest, hpos⟩ := h
  have hs : s ≠ [] := by
    rintro rfl
    rw [hrest, List.nil_append] at hlt
    exact Nat.lt_irrefl _ hlt
  have hbytes := Text.byteLength_pos hs
  omega

namespace Fragment

variable {cs : List Char} {lo hi : Nat} {f : Fragment} {fs : List Fragment}

/-- Fragments take up the room between two places. -/
theorem Laid.le (h : Laid cs lo fs hi) : lo ≤ hi := by
  induction h with
  | nil h => exact h
  | word hlo _ _ ih => omega
  | phrase hlo _ _ _ _ ihinner ih => omega

/-- There may be more space before the fragments. -/
theorem Laid.from_le (h : Laid cs lo fs hi) {lo' : Nat} (hlo' : lo' ≤ lo) : Laid cs lo' fs hi := by
  cases h with
  | nil h => exact .nil (Nat.le_trans hlo' h)
  | word hlo hword hfs => exact .word (Nat.le_trans hlo' hlo) hword hfs
  | phrase hlo htakes hinner hfs hr => exact .phrase (Nat.le_trans hlo' hlo) htakes hinner hfs hr

/-- Fragments behind other ones, with space between them. -/
theorem Laid.append (h : Laid cs lo fs hi) {lo' hi' : Nat} (hle : hi ≤ lo') {gs : List Fragment}
    (h' : Laid cs lo' gs hi') : Laid cs lo (fs ++ gs) hi' := by
  induction h with
  | nil h => exact h'.from_le (Nat.le_trans h hle)
  | word hlo hword _ ih => exact .word hlo hword (ih hle)
  | phrase hlo htakes hinner _ hr _ ih => exact .phrase hlo htakes hinner (ih hle) hr

/-- The first fragment stands in its own span, and the other ones stand behind it. -/
theorem Laid.uncons (h : Laid cs lo (f :: fs) hi) :
    lo ≤ f.span.start ∧ (f.rule.consumes = true → f.span.start < f.span.stop) ∧
      Laid cs f.span.start [f] f.span.stop ∧ Laid cs f.span.stop fs hi := by
  cases h with
  | word hlo hword hfs =>
    refine ⟨hlo, fun hr => ?_, .word (Nat.le_refl _) hword (.nil (Nat.le_refl _)), hfs⟩
    have hpos := hword.pos hr
    simp only [span]
    omega
  | phrase hlo htakes hinner hfs hr =>
    exact ⟨hlo, htakes, .phrase (Nat.le_refl _) htakes hinner (.nil (Nat.le_refl _)) hr, hfs⟩

/-- The fragments behind the first one. -/
theorem Laid.tail (h : Laid cs lo (f :: fs) hi) : Laid cs lo fs hi := by
  obtain ⟨hlo, -, hself, hrest⟩ := h.uncons
  exact hrest.from_le (Nat.le_trans hlo hself.le)

/-- Every fragment stands in its own span, between the two places. -/
theorem Laid.mem (h : Laid cs lo fs hi) (hf : f ∈ fs) :
    lo ≤ f.span.start ∧ f.span.stop ≤ hi ∧ Laid cs f.span.start [f] f.span.stop := by
  induction fs generalizing lo with
  | nil => cases hf
  | cons g fs ih =>
    obtain ⟨hlo, -, hself, hrest⟩ := h.uncons
    rcases List.mem_cons.1 hf with rfl | hf
    · exact ⟨hlo, hrest.le, hself⟩
    · obtain ⟨hlo', hhi', hself'⟩ := ih hrest hf
      have hle := hself.le
      exact ⟨by omega, hhi', hself'⟩

end Fragment

/-- The fragments of a reading stand one behind the other between the place before the phrase and
the place behind it. -/
theorem Phrase.Reads.laid {p : Phrase} {c d : Cursor} {fs : List Fragment}
    (h : p.Reads c (some (d, fs))) {cs : List Char} (hc : (Cursor.atStart cs).Before c) :
    Fragment.Laid cs c.pos fs d.pos := by
  generalize ho : some (d, fs) = o at h
  induction h generalizing d fs with
  | @callWord r w c t rest hr hscan =>
    cases ho
    have happ : c.rest = t ++ rest := (Word.scan_append hscan).1
    obtain ⟨before, hsource, hpos⟩ := hc
    refine .word (Nat.le_refl _) ⟨before, rest, w, ?_, ?_, hr, ?_⟩ (.nil (Nat.le_refl _))
    · rw [← happ]
      exact hsource
    · rw [hpos]
      exact (Nat.zero_add _).symm
    · rw [← happ]
      exact hscan
  | callPhrase hr h ih =>
    cases ho
    have hbefore := Phrase.before_of_reads h rfl
    obtain ⟨after, hread⟩ := Phrase.read_of_reads (.callPhrase hr h) .none
    have hbehind := Phrase.behind_of_read hread
    exact .phrase (Nat.le_refl _) (fun hconsumes => hbefore.pos_lt (hbehind.2 hconsumes))
      (ih hc rfl) (.nil (Nat.le_refl _)) ⟨_, hr⟩
  | callSilent _ _ ih => exact ih hc ho
  | @seq p q c d e fs gs hp _ ihp ihq =>
    cases ho
    have hd := hc.trans (Phrase.before_of_reads hp rfl)
    have hskip : d.pos ≤ d.skip.pos := by
      obtain ⟨s, -, hpos⟩ := d.before_skip
      omega
    exact (ihp hc rfl).append hskip (ihq (hd.trans d.before_skip) rfl)
  | altFirst _ ihp => exact ihp hc ho
  | altSecond _ _ _ ihq => exact ihq hc ho
  | opt _ ihp => exact ihp hc ho
  | many _ hp _ ihp ihm =>
    cases ho
    exact (ihp hc rfl).append (Nat.le_refl _) (ihm (hc.trans (Phrase.before_of_reads hp rfl)) rfl)
  | manyOnce _ _ ihp => exact ihp hc ho
  | @more p c d e fs gs _ hp _ ihp ihm =>
    cases ho
    have hskip := hc.trans c.before_skip
    have hfirst := (ihp hskip rfl).append (Nat.le_refl _)
      (ihm (hskip.trans (Phrase.before_of_reads hp rfl)) rfl)
    obtain ⟨s, -, hpos⟩ := c.before_skip
    exact hfirst.from_le (by omega)
  | @moreOnce p c m _ _ ihp =>
    have hfirst := ihp (hc.trans c.before_skip) ho
    obtain ⟨s, -, hpos⟩ := c.before_skip
    exact hfirst.from_le (by omega)
  | word _ =>
    cases ho
    exact .nil (Nat.le_add_right _ _)
  | start | notAhead | optNone | manyNone | moreNone =>
    cases ho
    exact .nil (Nat.le_refl _)
  | startElsewhere | noWord | ahead | callNoWord | callNoPhrase | seqFirst | seqSecond => cases ho

end IntScript.Grammar
