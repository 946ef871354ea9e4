import IntScript.Proofs.Grammar.Tries

/-!
# What is entered into the log

While the statements of a program are read, only rules that show as fragments are entered into the
log of attempts. So whatever holds of the log before and is kept by every entry of such a rule holds
of it afterwards, however the reading goes back and forth. In particular the rules at the furthest
place are of this kind, and there are some as soon as that place is not the start of the text.
-/

namespace IntScript.Grammar

/-- Whether a rule is entered into the log when it does not fit inside a program: it shows as a
fragment, and other rules refer to it. -/
def Rule.isEntered (r : Rule) : Bool :=
  match r.definition with
  | .silent _ => false
  | _ => !r.isOuter

/-- A word of a program is entered. -/
theorem Rule.isEntered_of_word {r : Rule} {w : Word} (hr : r.definition = .word w)
    (h : (!r.isOuter) = true) : r.isEntered = true := by
  rw [isEntered, hr]
  exact h

/-- A phrase of a program that shows as a fragment is entered. -/
theorem Rule.isEntered_of_phrase {r : Rule} {p : Phrase} (hr : r.definition = .phrase p)
    (h : (!r.isOuter) = true) : r.isEntered = true := by
  rw [isEntered, hr]
  exact h

/-- Every entry of a rule of a program keeps a property of logs. -/
def Attempts.Keeps (P : Attempts → Prop) : Prop :=
  ∀ (log : Attempts) (r : Rule) (start before : Nat), r.isEntered = true → P log →
    P (log.record r start before)

namespace Phrase

/-- Whether a phrase refers only to rules that stand inside programs. -/
def isInner : Phrase → Bool
  | .start | .word _ | .notAhead _ => true
  | .call r => !r.isOuter
  | .seq p q | .alt p q => p.isInner && q.isInner
  | .many p | .more p | .opt p => p.isInner

/-- Rules that stand inside programs refer only to such rules. -/
theorem isInner_body {r : Rule} {f : Definition} (hr : r.definition = f)
    (h : (call r).isInner = true) : f.body.isInner = true := by
  subst hr
  revert h
  cases r <;> decide

variable {P : Attempts → Prop}

/-- Reading keeps what every entry keeps. -/
theorem Reads.keeps (hP : Attempts.Keeps P) {p : Phrase} {c : Cursor} {o : Option Found}
    (h : p.Reads c o) (hp : p.isInner = true) {log : Attempts} (hlog : P log) :
    ∃ after, p.read c log = (after, o) ∧ P after := by
  induction h generalizing log with
  | start h => exact ⟨log, by rw [read_start, if_pos h], hlog⟩
  | startElsewhere h => exact ⟨log, by rw [read_start, if_neg h], hlog⟩
  | word h => exact ⟨log, by rw [read_word, h], hlog⟩
  | noWord h => exact ⟨log, by rw [read_word, h], hlog⟩
  | notAhead h => exact ⟨log, by rw [read_notAhead, h]; rfl, hlog⟩
  | ahead h => exact ⟨log, by rw [read_notAhead, h]; rfl, hlog⟩
  | callWord hr h => exact ⟨log, by rw [read_call_word hr, h], hlog⟩
  | callNoWord hr h =>
    exact ⟨_, by rw [read_call_word hr, h], hP _ _ _ _ (Rule.isEntered_of_word hr hp) hlog⟩
  | callSilent hr _ ih =>
    obtain ⟨after, hread, hafter⟩ := ih (isInner_body hr hp) hlog
    exact ⟨after, by rw [read_call_silent hr, hread], hafter⟩
  | callPhrase hr _ ih =>
    obtain ⟨after, hread, hafter⟩ := ih (isInner_body hr hp) hlog
    exact ⟨after, by rw [read_call_phrase hr, hread], hafter⟩
  | callNoPhrase hr _ ih =>
    obtain ⟨after, hread, hafter⟩ := ih (isInner_body hr hp) hlog
    exact ⟨_, by rw [read_call_phrase hr, hread],
      hP _ _ _ _ (Rule.isEntered_of_phrase hr hp) hafter⟩
  | seq _ _ ihp ihq =>
    obtain ⟨hp, hq⟩ := Bool.and_eq_true_iff.1 hp
    obtain ⟨mid, hmid, hkept⟩ := ihp hp hlog
    obtain ⟨after, hread, hafter⟩ := ihq hq hkept
    exact ⟨after, by rw [read_seq, hmid]; dsimp only; rw [hread], hafter⟩
  | seqFirst _ ihp =>
    obtain ⟨after, hread, hafter⟩ := ihp (Bool.and_eq_true_iff.1 hp).1 hlog
    exact ⟨after, by rw [read_seq, hread], hafter⟩
  | seqSecond _ _ ihp ihq =>
    obtain ⟨hp, hq⟩ := Bool.and_eq_true_iff.1 hp
    obtain ⟨mid, hmid, hkept⟩ := ihp hp hlog
    obtain ⟨after, hread, hafter⟩ := ihq hq hkept
    exact ⟨after, by rw [read_seq, hmid]; dsimp only; rw [hread], hafter⟩
  | altFirst _ ihp =>
    obtain ⟨after, hread, hafter⟩ := ihp (Bool.and_eq_true_iff.1 hp).1 hlog
    exact ⟨after, by rw [read_alt, hread], hafter⟩
  | altSecond _ _ ihp ihq =>
    obtain ⟨hp, hq⟩ := Bool.and_eq_true_iff.1 hp
    obtain ⟨mid, hmid, hkept⟩ := ihp hp hlog
    obtain ⟨after, hread, hafter⟩ := ihq hq hkept
    exact ⟨after, by rw [read_alt, hmid]; exact hread, hafter⟩
  | opt _ ihp =>
    obtain ⟨after, hread, hafter⟩ := ihp hp hlog
    exact ⟨after, by rw [read_opt, hread], hafter⟩
  | optNone _ ihp =>
    obtain ⟨after, hread, hafter⟩ := ihp hp hlog
    exact ⟨after, by rw [read_opt, hread], hafter⟩
  | many hc _ _ ihp ihm =>
    obtain ⟨mid, hmid, hkept⟩ := ihp hp hlog
    obtain ⟨after, hread, hafter⟩ := ihm hp hkept
    exact ⟨after, by rw [read_many _ hc, hmid]; dsimp only; rw [hread], hafter⟩
  | manyOnce hc _ ihp =>
    obtain ⟨after, hread, hafter⟩ := ihp hp hlog
    exact ⟨after, by rw [read_many_once _ hc, hread], hafter⟩
  | @manyNone p _ _ ihp =>
    obtain ⟨after, hread, hafter⟩ := ihp hp hlog
    cases hc : p.consumes with
    | true => exact ⟨after, by rw [read_many _ hc, hread], hafter⟩
    | false => exact ⟨after, by rw [read_many_once _ hc, hread], hafter⟩
  | more hc _ _ ihp ihm =>
    obtain ⟨mid, hmid, hkept⟩ := ihp hp hlog
    obtain ⟨after, hread, hafter⟩ := ihm hp hkept
    exact ⟨after, by rw [read_more _ hc, hmid]; dsimp only; rw [hread], hafter⟩
  | moreOnce hc _ ihp =>
    obtain ⟨after, hread, hafter⟩ := ihp hp hlog
    exact ⟨after, by rw [read_more_once _ hc, hread], hafter⟩
  | @moreNone p _ _ ihp =>
    obtain ⟨after, hread, hafter⟩ := ihp hp hlog
    cases hc : p.consumes with
    | true => exact ⟨after, by rw [read_more _ hc, hread], hafter⟩
    | false => exact ⟨after, by rw [read_more_once _ hc, hread], hafter⟩

end Phrase

namespace Attempts

/-- What holds of the log while the statements of a program are read. -/
structure Sound (log : Attempts) : Prop where
  /-- Some rule has failed at the furthest place if that is not the start of the text. -/
  expected : log.pos ≠ 0 → log.expected ≠ []
  /-- All rules that have failed there are rules of programs. -/
  entered : ∀ r ∈ log.expected, r.isEntered = true

/-- Before anything was tried nothing has failed. -/
theorem sound_none : Sound none := ⟨fun h => absurd rfl h, nofun⟩

/-- Entering a rule of a program is sound: its place has an entry then, and the other entries that
are left were there before. -/
theorem keeps_sound : Keeps Sound := by
  intro log r start before hr hlog
  unfold record
  split
  · exact hlog
  · split
    · exact ⟨fun _ => List.cons_ne_nil _ _, List.forall_mem_singleton.2 hr⟩
    · split
      · refine ⟨fun _ => List.append_ne_nil_of_right_ne_nil _ (List.cons_ne_nil _ _), ?_⟩
        intro q hq
        rcases List.mem_append.1 hq with hq | hq
        · exact hlog.entered q (List.mem_of_mem_take hq)
        · exact List.mem_singleton.1 hq ▸ hr
      · exact hlog

end Attempts

end IntScript.Grammar
