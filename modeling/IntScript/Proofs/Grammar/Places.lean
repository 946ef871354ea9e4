import IntScript.Proofs.Grammar.Taking

/-!
# Places in a text

The places that a reading comes to all lie in one text: each of them has a part of the text before
it, whose bytes make up its offset, and the rest of the text behind it. Reading only moves forward,
over words and over the space between them.
-/

namespace IntScript.Grammar

namespace Cursor

/-- One place lies at or behind another one in the same text. -/
def Before (c d : Cursor) : Prop :=
  ∃ s, c.rest = s ++ d.rest ∧ d.pos = c.pos + Text.byteLength s

/-- Every place lies at itself. -/
theorem Before.refl (c : Cursor) : c.Before c := ⟨[], rfl, rfl⟩

/-- A place behind a place behind another one. -/
theorem Before.trans {c d e : Cursor} (h : c.Before d) (h' : d.Before e) : c.Before e := by
  obtain ⟨s, hs, hpos⟩ := h
  obtain ⟨s', hs', hpos'⟩ := h'
  refine ⟨s ++ s', by rw [hs, hs', List.append_assoc], ?_⟩
  rw [hpos', hpos, Text.byteLength_append, Nat.add_assoc]

/-- A place lies behind skipped text. The skipped text is empty, or it ends with a character that
is not part of a word, or nothing comes behind it. -/
def SkipsTo (inComment : Bool) (cs : List Char) (pos : Nat) (d : Cursor) : Prop :=
  ∃ s, cs = s ++ d.rest ∧ d.pos = pos + Text.byteLength s ∧
    (d.rest = [] ∨ (s = [] ∧ inComment = false) ∨ ∃ s' c, s = s' ++ [c] ∧ isWordChar c = false)

/-- One more character is skipped in front. If a comment does not go on behind it, it must not be
part of a word. -/
theorem SkipsTo.cons {flag : Bool} {c : Char} {cs : List Char} {pos : Nat} {d : Cursor}
    (h : SkipsTo flag cs (pos + c.utf8Size) d) (hc : flag = false → isWordChar c = false)
    (inComment : Bool) : SkipsTo inComment (c :: cs) pos d := by
  obtain ⟨s, hs, hpos, hend⟩ := h
  refine ⟨c :: s, by rw [hs, List.cons_append], ?_, ?_⟩
  · rw [hpos, Text.byteLength, Nat.add_assoc]
  · rcases hend with hend | ⟨rfl, hflag⟩ | ⟨s', d, rfl, hd⟩
    · exact .inl hend
    · exact .inr (.inr ⟨[], c, rfl, hc hflag⟩)
    · exact .inr (.inr ⟨c :: s', d, rfl, hd⟩)

/-- Where skipping ends. -/
theorem skipsTo_skipFrom (inComment : Bool) (cs : List Char) (pos : Nat) :
    SkipsTo inComment cs pos (skipFrom inComment cs pos) := by
  induction cs generalizing inComment pos with
  | nil => exact ⟨[], rfl, rfl, .inl rfl⟩
  | cons c cs ih =>
    simp only [skipFrom]
    split
    · refine (ih _ _).cons (fun hc => ?_) inComment
      have hline : c = '\n' := by simpa using hc
      rw [hline]
      decide
    · next hflag =>
      split
      · next hspace => exact (ih _ _).cons (fun _ => isWordChar_of_isSpace hspace) inComment
      · split
        · exact (ih true _).cons (fun hc => Bool.noConfusion hc) inComment
        · exact ⟨[], rfl, rfl, .inr (.inl ⟨rfl, by simpa using hflag⟩)⟩

/-- The place behind the space lies behind the place before it. -/
theorem before_skip (c : Cursor) : c.Before c.skip := by
  obtain ⟨s, hs, hpos, -⟩ := skipsTo_skipFrom false c.rest c.pos
  exact ⟨s, hs, hpos⟩

/-- The place behind a word lies behind the place before it. -/
theorem before_past {w : Word} {c : Cursor} {t rest : List Char}
    (h : w.scan c.rest = some (t, rest)) : c.Before (c.past t rest) :=
  ⟨t, (Word.scan_append h).1, rfl⟩

end Cursor

/-- The place behind a phrase lies behind the place before it. -/
theorem Phrase.before_of_reads {p : Phrase} {c : Cursor} {o : Option Found} (h : Reads p c o)
    {d : Cursor} {fs : List Fragment} (ho : o = some (d, fs)) : c.Before d := by
  induction h generalizing d fs with
  | start _ => cases ho; exact .refl _
  | word h => cases ho; exact Cursor.before_past h
  | notAhead _ => cases ho; exact .refl _
  | callWord _ h => cases ho; exact Cursor.before_past h
  | callSilent _ _ ih => exact ih ho
  | callPhrase _ _ ih => cases ho; exact ih rfl
  | seq _ _ ihp ihq =>
    cases ho
    exact (ihp rfl).trans ((Cursor.before_skip _).trans (ihq rfl))
  | altFirst _ ih => exact ih ho
  | altSecond _ _ _ ih => exact ih ho
  | opt _ ih => exact ih ho
  | optNone _ _ => cases ho; exact .refl _
  | many _ _ _ ihp ihm => cases ho; exact (ihp rfl).trans (ihm rfl)
  | manyOnce _ _ ih => exact ih ho
  | manyNone _ _ => cases ho; exact .refl _
  | more _ _ _ ihp ihm =>
    cases ho
    exact (Cursor.before_skip _).trans ((ihp rfl).trans (ihm rfl))
  | moreOnce _ _ ih => exact (Cursor.before_skip _).trans (ih ho)
  | moreNone _ _ => cases ho; exact .refl _
  | _ => cases ho

end IntScript.Grammar
