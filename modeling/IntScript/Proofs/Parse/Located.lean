import IntScript.Proofs.Grammar.Completing
import IntScript.Proofs.Parse.Arena
import Mathlib

/-!
# Where syntax errors are reported

A text that does not fit the grammar is refused at the furthest place where a rule has failed. Up to
that place the text is the beginning of a program: nothing before the place is to blame. What is
said to stand there is the end of the input exactly if the place is the end of the text.
-/

namespace IntScript

namespace Grammar

/-- What a program consists of behind the start of the text. -/
def Phrase.statements : Phrase := .seq (.many (.call .statement)) (.call .endOfInput)

/-- Nothing follows the statements of a program. -/
theorem Phrase.clear_statements : Phrase.statements.Clear [] := by
  have hstatements : (Phrase.many (.call .statement)).Clear ['\n'] :=
    ⟨⟨.newline [], rfl⟩, Phrase.rejects_statement_nil⟩
  exact .seq rfl ⟨.nil, rfl⟩ hstatements

/-- A text is a program if it consists of statements behind its space. -/
theorem Rule.read_program_of_accepts {cs : List Char}
    (h : Phrase.statements.Accepts (bare cs) []) : ∃ fs, Rule.program.read cs = .ok fs := by
  obtain ⟨e, he⟩ := h
  have hskip : (Cursor.atStart cs).skip.rest = bare cs := Cursor.skip_rest _
  obtain ⟨m, hm, hleft⟩ := (he.reads rfl (bare_bare cs)).1 (Cursor.atStart cs).skip hskip
  obtain ⟨⟨d, fs⟩, rfl, -⟩ := Option.map_eq_some_iff.1 hleft
  have hstart : Phrase.start.Reads (.atStart cs) (some (.atStart cs, [])) := .start rfl
  exact ⟨_, Rule.read_eq_ok_iff.2 ⟨d, .callPhrase rfl (.seq hstart hm)⟩⟩

/-- A program is read as its statements, behind the space at the start. -/
theorem Rule.read_program (cs : List Char) :
    (Phrase.call .program).read (.atStart cs) .none =
      match Phrase.statements.read (Cursor.atStart cs).skip .none with
      | (after, none) => (after.record .program 0 (Attempts.none.countAt 0), none)
      | (after, some (d, gs)) => (after, some (d, [.phrase .program 0 d.pos gs])) := by
  have hdef : Rule.program.definition = .phrase (.seq .start .statements) := rfl
  have hstart : Phrase.start.read (.atStart cs) .none = (.none, some (.atStart cs, [])) := by
    rw [Phrase.read_start]
    rfl
  rw [Phrase.read_call_phrase hdef, Phrase.read_seq, hstart]
  dsimp only
  rcases Phrase.statements.read (Cursor.atStart cs).skip .none with ⟨after, _ | ⟨d, gs⟩⟩ <;> rfl

/-- A text that is not a program is refused at a place between its start and the reach of the
reading of its statements. -/
theorem Rule.read_program_error {cs : List Char} {log : Attempts}
    (h : Rule.program.read cs = .error log) :
    ∃ d e, Phrase.statements.Tries (bare cs) none e ∧ (Cursor.atStart cs).Before d ∧
      d.pos = log.pos ∧ e <:+ d.rest := by
  have hskip : (Cursor.atStart cs).skip.rest = bare cs := Cursor.skip_rest _
  rw [Rule.read, Rule.read_program] at h
  rcases hread : Phrase.statements.read (Cursor.atStart cs).skip .none with ⟨after, _ | ⟨d, gs⟩⟩
  · rw [hread] at h
    cases h
    obtain ⟨e, htries, hlog⟩ :=
      (Phrase.reads_of_read hread).explores rfl fun _ => (Cursor.atStart cs).bare_skip
    rw [hskip, bare_bare] at htries
    obtain ⟨after', hread', hwithin⟩ := hlog .none
    cases hread.symm.trans hread'
    have hreach : e <:+ cs := (htries.leads rfl).1.suffix.trans (Leads.bare cs).suffix
    have hrecord := (hwithin.of_before (Cursor.atStart cs).before_skip).record hreach .program
      (Attempts.none.countAt 0)
    rcases hrecord with hpos | ⟨d, hd, hpos, hsuffix⟩
    · exact ⟨.atStart cs, e, htries, .refl _, hpos.symm, hreach⟩
    · exact ⟨d, e, htries, hd, hpos, hsuffix⟩
  · rw [hread] at h
    cases h

/-- The text before the place of a syntax error is the beginning of a program. -/
theorem Rule.exists_program {before after e : List Char}
    (h : Phrase.statements.Tries (bare (before ++ after)) none e) (he : e <:+ after) :
    ∃ w fs, Rule.program.read (before ++ w) = .ok fs := by
  obtain ⟨v, rfl⟩ := he
  have hlead : Leads (bare (before ++ (v ++ e))) e := (h.leads rfl).1
  obtain ⟨x, hx, -⟩ := hlead
  obtain ⟨w, hw⟩ := h.completable rfl rfl (bare_bare _) hx
  have haccepts := hw [] Phrase.clear_statements
  rw [List.append_nil] at haccepts
  -- what is skipped before the reach stays skipped
  have hbare : bare ((before ++ v) ++ '\n' :: w) = bare (x ++ '\n' :: w) := by
    rw [← List.append_assoc] at hx
    exact bare_cut hx w
  rw [← hbare] at haccepts
  obtain ⟨fs, hfs⟩ := Rule.read_program_of_accepts haccepts
  exact ⟨v ++ '\n' :: w, fs, by rw [← List.append_assoc]; exact hfs⟩

end Grammar

/-- A text that is not empty has bytes, those of its first character first. -/
theorem Text.byteLength_cons (c : Char) (cs : List Char) :
    ∃ n, Text.byteLength (c :: cs) = n + 1 ∧ c.utf8Size ≤ n + 1 ∧
      n + 1 - c.utf8Size = Text.byteLength cs := by
  have hpos := c.utf8Size_pos
  refine ⟨Text.byteLength (c :: cs) - 1, ?_⟩
  rw [Text.byteLength]
  omega

/-- Dropping the bytes of the first part of a text leaves the second part. -/
theorem Text.dropBytes?_append (cs ds : List Char) :
    Text.dropBytes? (cs ++ ds) (Text.byteLength cs) = some ds := by
  induction cs with
  | nil => cases ds <;> rfl
  | cons c cs ih =>
    obtain ⟨n, hn, hle, hrest⟩ := Text.byteLength_cons c cs
    rw [hn, List.cons_append, Text.dropBytes?, if_pos hle, hrest, ih]

/-- Taking the bytes of the first part of a text gives the first part. -/
theorem Text.takeBytes?_append (cs ds : List Char) :
    Text.takeBytes? (cs ++ ds) (Text.byteLength cs) = some cs := by
  induction cs with
  | nil => cases ds <;> rfl
  | cons c cs ih =>
    obtain ⟨n, hn, hle, hrest⟩ := Text.byteLength_cons c cs
    rw [hn, List.cons_append, Text.takeBytes?, if_pos hle, hrest, ih]
    rfl

/-- A text without bytes is empty. -/
theorem Text.byteLength_eq_zero {cs : List Char} (h : Text.byteLength cs = 0) : cs = [] := by
  cases cs with
  | nil => rfl
  | cons c cs =>
    obtain ⟨n, hn, -⟩ := Text.byteLength_cons c cs
    rw [hn] at h
    cases h

/-- The end of the input is found exactly at the end of the text. -/
theorem ParseError.foundText_eq_iff (before after : List Char) :
    foundText (before ++ after) (Text.byteLength before) = "end of input" ↔ after = [] := by
  rw [foundText, Text.dropBytes?_append, Option.getD_some]
  cases after with
  | nil => exact iff_of_true rfl rfl
  | cons c cs =>
    -- anything else is quoted
    have hquoted : ∀ s : String, "'" ++ s ++ "'" ≠ "end of input" := by
      intro s heq
      have hhead := congrArg (fun t : String => t.toList.head?) heq
      simp at hhead
    refine iff_of_false ?_ (List.cons_ne_nil c cs)
    dsimp only
    split
    · exact hquoted _
    · exact hquoted _

/-- Syntax errors are located soundly. A text that the grammar refuses is refused for an unexpected
token at a single place of the text. The token is the end of the input exactly if the place is the
end of the text, and what stands before the place is the beginning of a program. -/
theorem parse_refused_located (source : String)
    (h : ∀ fs, Grammar.Rule.program.read source.toList ≠ .ok fs) :
    ∃ (expected found : String) (before after : List Char),
      source.toList = before ++ after ∧
      parse source = .error ⟨.unexpectedToken expected found,
        ⟨Text.byteLength before, Text.byteLength before⟩⟩ ∧
      (found = "end of input" ↔ Text.byteLength before = Text.byteLength source.toList) ∧
      ∃ w fs, Grammar.Rule.program.read (before ++ w) = .ok fs := by
  cases hread : Grammar.Rule.program.read source.toList with
  | ok fs => exact absurd hread (h fs)
  | error log =>
    obtain ⟨d, e, htries, ⟨before, hsource, hpos⟩, hlog, hreach⟩ :=
      Grammar.Rule.read_program_error hread
    have hsource : source.toList = before ++ d.rest := hsource
    have hplace : log.pos = Text.byteLength before := by
      rw [← hlog, hpos]
      exact Nat.zero_add _
    refine ⟨ParseError.expectedText log.rules, ParseError.foundText source.toList log.pos, before,
      d.rest, hsource, ?_, ?_, ?_⟩
    · rw [parse_eq, hread, ← hplace]
      rfl
    · rw [hplace, hsource, ParseError.foundText_eq_iff, Text.byteLength_append]
      constructor
      · intro hnil
        rw [hnil]
        rfl
      · intro hlen
        exact Text.byteLength_eq_zero (by omega)
    · rw [hsource] at htries
      exact Grammar.Rule.exists_program htries hreach

/-- The text `x = ;` is refused at its fourth byte, where an expression should stand, and the text
before that byte is the beginning of a program. -/
theorem parse_refused_located_semicolon :
    (∀ fs, Grammar.Rule.program.read "x = ;".toList ≠ .ok fs) ∧
      ∃ before after : List Char, "x = ;".toList = before ++ after ∧
        Text.byteLength before = 4 ∧ ∃ w fs, Grammar.Rule.program.read (before ++ w) = .ok fs := by
  have hread : Grammar.Rule.program.read "x = ;".toList =
      .error ⟨4, [.identifier, .printWord, .operation]⟩ := by cbv
  have hrefused : ∀ fs, Grammar.Rule.program.read "x = ;".toList ≠ .ok fs := by
    intro fs hok
    rw [hread] at hok
    cases hok
  obtain ⟨_, _, before, after, hsource, hparse, -, hviable⟩ :=
    parse_refused_located "x = ;" hrefused
  have hplace : Text.byteLength before = 4 := by
    rw [parse_eq, hread] at hparse
    exact (congrArg Span.start (congrArg ParseError.span (Except.error.inj hparse))).symm
  exact ⟨hrefused, before, after, hsource, hplace, hviable⟩

end IntScript
