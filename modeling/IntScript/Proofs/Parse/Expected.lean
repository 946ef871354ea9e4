import IntScript.Proofs.Grammar.Entries
import IntScript.Proofs.Parse.Located
import Mathlib.Data.List.Induction

/-!
# What syntax errors say was expected

A text that the grammar refuses is refused with the rules that failed at the furthest place. There
are always some, and they are named in the order of the grammar, each name once. The name for rules
that mean nothing to a reader is left for the whole program, which is entered only if reading did
not come beyond the start of the text.
-/

namespace IntScript

namespace Grammar

/-- What becomes of a failure that is entered for the start of the text, where nothing was entered
before: the log stays as it is if it has an entry further on or a single one at the start, and else
the failure is the only entry. -/
theorem Attempts.record_start (log : Attempts) (r : Rule) :
    log.record r 0 0 = log ∧ (log.pos = 0 → log.expected ≠ []) ∨ log.record r 0 0 = ⟨0, [r]⟩ := by
  unfold record countAt
  by_cases hpos : log.pos = 0
  · rw [if_pos hpos]
    split
    · next hcount =>
      refine .inl ⟨rfl, fun _ hnil => ?_⟩
      rw [hnil] at hcount
      cases hcount
    · rw [if_neg (by omega), List.take_zero]
      exact .inr rfl
  · rw [if_neg hpos, if_neg (by omega), if_neg (by omega), if_neg hpos]
    exact .inl ⟨rfl, fun h => absurd h hpos⟩

/-- The rules that a program is refused with: there are some, and behind the start of the text all
of them are rules of programs. -/
theorem Rule.read_program_expected {cs : List Char} {log : Attempts}
    (h : Rule.program.read cs = .error log) :
    log.expected ≠ [] ∧ (log.pos ≠ 0 → ∀ r ∈ log.expected, r.isEntered = true) := by
  rw [Rule.read, Rule.read_program] at h
  rcases hread : Phrase.statements.read (Cursor.atStart cs).skip .none with ⟨after, _ | ⟨d, gs⟩⟩
  · rw [hread] at h
    cases h
    obtain ⟨after', hread', hsound⟩ :=
      (Phrase.reads_of_read hread).keeps Attempts.keeps_sound rfl Attempts.sound_none
    cases hread.symm.trans hread'
    have hcount : Attempts.none.countAt 0 = 0 := rfl
    rw [hcount]
    rcases after.record_start .program with ⟨heq, hstart⟩ | heq
    · rw [heq]
      refine ⟨?_, fun _ => hsound.entered⟩
      by_cases hpos : after.pos = 0
      · exact hstart hpos
      · exact hsound.expected hpos
    · rw [heq]
      exact ⟨List.cons_ne_nil _ _, fun h => absurd rfl h⟩
  · rw [hread] at h
    cases h

/-- Every rule is in the list of rules. -/
theorem Rule.mem_all (r : Rule) : r ∈ Rule.all := by
  cases r <;> decide

/-- The rules of a log are the expected ones. -/
theorem Attempts.mem_rules {log : Attempts} {r : Rule} : r ∈ log.rules ↔ r ∈ log.expected := by
  simp [rules, Rule.mem_all]

/-- Rules of programs have names of their own. -/
theorem Rule.construct_ne_token {r : Rule} (h : r.isEntered = true) : r.construct ≠ "token" := by
  revert h
  cases r <;> decide

/-- Of all names only the one for other rules has this letter. -/
theorem Rule.construct_of_mem {r : Rule} (h : 'k' ∈ r.construct.toList) :
    r.construct = "token" := by
  revert h
  cases r <;> decide

/-- No name has this letter. -/
theorem Rule.not_mem_construct (r : Rule) : 'g' ∉ r.construct.toList := by
  cases r <;> decide

end Grammar

/-- Names as they are mentioned, each of them once and in the order in which they come first. -/
structure FirstMentions (mentions names : List String) : Prop where
  /-- No name comes twice. -/
  once : names.Nodup
  /-- What is mentioned comes, and nothing else does. -/
  mem_iff : ∀ n, n ∈ names ↔ n ∈ mentions
  /-- A name comes before those that are mentioned later. -/
  ordered : names.Pairwise fun m n => mentions.idxOf m < mentions.idxOf n

/-- A text enumerates names: one name stands alone, there is the word "or" between two of them, and
each further one in front of those is set off with a comma. -/
inductive Enumerates : List String → String → Prop
  | one (n : String) : Enumerates [n] n
  | two (m n : String) : Enumerates [m, n] (m ++ " or " ++ n)
  | more (l : String) {m n : String} {names : List String} {text : String}
      (h : Enumerates (m :: n :: names) text) :
      Enumerates (l :: m :: n :: names) (l ++ ", " ++ text)

/-- One more mention adds a name at the end unless the name has come before. -/
theorem FirstMentions.append {mentions names : List String} (h : FirstMentions mentions names)
    (n : String) :
    FirstMentions (mentions ++ [n]) (if n ∈ names then names else names ++ [n]) := by
  have hordered : names.Pairwise fun l m =>
      (mentions ++ [n]).idxOf l < (mentions ++ [n]).idxOf m := by
    refine h.ordered.imp_of_mem fun hl hm hlt => ?_
    rwa [List.idxOf_append_of_mem ((h.mem_iff _).1 hl),
      List.idxOf_append_of_mem ((h.mem_iff _).1 hm)]
  split
  · next hmem =>
    refine ⟨h.once, fun m => ?_, hordered⟩
    rw [List.mem_append, ← h.mem_iff, List.mem_singleton]
    exact ⟨.inl, fun hm => hm.elim id fun heq => heq ▸ hmem⟩
  · next hnew =>
    refine ⟨?_, fun m => ?_, ?_⟩
    · rw [List.nodup_append_comm, List.singleton_append, List.nodup_cons]
      exact ⟨hnew, h.once⟩
    · rw [List.mem_append, List.mem_append, h.mem_iff]
    · rw [List.pairwise_append]
      refine ⟨hordered, List.pairwise_singleton _ _, fun m hm k hk => ?_⟩
      cases List.mem_singleton.1 hk
      have hmentioned := (h.mem_iff m).1 hm
      have hunmentioned : n ∉ mentions := fun hn => hnew ((h.mem_iff n).2 hn)
      rw [List.idxOf_append_of_mem hmentioned, List.idxOf_append_of_notMem hunmentioned]
      exact Nat.lt_add_right _ (List.idxOf_lt_length_iff.2 hmentioned)

/-- The characters of an enumeration are those of the names and of what stands between them. -/
theorem Enumerates.mem {names : List String} {text : String} (h : Enumerates names text)
    {c : Char} (hc : c ∈ text.toList) : c ∈ ", or".toList ∨ ∃ n ∈ names, c ∈ n.toList := by
  have hor : " or ".toList ⊆ ", or".toList := by simp
  have hcomma : ", ".toList ⊆ ", or".toList := by simp
  induction h with
  | one n => exact .inr ⟨n, List.mem_cons_self, hc⟩
  | two m n =>
    simp only [String.toList_append, List.mem_append] at hc
    rcases hc with (hc | hc) | hc
    · exact .inr ⟨m, by simp, hc⟩
    · exact .inl (hor hc)
    · exact .inr ⟨n, by simp, hc⟩
  | more l _ ih =>
    simp only [String.toList_append, List.mem_append] at hc
    rcases hc with (hc | hc) | hc
    · exact .inr ⟨l, List.mem_cons_self, hc⟩
    · exact .inl (hcomma hc)
    · exact (ih hc).imp_right fun ⟨n, hn, hmem⟩ => ⟨n, List.mem_cons_of_mem _ hn, hmem⟩

/-- Two characters that follow each other in a text do so behind a part in which the first one does
not come. -/
theorem pair_infix_of_append {a b : Char} {u v : List Char} (ha : a ∉ u)
    (h : [a, b] <:+: u ++ v) : [a, b] <:+: v := by
  obtain ⟨x, y, hxy⟩ := h
  rw [List.append_assoc] at hxy
  rcases List.append_eq_append_iff.1 hxy with ⟨w, rfl, hw⟩ | ⟨w, -, rfl⟩
  · cases w with
    | nil => exact ⟨[], y, hw⟩
    | cons d w =>
      have hd : a = d := (List.cons.inj hw).1
      exact absurd (by simp [hd]) ha
  · exact ⟨w, y, List.append_assoc _ _ _⟩

namespace ParseError

open Grammar

/-- The names of rules, each of them once and in the order of the rules. -/
theorem firstMentions_construct (rules : List Rule) :
    FirstMentions (rules.map Rule.construct) (rules.foldl (fun names r =>
      if r.construct ∈ names then names else names ++ [r.construct]) []) := by
  induction rules using List.reverseRecOn with
  | nil => exact ⟨List.nodup_nil, fun _ => Iff.rfl, .nil⟩
  | append_singleton rules r ih =>
    rw [List.foldl_append, List.map_append]
    exact ih.append r.construct

/-- Names are enumerated, unless there are none. -/
theorem enumerates_joinNames {names : List String} (h : names ≠ []) :
    Enumerates names (joinNames names) := by
  induction names with
  | nil => exact absurd rfl h
  | cons l names ih =>
    match names with
    | [] => exact .one l
    | [m] => exact .two l m
    | m :: n :: names =>
      have hjoin : joinNames (l :: m :: n :: names) = l ++ ", " ++ joinNames (m :: n :: names) := by
        simp [joinNames, String.append_assoc]
      rw [hjoin]
      exact .more l (ih (List.cons_ne_nil _ _))

/-- The text for some rules enumerates their names. -/
theorem exists_enumerates {rules : List Rule} (h : rules ≠ []) :
    ∃ names, FirstMentions (rules.map Rule.construct) names ∧
      Enumerates names (expectedText rules) := by
  have hnames := firstMentions_construct rules
  refine ⟨_, hnames, enumerates_joinNames fun hnil => ?_⟩
  obtain ⟨r, hr⟩ := List.exists_mem_of_ne_nil rules h
  have hmem := (hnames.mem_iff _).2 (List.mem_map_of_mem hr)
  rw [hnil] at hmem
  cases hmem

/-- The characters of the text for some rules are those of the name of a single rule and of what
stands between names. -/
theorem mem_expectedText {rules : List Rule} (h : rules ≠ []) {c : Char}
    (hc : c ∈ (expectedText rules).toList) :
    c ∈ ", or".toList ∨ ∃ r ∈ rules, c ∈ r.construct.toList := by
  obtain ⟨names, hnames, henumerates⟩ := exists_enumerates h
  rcases henumerates.mem hc with hbetween | ⟨n, hn, hc⟩
  · exact .inl hbetween
  · obtain ⟨r, hr, rfl⟩ := List.mem_map.1 ((hnames.mem_iff n).1 hn)
    exact .inr ⟨r, hr, hc⟩

/-- What is found is the end of the input or, in quotes, one word or one other character. -/
theorem foundText_free (source : List Char) (pos : Nat) :
    'g' ∉ (foundText source pos).toList ∨ ' ' ∉ (foundText source pos).toList := by
  have hquoted : ∀ (x : Char) (w : List Char), x ≠ '\'' → x ∉ w →
      x ∉ ("'" ++ String.ofList w ++ "'").toList := by
    intro x w hx hw
    simp [hx, hw]
  unfold foundText
  split
  · exact .inl (by decide)
  · next c cs _ =>
    split
    · -- there is no blank in a word
      have hall : ((c :: cs).takeWhile isWordChar).all isWordChar = true := by simp
      exact .inr (hquoted _ _ (by decide) fun hmem =>
        absurd (List.all_eq_true.1 hall _ hmem) (by decide))
    · next hword =>
      -- a letter would begin a word
      refine .inl (hquoted _ _ (by decide) fun hmem => hword ?_)
      rw [← List.mem_singleton.1 hmem]
      decide

/-- No message says that something else was expected. -/
theorem not_somethingElse {rules : List Rule} (h : rules ≠ []) (source : List Char) (pos : Nat) :
    ¬"something else".toList <:+:
      (Cause.unexpectedToken (expectedText rules) (foundText source pos)).message.toList := by
  intro hsays
  have hpair : ['g', ' '] <:+: "something else".toList :=
    ⟨"somethin".toList, "else".toList, by simp⟩
  have hin := hpair.trans hsays
  -- only what is found in the text can have this letter
  have hnames : 'g' ∉ (expectedText rules).toList := by
    intro hmem
    rcases mem_expectedText h hmem with hbetween | ⟨r, -, hmem⟩
    · exact absurd hbetween (by decide)
    · exact r.not_mem_construct hmem
  have hfront : 'g' ∉ ("expected " ++ expectedText rules ++ ", found ").toList := by
    simp [hnames]
  have hmessage : (Cause.unexpectedToken (expectedText rules) (foundText source pos)).message =
      "expected " ++ expectedText rules ++ ", found " ++ foundText source pos := rfl
  rw [hmessage, String.toList_append] at hin
  have hfound := pair_infix_of_append hfront hin
  rcases foundText_free source pos with hg | hblank
  · exact hg (hfound.mem List.mem_cons_self)
  · exact hblank (hfound.mem (by simp))

/-- What a syntax error says was expected, and what it says was found instead, for a log of
attempts. -/
structure Explains (log : Attempts) (expected found : String) : Prop where
  /-- Some rules were expected. -/
  nonempty : log.rules ≠ []
  /-- The message does not merely say that something else was expected. -/
  specific : ¬"something else".toList <:+: (Cause.unexpectedToken expected found).message.toList
  /-- The names of the rules are enumerated, each of them once and in the order of the rules. -/
  names : ∃ names, FirstMentions (log.rules.map Rule.construct) names ∧ Enumerates names expected
  /-- The name for other rules comes only at the start of the text. -/
  fallback : "token".toList <:+: expected.toList → log.pos = 0

end ParseError

/-- Syntax errors name what was expected. For every text that the grammar refuses there are rules
that were expected at the place of the error. Their names are listed in the order of the rules, each
of them once, and the message never falls back on "something else". A rule without a name of its own
is listed only if the place is the start of the text. -/
theorem parse_names_expected {source : String} {log : Grammar.Attempts}
    (h : Grammar.Rule.program.read source.toList = .error log) :
    ∃ expected found : String,
      parse source = .error ⟨.unexpectedToken expected found, ⟨log.pos, log.pos⟩⟩ ∧
      ParseError.Explains log expected found := by
  obtain ⟨hsome, hentered⟩ := Grammar.Rule.read_program_expected h
  have hrules : log.rules ≠ [] := by
    obtain ⟨r, hr⟩ := List.exists_mem_of_ne_nil _ hsome
    exact List.ne_nil_of_mem (Grammar.Attempts.mem_rules.2 hr)
  refine ⟨ParseError.expectedText log.rules, ParseError.foundText source.toList log.pos, ?_, ?_⟩
  · rw [parse_eq, h]
    rfl
  · have hspecific := ParseError.not_somethingElse hrules source.toList log.pos
    refine ⟨hrules, hspecific, ParseError.exists_enumerates hrules, fun htoken => ?_⟩
    by_contra hpos
    have hletter : 'k' ∈ (ParseError.expectedText log.rules).toList := htoken.mem (by decide)
    rcases ParseError.mem_expectedText hrules hletter with hbetween | ⟨r, hr, hletter⟩
    · exact absurd hbetween (by decide)
    · have hr := hentered hpos r (Grammar.Attempts.mem_rules.1 hr)
      exact Grammar.Rule.construct_ne_token hr (Grammar.Rule.construct_of_mem hletter)

/-- Where a statement should begin, four names are listed for five rules. -/
theorem parse_names_expected_statement :
    Grammar.Rule.program.read "  )".toList =
        .error ⟨2, [.scope, .ifWord, .whileWord, .expressionStatement, .endOfInput]⟩ ∧
      ∃ found, ParseError.Explains
        ⟨2, [.scope, .ifWord, .whileWord, .expressionStatement, .endOfInput]⟩
        "end of input, statement, 'if' or 'while'" found := by
  have hread : Grammar.Rule.program.read "  )".toList =
      .error ⟨2, [.scope, .ifWord, .whileWord, .expressionStatement, .endOfInput]⟩ := by cbv
  obtain ⟨expected, found, hparse, hexplains⟩ := parse_names_expected hread
  have hexpected : expected = "end of input, statement, 'if' or 'while'" := by
    rw [parse_eq, hread] at hparse
    injection hparse with hparse
    injection hparse with hcause
    injection hcause with hexpected
    rw [← hexpected]
    cbv
  exact ⟨hread, found, hexpected ▸ hexplains⟩

end IntScript
