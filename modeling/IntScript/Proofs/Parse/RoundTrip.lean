import IntScript.Proofs.Parse.Arena
import IntScript.Proofs.Parse.Printed

/-!
# Parsing undoes printing

The tokens of a program, with any blank text between them, are parsed into a tree of the same
structure. Statements are told apart by their first tokens, a branch takes an `else` only if one
comes next, and blocks end with the first token that begins no statement.
-/

namespace IntScript

namespace Tree

variable {α β : Type}

/-- Only blocks have the skeleton of a block. -/
theorem exists_block_of_skeleton {t : Tree α} {b : β} {ts : List (Tree β)}
    (h : t.skeleton = (Tree.block b ts).skeleton) : ∃ a us, t = .block a us := by
  cases t with
  | block a us => exact ⟨a, us, rfl⟩
  | sequence a c rest => cases rest <;> cases h
  | ifElse a c t e => cases e <;> cases h
  | _ => cases h

/-- Blocks stay as they are where a block is asked for. -/
theorem asBlock_of_skeleton {t : Tree Span} {b : β} {ts : List (Tree β)}
    (h : t.skeleton = (Tree.block b ts).skeleton) : Build.asBlock t = t := by
  obtain ⟨a, us, rfl⟩ := exists_block_of_skeleton h
  rfl

end Tree

namespace Grammar

open Phrase (Takes Misses TakesMore misses_of_isUnlike)

variable {α : Type} {s : Tree α} {ts k : List (List Char)}

/-- The tokens behind the statements of a block: its closing brace, or nothing behind those of a
program. -/
inductive EndsBlock : List (List Char) → Prop
  | brace (ts : List (List Char)) : EndsBlock (['}'] :: ts)
  | nil : EndsBlock []

section Ends

variable {r : Rule} {w : Word}

/-- Rules for words miss at the end of a block. -/
theorem EndsBlock.call_misses (h : EndsBlock k) (hr : r.definition = .word w)
    (hbrace : w.Fails ['}']) (hnil : w.scan [] = none) : Misses (.call r) k := by
  cases h with
  | brace ts => exact .callWord hr hbrace
  | nil => exact .callWord_nil hr hnil

/-- Marks other than a closing brace miss at the end of a block. -/
theorem EndsBlock.mark_misses (h : EndsBlock k) {c : Char} (hc : isSpace c = false)
    (hbrace : c ≠ '}') : Misses (Phrase.mark c) k := by
  cases h with
  | brace ts => exact .word (Word.fails_exact (by simp [hc]) (by simp [dropText?, hbrace]))
  | nil => exact .word_nil rfl

/-- No reserved word stands at the end of a block. -/
theorem EndsBlock.keyword_misses (h : EndsBlock k) {word : Keyword}
    (hr : r.definition = .word (.keyword word)) : Misses (.call r) k := by
  refine h.call_misses hr (Word.fails_keyword ?_) ?_
  · cases word <;> decide
  · cases word <;> rfl

/-- No expression begins at the end of a block. -/
theorem EndsBlock.expression_misses (h : EndsBlock k) : Misses (.call .expression) k := by
  have hname : Misses (.call .identifier) k :=
    h.call_misses rfl (Word.fails_identifier (by decide)) rfl
  have hinteger : Misses (.call .integer) k :=
    h.call_misses rfl (Word.fails_integer (by decide)) rfl
  have hinput : Misses (.call .input) k :=
    h.call_misses rfl (Word.fails_exact (by decide) (by decide)) rfl
  have hneg : Misses (.call .neg) k :=
    h.call_misses rfl (Word.fails_exact (by decide) (by decide)) rfl
  have hnot : Misses (.call .not) k :=
    h.call_misses rfl (Word.fails_exact (by decide) (by decide)) rfl
  have hparen : Misses (Phrase.mark '(') k := h.mark_misses (by decide) (by decide)
  have hbefore : Misses (.call .prefixOp) k := .callSilent rfl (.alt hneg hnot)
  have hprimary : Misses (.call .primary) k :=
    .callSilent rfl (.alt hinteger (.alt hinput (.alt hname (.seq_first hparen))))
  have hoperand : Misses Phrase.operand k :=
    .seq_second (.many_none hbefore) (.seq_first hprimary)
  have hassign : Misses (.call .assignment) k := .callPhrase rfl (.seq_first hname)
  have hprint : Misses (.call .printExpression) k :=
    .callPhrase rfl (.seq_first (h.keyword_misses rfl))
  have hoperation : Misses (.call .operation) k := .callPhrase rfl (.seq_first hoperand)
  exact .callSilent rfl (.alt hassign (.alt hprint hoperation))

/-- No statement begins at the end of a block. -/
theorem EndsBlock.statement_misses (h : EndsBlock k) : Misses (.call .statement) k := by
  have hscope : Misses (.call .scope) k :=
    .callPhrase rfl (.seq_first (h.mark_misses (by decide) (by decide)))
  have hif : Misses (.call .ifStatement) k := .callPhrase rfl (.seq_first (h.keyword_misses rfl))
  have hwhile : Misses (.call .whileStatement) k :=
    .callPhrase rfl (.seq_first (h.keyword_misses rfl))
  have hexpression : Misses (.call .expressionStatement) k :=
    .callPhrase rfl (.seq_first h.expression_misses)
  exact .callSilent rfl (.alt hscope (.alt hif (.alt hwhile hexpression)))

end Ends

section Statements

/-- Fragments that are built into statements with the structure of the given ones, whatever
fragments follow them. -/
def AreBuilt (ss : List (Tree α)) (fs : List Fragment) : Prop :=
  ∃ us, (∀ gs vs, Build.statements gs = .ok vs → Build.statements (fs ++ gs) = .ok (us ++ vs)) ∧
    Tree.relabelAll (fun _ => ()) us = Tree.relabelAll (fun _ => ()) ss

/-- A statement in front of others. -/
theorem statements_cons {f : Fragment} {fs : List Fragment} {u : Tree Span}
    {us : List (Tree Span)} (hf : Build.statement f = .ok u)
    (hfs : Build.statements fs = .ok us) : Build.statements (f :: fs) = .ok (u :: us) := by
  cases f with
  | word r pos text => cases hf
  | phrase r start stop inner =>
    rw [Build.statements, hf, hfs]
    · rfl
    · rintro pos text h
      cases h

/-- No statements are built from no fragments. -/
theorem AreBuilt.nil : AreBuilt ([] : List (Tree α)) [] :=
  ⟨[], fun _ _ h => h, rfl⟩

/-- A statement and those behind it. -/
theorem AreBuilt.cons {ss : List (Tree α)} {fs gs : List Fragment}
    (hs : IsBuilt Build.statement s fs) (hss : AreBuilt ss gs) : AreBuilt (s :: ss) (fs ++ gs) := by
  obtain ⟨f, u, rfl, hf, hu⟩ := hs
  obtain ⟨us, hus, hskeleton⟩ := hss
  refine ⟨u :: us, fun hs vs hvs => ?_, ?_⟩
  · exact statements_cons hf (hus hs vs hvs)
  · have hu' : u.relabel (fun _ => ()) = s.relabel fun _ => () := hu
    rw [Tree.relabelAll, Tree.relabelAll, hu', hskeleton]

/-- No statement begins with `else`. -/
theorem statement_head (hs : s.IsStatement) :
    ∃ t ts, s.tokens = t :: ts ∧ t.takeWhile isWordChar ≠ Keyword.elseWord.spelling := by
  cases hs with
  | expression he =>
    obtain ⟨t, ts, heq, ht⟩ := he.head
    rw [Tree.tokens, heq]
    exact ⟨_, _, rfl, ht.takeWhile_ne (by decide)⟩
  | block hts => exact ⟨_, _, rfl, by decide⟩
  | ifThen he hts => exact ⟨_, _, rfl, by decide⟩
  | ifElse he hts hes => exact ⟨_, _, rfl, by decide⟩
  | whileLoop he hts => exact ⟨_, _, rfl, by decide⟩

/-- No `else` stands in front of the statements of a block or behind them. -/
theorem elseWord_misses {ss : List (Tree α)} (hss : ∀ s ∈ ss, s.IsStatement) (hk : EndsBlock k) :
    Misses (.call .elseWord) (Tree.statementTokens ss ++ k) := by
  cases ss with
  | nil => exact hk.keyword_misses rfl
  | cons s ss =>
    obtain ⟨t, ts, heq, ht⟩ := statement_head (hss s List.mem_cons_self)
    rw [Tree.statementTokens, heq]
    exact .callWord rfl (Word.fails_keyword ht)

/-- In front of its tokens a statement is taken as a whole. A statement other than a block must not
be followed by an `else`, which it could take for its own. -/
def IsTaken (s : Tree α) : Prop :=
  ∀ k, (s.statements? = none → Misses (.call .elseWord) k) →
    Takes (.call .statement) (s.tokens ++ k) k (IsBuilt Build.statement s)

/-- Further statements of a block are taken up to its end. -/
theorem statements_takeMore {ss : List (Tree α)} (hss : ∀ s ∈ ss, s.IsStatement)
    (ih : ∀ s ∈ ss, IsTaken s) (hk : EndsBlock k) :
    TakesMore (.call .statement) (Tree.statementTokens ss ++ k) k (AreBuilt ss) := by
  induction ss with
  | nil =>
    refine (TakesMore.none hk.statement_misses).weaken ?_
    rintro fs rfl
    exact .nil
  | cons s ss ihss =>
    rw [List.forall_mem_cons] at hss ih
    have hfirst := ih.1 (Tree.statementTokens ss ++ k) fun _ => elseWord_misses hss.2 hk
    have hrest := ihss hss.2 ih.2
    rw [Tree.statementTokens, List.append_assoc]
    refine (TakesMore.more (by decide) hfirst hrest).weaken ?_
    rintro fs ⟨gs, hs, rfl, hgs, hhs⟩
    exact .cons hgs hhs

/-- The statements of a block are taken up to its end. -/
theorem statements_take {ss : List (Tree α)} (hss : ∀ s ∈ ss, s.IsStatement)
    (ih : ∀ s ∈ ss, IsTaken s) (hk : EndsBlock k) :
    Takes (.many (.call .statement)) (Tree.statementTokens ss ++ k) k (AreBuilt ss) := by
  cases ss with
  | nil =>
    refine (Takes.many_none hk.statement_misses).weaken ?_
    rintro fs rfl
    exact .nil
  | cons s ss =>
    rw [List.forall_mem_cons] at hss ih
    have hfirst := ih.1 (Tree.statementTokens ss ++ k) fun _ => elseWord_misses hss.2 hk
    have hrest := statements_takeMore hss.2 ih.2 hk
    rw [Tree.statementTokens, List.append_assoc]
    refine (Takes.many (by decide) hfirst hrest).weaken ?_
    rintro fs ⟨gs, hs, rfl, hgs, hhs⟩
    exact .cons hgs hhs

/-- A block is taken up to its closing brace. -/
theorem isTaken_block {a : α} {ss : List (Tree α)} (hss : ∀ s ∈ ss, s.IsStatement)
    (ih : ∀ s ∈ ss, IsTaken s) : IsTaken (.block a ss) := by
  intro k _
  have hbody := statements_take hss ih (.brace k)
  have hbraces := Takes.seq (.word (Word.fits_exact ['{']))
    (hbody.seq (.word (Word.fits_exact ['}'])))
  have htokens : (Tree.block a ss).tokens ++ k =
      ['{'] :: (Tree.statementTokens ss ++ ['}'] :: k) := by
    rw [Tree.tokens, List.cons_append, List.append_assoc]
    rfl
  rw [htokens]
  refine .callSilent rfl (.alt_first ((Takes.callPhrase rfl hbraces).weaken ?_))
  rintro fs ⟨start, stop, _, rfl, _, _, rfl, rfl, fs, _, rfl, ⟨us, hus, hskeleton⟩, rfl⟩
  refine ⟨_, .block ⟨start, stop⟩ us, rfl, ?_, ?_⟩
  · have hbuilt := hus [] [] rfl
    rw [List.append_nil, List.append_nil] at hbuilt
    rw [List.nil_append, List.append_nil, Build.statement, hbuilt]
    rfl
  · exact congrArg (Tree.block ()) hskeleton

/-- What begins with an expression is no block, branch or loop. -/
theorem StartsExpression.misses {t : List Char} (h : StartsExpression t)
    (ts : List (List Char)) :
    Misses (.call .scope) (t :: ts) ∧ Misses (.call .ifStatement) (t :: ts) ∧
      Misses (.call .whileStatement) (t :: ts) := by
  refine ⟨.callPhrase rfl (.seq_first (.word (Word.fails_exact (by decide) ?_))),
    .callPhrase rfl (.seq_first (.callWord rfl (Word.fails_keyword ?_))),
    .callPhrase rfl (.seq_first (.callWord rfl (Word.fails_keyword ?_)))⟩
  · exact h.dropText? (by decide) (by decide)
  · exact h.takeWhile_ne (by decide)
  · exact h.takeWhile_ne (by decide)

/-- An expression is taken with its semicolon. -/
theorem isTaken_expression {a : α} {e : Tree α} (he : e.IsExpression) :
    IsTaken (.sequence a e none) := by
  intro k _
  obtain ⟨t, ts, heq, ht⟩ := he.head
  have htokens : (Tree.sequence a e none).tokens ++ k = e.tokens ++ [';'] :: k := by
    rw [Tree.tokens, List.append_assoc]
    rfl
  have hmisses := ht.misses (ts ++ [';'] :: k)
  rw [← List.cons_append, ← heq] at hmisses
  have hexpression := (expression_takes he (.semicolon k)).seq (.word (Word.fits_exact [';']))
  rw [htokens]
  refine .callSilent rfl (.alt_second hmisses.1 (.alt_second hmisses.2.1
    (.alt_second hmisses.2.2 ((Takes.callPhrase rfl hexpression).weaken ?_))))
  rintro fs ⟨start, stop, _, rfl, _, _, rfl, ⟨f, u, rfl, hf, hu⟩, rfl⟩
  refine ⟨_, .sequence ⟨start, stop⟩ u none, rfl, ?_, congrArg (Tree.sequence () · none) hu⟩
  change Build.statement (.phrase .expressionStatement start stop [f]) = _
  rw [Build.statement, hf]
  rfl

/-- A phrase behind a reserved word. -/
theorem keyword_takes {r : Rule} {word : Keyword} {p : Phrase} {Q : List Fragment → Prop}
    {us : List (List Char)} (hr : r.definition = .word (.keyword word)) (h : Takes p ts us Q) :
    Takes (.seq (.call r) p) (word.spelling :: ts) us fun fs =>
      ∃ pos gs, fs = .word r pos word.spelling :: gs ∧ Q gs := by
  refine (Takes.seq (.callWord hr (Word.fits_keyword word)) h).weaken ?_
  rintro fs ⟨_, gs, rfl, ⟨pos, rfl⟩, hgs⟩
  exact ⟨pos, gs, rfl, hgs⟩

/-- A condition in parentheses. -/
theorem condition_takes {e : Tree α} (he : e.IsExpression) {p : Phrase}
    {Q : List Fragment → Prop} {us : List (List Char)} (h : Takes p ts us Q) :
    Takes (.seq (Phrase.mark '(') (.seq (.call .expression) (.seq (Phrase.mark ')') p)))
      (['('] :: (e.tokens ++ [')'] :: ts)) us fun fs =>
        ∃ f u gs, fs = f :: gs ∧ Build.condition f = .ok (.condition f.span u) ∧
          u.skeleton = e.skeleton ∧ Q gs := by
  have hclose := Takes.seq (.word (Word.fits_exact [')'])) h
  have hexpression := (expression_takes he (.paren ts)).seq hclose
  refine (Takes.seq (.word (Word.fits_exact ['('])) hexpression).weaken ?_
  rintro fs ⟨_, _, rfl, rfl, _, _, rfl, ⟨f, u, rfl, hf, hu⟩, _, gs, rfl, rfl, hgs⟩
  refine ⟨f, u, gs, rfl, ?_, hu, hgs⟩
  rw [Build.condition, hf]
  rfl

/-- A loop is taken with its body. -/
theorem isTaken_whileLoop {a b c : α} {e : Tree α} {ss : List (Tree α)} (he : e.IsExpression)
    (ih : IsTaken (.block c ss)) : IsTaken (.whileLoop a (.condition b e) (.block c ss)) := by
  intro k _
  have hbody := ih k (by simp [Tree.statements?])
  have hloop := keyword_takes (r := .whileWord) rfl (condition_takes he hbody)
  have htokens : (Tree.whileLoop a (.condition b e) (.block c ss)).tokens ++ k =
      Keyword.whileWord.spelling :: ['('] ::
        (e.tokens ++ [')'] :: ((Tree.block c ss).tokens ++ k)) := by
    change (Keyword.whileWord.spelling :: ['('] ::
      (e.tokens ++ [')'] :: (Tree.block c ss).tokens)) ++ k = _
    simp only [List.cons_append, List.append_assoc]
  have hscope : Misses (.call .scope) (Keyword.whileWord.spelling :: ['('] ::
      (e.tokens ++ [')'] :: ((Tree.block c ss).tokens ++ k))) :=
    .callPhrase rfl (.seq_first (.word (Word.fails_exact (by decide) (by decide))))
  have hif : Misses (.call .ifStatement) (Keyword.whileWord.spelling :: ['('] ::
      (e.tokens ++ [')'] :: ((Tree.block c ss).tokens ++ k))) :=
    .callPhrase rfl (.seq_first (.callWord rfl (Word.fails_keyword (by decide))))
  rw [htokens]
  refine .callSilent rfl (.alt_second hscope (.alt_second hif (.alt_first
    ((Takes.callPhrase rfl hloop).weaken ?_))))
  rintro fs ⟨start, stop, _, rfl, pos, _, rfl, f, u, _, rfl, hf, hu, g, v, rfl, hg, hv⟩
  refine ⟨_, .whileLoop ⟨start, stop⟩ (.condition f.span u) v, rfl, ?_, ?_⟩
  · rw [Build.statement, hf, hg]
    change Except.ok (Tree.whileLoop _ _ (Build.asBlock v)) = _
    rw [Tree.asBlock_of_skeleton hv]
  · change Tree.whileLoop () (.condition () u.skeleton) v.skeleton = _
    rw [hu, hv]
    rfl

/-- Where `if` comes next a branch is taken. -/
theorem branch_takes {us : List (List Char)} {Q : List Fragment → Prop}
    (h : Takes (.call .ifStatement) (Keyword.ifWord.spelling :: ts) us Q) :
    Takes (.call .statement) (Keyword.ifWord.spelling :: ts) us Q := by
  have hscope : Misses (.call .scope) (Keyword.ifWord.spelling :: ts) :=
    .callPhrase rfl (.seq_first (.word (Word.fails_exact (by decide) (by decide))))
  exact .callSilent rfl (.alt_second hscope (.alt_first h))

/-- A branch without `else`. -/
theorem isTaken_ifThen {a b c : α} {e : Tree α} {ss : List (Tree α)} (he : e.IsExpression)
    (ih : IsTaken (.block c ss)) : IsTaken (.ifElse a (.condition b e) (.block c ss) none) := by
  intro k hk
  have hthen := ih k (by simp [Tree.statements?])
  have hnone : Misses (.seq (.call .elseWord) (.call .statement)) k := .seq_first (hk rfl)
  have hbranch := keyword_takes (r := .ifWord) rfl
    (condition_takes he (hthen.seq (.opt_none hnone)))
  have htokens : (Tree.ifElse a (.condition b e) (.block c ss) none).tokens ++ k =
      Keyword.ifWord.spelling :: ['('] ::
        (e.tokens ++ [')'] :: ((Tree.block c ss).tokens ++ k)) := by
    change (Keyword.ifWord.spelling :: ['('] ::
      (e.tokens ++ [')'] :: (Tree.block c ss).tokens)) ++ k = _
    simp only [List.cons_append, List.append_assoc]
  rw [htokens]
  refine branch_takes ((Takes.callPhrase rfl hbranch).weaken ?_)
  rintro fs ⟨start, stop, _, rfl, pos, _, rfl, f, u, _, rfl, hf, hu, _, _, rfl,
    ⟨g, v, rfl, hg, hv⟩, rfl⟩
  refine ⟨_, .ifElse ⟨start, stop⟩ (.condition f.span u) v none, rfl, ?_, ?_⟩
  · change Build.statement (.phrase .ifStatement start stop [.word .ifWord pos _, f, g]) = _
    rw [Build.statement, hf, hg]
    change Except.ok (Tree.ifElse _ _ (Build.asBlock v) none) = _
    rw [Tree.asBlock_of_skeleton hv]
  · change Tree.ifElse () (.condition () u.skeleton) v.skeleton none = _
    rw [hu, hv]
    rfl

/-- A branch with `else`. -/
theorem isTaken_ifElse {a b c d : α} {e : Tree α} {ss es : List (Tree α)} (he : e.IsExpression)
    (iht : IsTaken (.block c ss)) (ihe : IsTaken (.block d es)) :
    IsTaken (.ifElse a (.condition b e) (.block c ss) (some (.block d es))) := by
  intro k _
  have helse := ihe k (by simp [Tree.statements?])
  have hopt := Takes.opt (keyword_takes (r := .elseWord) rfl helse)
  have hthen := iht (Keyword.elseWord.spelling :: ((Tree.block d es).tokens ++ k))
    (by simp [Tree.statements?])
  have hbranch := keyword_takes (r := .ifWord) rfl (condition_takes he (hthen.seq hopt))
  have htokens : (Tree.ifElse a (.condition b e) (.block c ss) (some (.block d es))).tokens ++ k =
      Keyword.ifWord.spelling :: ['('] :: (e.tokens ++ [')'] :: ((Tree.block c ss).tokens ++
        Keyword.elseWord.spelling :: ((Tree.block d es).tokens ++ k))) := by
    change (Keyword.ifWord.spelling :: ['('] :: (e.tokens ++ [')'] :: ((Tree.block c ss).tokens ++
      Keyword.elseWord.spelling :: (Tree.block d es).tokens))) ++ k = _
    simp only [List.cons_append, List.append_assoc]
  rw [htokens]
  refine branch_takes ((Takes.callPhrase rfl hbranch).weaken ?_)
  rintro fs ⟨start, stop, _, rfl, pos, _, rfl, f, u, _, rfl, hf, hu, _, _, rfl,
    ⟨g, v, rfl, hg, hv⟩, pos', _, rfl, g', v', rfl, hg', hv'⟩
  refine ⟨_, .ifElse ⟨start, stop⟩ (.condition f.span u) v (some v'), rfl, ?_, ?_⟩
  · change Build.statement (.phrase .ifStatement start stop
      [.word .ifWord pos _, f, g, .word .elseWord pos' _, g']) = _
    rw [Build.statement, hf, hg, hg']
    change Except.ok (Tree.ifElse _ _ (Build.asBlock v) (some (Build.asBlock v'))) = _
    rw [Tree.asBlock_of_skeleton hv, Tree.asBlock_of_skeleton hv']
  · change Tree.ifElse () (.condition () u.skeleton) v.skeleton (some v'.skeleton) = _
    rw [hu, hv, hv']
    rfl

/-- Every statement is taken as a whole. -/
theorem isTaken (hs : s.IsStatement) : IsTaken s := by
  induction hs with
  | expression he => exact isTaken_expression he
  | block hss ih => exact isTaken_block hss ih
  | ifThen he _ ih => exact isTaken_ifThen he ih
  | ifElse he _ _ iht ihe => exact isTaken_ifElse he iht ihe
  | whileLoop he _ ih => exact isTaken_whileLoop he ih

/-- The end of the text is taken where no tokens are left. -/
theorem endOfInput_takes :
    Takes (.call .endOfInput) [] [] fun fs => ∃ pos text, fs = [.word .endOfInput pos text] := by
  intro c hc
  have hscan : Word.finish.scan c.rest = some ([], []) := by
    rw [hc.rest_eq_nil]
    rfl
  exact ⟨_, _, .callWord rfl hscan, ⟨.nil, by simp⟩, c.pos, [], rfl⟩

end Statements

end Grammar

/-- Parsing undoes printing: any text that writes out the tokens of a program is parsed into a tree
of the same structure, however the tokens are spaced and commented. -/
theorem parse_printed {α : Type} {t : Tree α} (ht : t.IsProgram) {text : List Char}
    (htext : Grammar.Writes t.programTokens text) :
    ∃ s, parse (String.ofList text) = .ok s ∧ s.skeleton = t.skeleton := by
  have htokens := ht.forall_tokens
  obtain ⟨a, ss, rfl, hss⟩ := ht
  have hstands : Grammar.Stands (Tree.statementTokens ss ++ []) (.atStart text) := by
    rw [List.append_nil]
    exact ⟨htext, htokens⟩
  have hbody := (Grammar.statements_take hss (fun s hs => Grammar.isTaken (hss s hs)) .nil).seq
    Grammar.endOfInput_takes
  obtain ⟨d, fs, hreads, -, gs, _, rfl, ⟨us, hus, hskeleton⟩, pos, finish, rfl⟩ := hbody _ hstands
  -- the program starts at the start of the text, where there is nothing to skip
  rw [← hstands.skip_eq] at hreads
  have hprogram := Grammar.Phrase.Reads.callPhrase (r := .program) rfl (.seq (.start rfl) hreads)
  have hread := Grammar.Rule.read_eq_ok_iff.2 ⟨d, hprogram⟩
  have hbuilt := hus [.word .endOfInput pos finish] [] rfl
  rw [List.append_nil] at hbuilt
  refine ⟨.block ⟨0, d.pos⟩ us, ?_, congrArg (Tree.block ()) hskeleton⟩
  rw [parse_eq, String.toList_ofList, hread]
  change Build.program [.phrase .program 0 d.pos (gs ++ [.word .endOfInput pos finish])] = _
  rw [Build.program, hbuilt]
  rfl

open Grammar in
/-- An assignment in which the operand of a sign stands in parentheses, with a tab and a comment
between its tokens. -/
theorem parse_printed_negation :
    ∃ s, parse "x = - (\tx + // twice\n? ) ;" = .ok s ∧ s.skeleton =
      .block () [.sequence () (.assign () (.var () "x")
        (.unary () .neg (.binary () .add (.var () "x") (.input ())))) none] := by
  have hx : isIdentifier "x".toList = true := by decide
  have htree : Tree.IsProgram (.block () [.sequence () (.assign () (.var () "x")
      (.unary () .neg (.binary () .add (.var () "x") (.input ())))) none]) := by
    refine ⟨_, _, rfl, List.forall_mem_singleton.2 (.expression (.assign hx ?_))⟩
    exact .unary rfl (.binary (.var hx) .input)
  have hspace : IsSeparator [' '] := ⟨_, _, rfl, by decide, .nil⟩
  have htab : IsSeparator ['\t'] := ⟨_, _, rfl, by decide, .nil⟩
  have hcomment : IsSeparator " // twice\n".toList :=
    ⟨_, _, rfl, by decide, @IsTrivia.comment " twice".toList [] (by decide) .nil⟩
  have hend := Writes.next (t := ['?']) (by decide) hspace
    (.next (t := [')']) (by decide) hspace (.last [';']))
  have hsum := Writes.next (t := ['x']) (by decide) hspace
    (.next (t := ['+']) (by decide) hcomment hend)
  have hsign := Writes.next (t := ['-']) (by decide) hspace
    (.next (t := ['(']) (by decide) htab hsum)
  have hwrites := Writes.next (t := ['x']) (by decide) hspace
    (.next (t := ['=']) (by decide) hspace hsign)
  exact parse_printed htree hwrites

end IntScript
