import IntScript.Proofs.Grammar.Tries

/-!
# Completing what was begun

If a reading has come to a place, then the text up to that place can be continued so that the
phrase fits, whatever the reading found there. There are two parts to this. A reading that ended
before a place ends in the same way if the text goes on differently from there. And a reading that
has come to a place within a phrase is completed there: what is left of the phrase is written in
the simplest way.

What follows a phrase must not run together with it, nor be taken for more of it. Each phrase states
which texts are clear of it in that sense, and each rule which texts are clear of what it stands
for.
-/

namespace IntScript.Grammar

namespace Phrase

variable {p q : Phrase} {cs ds es : List Char}

/-- A phrase fits in front of a text, and another text is left behind it and the space that
follows. -/
def Accepts (p : Phrase) (cs ds : List Char) : Prop := ∃ e, Tries p cs (some ds) e

/-- A phrase does not fit in front of a text. -/
def Rejects (p : Phrase) (cs : List Char) : Prop := ∃ e, Tries p cs none e

theorem Accepts.word {w : Word} {t rest : List Char} (h : w.scan cs = some (t, rest)) :
    Accepts (.word w) cs (bare rest) := ⟨cs, .word h⟩

theorem Accepts.finish : Accepts (.word .finish) [] [] := by
  have hend : Word.finish.scan [] = some ([], []) := rfl
  exact .word hend

theorem Rejects.word {w : Word} (h : w.scan cs = none) : Rejects (.word w) cs := ⟨cs, .noWord h⟩

theorem Accepts.call {r : Rule} (h : Accepts r.definition.body cs ds) :
    Accepts (.call r) cs ds := by
  obtain ⟨e, he⟩ := h
  exact ⟨e, .call he⟩

theorem Rejects.call {r : Rule} (h : Rejects r.definition.body cs) : Rejects (.call r) cs := by
  obtain ⟨e, he⟩ := h
  exact ⟨e, .call he⟩

theorem Accepts.seq (h : Accepts p cs ds) (h' : Accepts q ds es) : Accepts (.seq p q) cs es := by
  obtain ⟨e, he⟩ := h
  obtain ⟨e', he'⟩ := h'
  exact ⟨_, .seq he he'⟩

theorem Rejects.seq (h : Rejects p cs) : Rejects (.seq p q) cs := by
  obtain ⟨e, he⟩ := h
  exact ⟨e, .seqFirst he⟩

theorem Rejects.seq_second (h : Accepts p cs ds) (h' : Rejects q ds) : Rejects (.seq p q) cs := by
  obtain ⟨e, he⟩ := h
  obtain ⟨e', he'⟩ := h'
  exact ⟨_, .seq he he'⟩

theorem Accepts.alt_first (h : Accepts p cs ds) : Accepts (.alt p q) cs ds := by
  obtain ⟨e, he⟩ := h
  exact ⟨e, .altFirst he⟩

theorem Accepts.alt_second (h : Rejects p cs) (h' : Accepts q cs ds) :
    Accepts (.alt p q) cs ds := by
  obtain ⟨e, he⟩ := h
  obtain ⟨e', he'⟩ := h'
  exact ⟨_, .altSecond he he'⟩

theorem Rejects.alt (h : Rejects p cs) (h' : Rejects q cs) : Rejects (.alt p q) cs := by
  obtain ⟨e, he⟩ := h
  obtain ⟨e', he'⟩ := h'
  exact ⟨_, .altSecond he he'⟩

theorem Rejects.oneOf {r : Rule} {rs : List Rule} (h : ∀ q ∈ r :: rs, Rejects (.call q) cs) :
    Rejects (oneOf r rs) cs := by
  induction rs generalizing r with
  | nil => exact h r List.mem_cons_self
  | cons q rs ih =>
    exact .alt (h r List.mem_cons_self) (ih fun s hs => h s (List.mem_cons_of_mem _ hs))

theorem Accepts.many (h : Accepts p cs ds) (h' : Accepts (.many p) ds es) :
    Accepts (.many p) cs es := by
  obtain ⟨e, he⟩ := h
  obtain ⟨e', he'⟩ := h'
  exact ⟨_, .many he he'⟩

theorem Accepts.many_none (h : Rejects p cs) : Accepts (.many p) cs cs := by
  obtain ⟨e, he⟩ := h
  exact ⟨e, .manyNone he⟩

theorem Accepts.opt (h : Accepts p cs ds) : Accepts (.opt p) cs ds := by
  obtain ⟨e, he⟩ := h
  exact ⟨e, .opt he⟩

theorem Accepts.opt_none (h : Rejects p cs) : Accepts (.opt p) cs cs := by
  obtain ⟨e, he⟩ := h
  exact ⟨e, .optNone he⟩

/-- A cut behind a phrase is a cut in what is left behind the phrase. -/
theorem Tries.exists_cut {e y b : List Char} (h : Tries p cs (some ds) e)
    (hp : p.isRegular = true) (hcs : bare cs = cs) (hyb : cs = y ++ b) (hclean : Clean y b)
    (hlen : b.length < ds.length) (r : List Char) :
    ∃ z, ds = z ++ b ∧ z ≠ [] ∧ Clean z b ∧ bare (z ++ b) = z ++ b ∧
      bare (z ++ '\n' :: r) = z ++ '\n' :: r := by
  have hbare : bare ds = ds := h.bare_eq hcs ds rfl
  have hds : ds <:+ y ++ b := hyb ▸ ((h.leads hp).2 ds rfl).suffix
  obtain ⟨z, rfl⟩ := List.suffix_of_suffix_length_le (List.suffix_append y b) hds
    (Nat.le_of_lt hlen)
  have hz : z ≠ [] := by
    rintro rfl
    exact Nat.lt_irrefl _ hlen
  have hsuffix : z <:+ y := by
    obtain ⟨u, hu⟩ := hds
    rw [← List.append_assoc] at hu
    exact ⟨u, List.append_cancel_right hu⟩
  exact ⟨z, rfl, hz, hclean.of_suffix hsuffix, hbare, bare_cut_eq hz hbare r⟩

/-- A place that lies behind the further one of two places lies behind both of them. -/
theorem lt_of_lt_further {a b : List Char} {n : Nat} (h : n < (further a b).length) :
    n < a.length ∧ n < b.length := by
  rcases further_cases a b with ⟨hlt, heq⟩ | ⟨hle, heq⟩
  · rw [heq] at h
    omega
  · rw [heq] at h
    omega

/-- Whether a single character comes next is decided by the first character. -/
theorem dropText?_first {t y : List Char} (ht : (notAhead t).isRegular = true) (hy : y ≠ [])
    (u v : List Char) : dropText? t (y ++ u) = none ↔ dropText? t (y ++ v) = none := by
  obtain ⟨c, rfl⟩ : ∃ c, t = [c] := List.length_eq_one_iff.1 (by simpa [isRegular] using ht)
  cases y with
  | nil => exact absurd rfl hy
  | cons d y => simp [dropText?]

/-- A word that was found before a cut is found, and what is left behind it goes up to the cut. -/
theorem Accepts.word_cut {w : Word} {y b t rest z : List Char} (hw : w.isPlain = true)
    (h : w.scan (y ++ b) = some (t, rest)) (hy : y ≠ []) (hz : bare rest = z ++ b)
    (r : List Char) : Accepts (.word w) (y ++ '\n' :: r) (bare (z ++ '\n' :: r)) := by
  have hfin : w ≠ .finish := by
    rintro rfl
    cases y with
    | nil => exact hy rfl
    | cons c y => cases h
  -- behind the word comes skipped text, then what is left
  obtain ⟨s, hs, -⟩ := Leads.bare rest
  have hrest : rest = (s ++ z) ++ b := by
    rw [hz] at hs
    rw [hs, List.append_assoc]
  have hyt : y = t ++ (s ++ z) := by
    have hsplit := (Word.scan_append h).1
    rw [hrest, ← List.append_assoc] at hsplit
    exact List.append_cancel_right hsplit
  have hscan : w.scan (t ++ ((s ++ z) ++ '\n' :: r)) = some (t, (s ++ z) ++ '\n' :: r) := by
    refine Word.scan_of_head hw hfin h fun c hc => ?_
    rw [hrest]
    cases hsz : s ++ z with
    | nil =>
      rw [hsz] at hc
      cases hc
      exact .inr rfl
    | cons d u =>
      rw [hsz] at hc
      exact .inl hc
  have hbare : bare ((s ++ z) ++ '\n' :: r) = bare (z ++ '\n' :: r) := by
    have hold : bare ((s ++ z) ++ b) = z ++ b := by
      rw [← hrest]
      exact hz
    exact bare_cut hold r
  rw [hyt, List.append_assoc, ← hbare]
  exact .word hscan

/-- A reading that ended before a place ends in the same way if the text goes on differently from
there. -/
theorem Tries.cut {e : List Char} {o : Option (List Char)} (h : Tries p cs o e)
    (hp : p.isRegular = true) (hcs : bare cs = cs) {y b : List Char} (hyb : cs = y ++ b)
    (hclean : Clean y b) (hlen : b.length < e.length) (r : List Char) :
    (o = none → Rejects p (y ++ '\n' :: r)) ∧
      ∀ z, o = some (z ++ b) → Accepts p (y ++ '\n' :: r) (bare (z ++ '\n' :: r)) := by
  have hy : y ≠ [] := by
    have hreach := (h.leads hp).1.suffix.length_le
    rintro rfl
    rw [hyb, List.nil_append] at hreach
    omega
  have hkeep : bare (y ++ '\n' :: r) = y ++ '\n' :: r := by
    rw [hyb] at hcs
    exact bare_cut_eq hy hcs r
  induction h generalizing y b with
  | @word w cs t rest h =>
    refine ⟨nofun, fun z hz => ?_⟩
    rw [hyb] at h
    exact .word_cut hp h hy (Option.some.inj hz) r
  | @noWord w cs h =>
    refine ⟨fun _ => ?_, nofun⟩
    rw [hyb] at h
    exact .word (Word.scan_cut hp hy hclean h r)
  | @notAhead t cs h =>
    refine ⟨nofun, fun z hz => ?_⟩
    have hz : z = y := List.append_cancel_right ((Option.some.inj hz).symm.trans hyb)
    rw [hz, hkeep]
    rw [hyb] at h
    exact ⟨_, .notAhead ((dropText?_first hp hy b _).1 h)⟩
  | @ahead t cs rest h =>
    refine ⟨fun _ => ?_, nofun⟩
    have hfound : dropText? t (y ++ '\n' :: r) ≠ none := by
      intro hnone
      rw [hyb, (dropText?_first hp hy _ b).1 hnone] at h
      cases h
    obtain ⟨rest', hrest'⟩ := Option.ne_none_iff_exists'.1 hfound
    exact ⟨_, .ahead hrest'⟩
  | call _ ih =>
    obtain ⟨hnone, hsome⟩ := ih (isRegular_body rfl hp) hcs hyb hclean hlen hy hkeep
    exact ⟨fun ho => .call (hnone ho), fun z hz => .call (hsome z hz)⟩
  | @seq p q cs ds e e' o hfirst hsecond ihp ihq =>
    obtain ⟨hp', hq⟩ := isRegular_parts hp
    obtain ⟨hlen₁, hlen₂⟩ := lt_of_lt_further hlen
    have hlong : b.length < ds.length :=
      Nat.lt_of_lt_of_le hlen₂ (hsecond.leads hq).1.suffix.length_le
    obtain ⟨z, rfl, hz, hclean', hds, hkeep'⟩ := hfirst.exists_cut hp' hcs hyb hclean hlong r
    have haccepts := (ihp hp' hcs hyb hclean hlen₁ hy hkeep).2 z rfl
    rw [hkeep'] at haccepts
    obtain ⟨hnone, hsome⟩ := ihq hq hds rfl hclean' hlen₂ hz hkeep'
    exact ⟨fun ho => .seq_second haccepts (hnone ho), fun z hz => .seq haccepts (hsome z hz)⟩
  | @seqFirst p q cs e hfirst ih =>
    obtain ⟨hnone, -⟩ := ih (isRegular_parts hp).1 hcs hyb hclean hlen hy hkeep
    exact ⟨fun ho => .seq (hnone ho), nofun⟩
  | @altFirst p q cs ds e hfirst ih =>
    obtain ⟨-, hsome⟩ := ih (isRegular_parts hp).1 hcs hyb hclean hlen hy hkeep
    exact ⟨nofun, fun z hz => .alt_first (hsome z hz)⟩
  | @altSecond p q cs e e' o hfirst hsecond ihp ihq =>
    obtain ⟨hp', hq⟩ := isRegular_parts hp
    obtain ⟨hlen₁, hlen₂⟩ := lt_of_lt_further hlen
    obtain ⟨hreject, -⟩ := ihp hp' hcs hyb hclean hlen₁ hy hkeep
    obtain ⟨hnone, hsome⟩ := ihq hq hcs hyb hclean hlen₂ hy hkeep
    exact ⟨fun ho => .alt (hreject rfl) (hnone ho),
      fun z hz => .alt_second (hreject rfl) (hsome z hz)⟩
  | @opt p cs ds e hbody ih =>
    obtain ⟨-, hsome⟩ := ih hp hcs hyb hclean hlen hy hkeep
    exact ⟨nofun, fun z hz => .opt (hsome z hz)⟩
  | @optNone p cs e hbody ih =>
    obtain ⟨hnone, -⟩ := ih hp hcs hyb hclean hlen hy hkeep
    refine ⟨nofun, fun z hz => ?_⟩
    have hz : z = y := List.append_cancel_right ((Option.some.inj hz).symm.trans hyb)
    rw [hz, hkeep]
    exact .opt_none (hnone rfl)
  | @many p cs ds es e e' hfirst hrest ihp ihm =>
    obtain ⟨-, hp'⟩ := Bool.and_eq_true_iff.1 hp
    obtain ⟨hlen₁, hlen₂⟩ := lt_of_lt_further hlen
    have hlong : b.length < ds.length :=
      Nat.lt_of_lt_of_le hlen₂ (hrest.leads hp).1.suffix.length_le
    obtain ⟨z, rfl, hz, hclean', hds, hkeep'⟩ := hfirst.exists_cut hp' hcs hyb hclean hlong r
    have haccepts := (ihp hp' hcs hyb hclean hlen₁ hy hkeep).2 z rfl
    rw [hkeep'] at haccepts
    obtain ⟨-, hsome⟩ := ihm hp hds rfl hclean' hlen₂ hz hkeep'
    exact ⟨nofun, fun z hz => .many haccepts (hsome z hz)⟩
  | @manyNone p cs e hbody ih =>
    obtain ⟨hnone, -⟩ := ih (Bool.and_eq_true_iff.1 hp).2 hcs hyb hclean hlen hy hkeep
    refine ⟨nofun, fun z hz => ?_⟩
    have hz : z = y := List.append_cancel_right ((Option.some.inj hz).symm.trans hyb)
    rw [hz, hkeep]
    exact .many_none (hnone rfl)

end Phrase

/-- The simplest text of some rules. -/
def Rule.sample? : Rule → Option (List Char)
  | .endOfInput => some []
  | .statement => some ['{', '}']
  | .expression | .primary => some ['0']
  | .assignOp => some ['=']
  | _ => none

namespace Phrase

/-- The simplest text of some phrases: everything that may be left out is left out. -/
def sample? : Phrase → Option (List Char)
  | .word w => some w.sample
  | .notAhead _ | .many _ | .opt _ => some []
  | .call r => r.sample?
  | .seq p q =>
    match p.sample?, q.sample? with
    | some a, some b => some (a ++ '\n' :: b)
    | _, _ => none
  | .start | .more _ | .alt _ _ => none

/-- Whether every phrase that comes behind another one has a simplest text. -/
def isSampled : Phrase → Bool
  | .seq p q => p.isSampled && q.isSampled && q.sample?.isSome
  | .alt p q => p.isSampled && q.isSampled
  | .many p | .more p | .opt p => p.isSampled
  | _ => true

/-- Rules stand for such phrases. -/
theorem isSampled_body (r : Rule) : r.definition.body.isSampled = true := by
  cases r <;> decide

end Phrase

/-- What may follow an expression. -/
def EndsExpression : List Char → Prop
  | [] => False
  | c :: _ => c = ')' ∨ c = ';'

/-- The texts that are clear of what a rule stands for. An expression is only followed by `)` or
`;`, a statement is not followed by `else`, and nothing follows the end of the input. -/
def Rule.Clear (r : Rule) (tail : List Char) : Prop :=
  IsLoose tail ∧
    match r with
    | .endOfInput => bare tail = []
    | .expression | .assignment | .printExpression | .operation => EndsExpression (bare tail)
    | .statement | .scope | .ifStatement | .whileStatement | .expressionStatement =>
      scanKeyword .elseWord (bare tail) = none
    | .assignOp => dropText? ['='] (bare tail) = none
    | _ => True

namespace Phrase

/-- The texts that are clear of a phrase: they do not run together with it, and are not taken for
more of it. -/
def Clear : Phrase → List Char → Prop
  | .word w, tail => IsLoose tail ∧ (w = .finish → bare tail = [])
  | .notAhead t, tail => dropText? t (bare tail) = none
  | .call r, tail => r.Clear tail
  | .seq p q, tail => q.Clear tail ∧ ∀ s ∈ q.sample?, p.Clear ('\n' :: (s ++ tail))
  | .alt p q, tail => p.Clear tail ∧ q.Clear tail
  | .many p, tail | .opt p, tail => p.Clear tail ∧ p.Rejects (bare tail)
  | .more _, _ | .start, _ => True

end Phrase

/-- A line end keeps words apart. -/
theorem IsLoose.newline (cs : List Char) : IsLoose ('\n' :: cs) := by
  intro c hc
  cases hc
  rfl

/-- The words with which a statement can begin. -/
def statementStarts : List Word :=
  [.exact ['{'], .keyword .ifWord, .keyword .whileWord, .identifier, .keyword .printWord,
    .exact ['-'], .exact ['!'], .integer, .exact ['?'], .exact ['(']]

namespace Phrase

variable {cs tail : List Char}

/-- No statement begins where none of these words does. -/
theorem rejects_statement (h : ∀ w ∈ statementStarts, w.scan cs = none) :
    Rejects (.call .statement) cs := by
  simp only [statementStarts, List.forall_mem_cons] at h
  obtain ⟨hbrace, hif, hwhile, hid, hprint, hneg, hnot, hint, hinput, hparen, -⟩ := h
  have hassign : Rejects (.call .assignment) cs := .call (.seq (.call (.word hid)))
  have hprint' : Rejects (.call .printExpression) cs := .call (.seq (.call (.word hprint)))
  have hbefore : Rejects (.call .prefixOp) cs :=
    .call (.alt (.call (.word hneg)) (.call (.word hnot)))
  have hprimary : Rejects (.call .primary) cs :=
    .call (.alt (.call (.word hint)) (.alt (.call (.word hinput))
      (.alt (.call (.word hid)) (.seq (.word hparen)))))
  have hoperand : Rejects operand cs := .seq_second (.many_none hbefore) (.seq hprimary)
  have hexpr : Rejects (.call .expression) cs :=
    .call (.alt hassign (.alt hprint' (.call (.seq hoperand))))
  exact .call (.alt (.call (.seq (.word hbrace))) (.alt (.call (.seq (.call (.word hif))))
    (.alt (.call (.seq (.call (.word hwhile)))) (.call (.seq hexpr)))))

/-- No statement begins at the end of a text. -/
theorem rejects_statement_nil : Rejects (.call .statement) [] := by
  refine rejects_statement ?_
  simp only [statementStarts, List.forall_mem_cons]
  exact ⟨rfl, rfl, rfl, rfl, rfl, rfl, rfl, rfl, rfl, rfl, nofun⟩

/-- No statement begins at the end of a block. -/
theorem rejects_statement_brace (cs : List Char) : Rejects (.call .statement) ('}' :: cs) := by
  refine rejects_statement ?_
  simp only [statementStarts, List.forall_mem_cons]
  exact ⟨rfl, rfl, rfl, rfl, rfl, rfl, rfl, rfl, rfl, rfl, nofun⟩

/-- No operator comes at the end of an expression. -/
theorem rejects_operator (h : EndsExpression cs) :
    Rejects (.call .postfixOp) cs ∧ Rejects (.call .infixOp) cs := by
  obtain ⟨ds, rfl | rfl⟩ : ∃ ds, cs = ')' :: ds ∨ cs = ';' :: ds := by
    cases cs with
    | nil => exact h.elim
    | cons c ds => exact ⟨ds, h.imp (fun hc => by rw [hc]) fun hc => by rw [hc]⟩
  · refine ⟨.call (.alt (.call (.word rfl)) (.call (.word rfl))), .call (.oneOf ?_)⟩
    simp only [List.forall_mem_cons]
    refine ⟨?_, ?_, ?_, ?_, ?_, ?_, ?_, ?_, ?_, ?_, ?_, ?_, ?_, nofun⟩ <;> exact .call (.word rfl)
  · refine ⟨.call (.alt (.call (.word rfl)) (.call (.word rfl))), .call (.oneOf ?_)⟩
    simp only [List.forall_mem_cons]
    refine ⟨?_, ?_, ?_, ?_, ?_, ?_, ?_, ?_, ?_, ?_, ?_, ?_, ?_, nofun⟩ <;> exact .call (.word rfl)

/-- What is clear of the second phrase is clear of both if the second one, in its simplest form, is
clear of the first one. -/
theorem Clear.seq {p q : Phrase} {s : List Char} (hs : q.sample? = some s) (hq : q.Clear tail)
    (hp : p.Clear ('\n' :: (s ++ tail))) : (Phrase.seq p q).Clear tail := by
  refine ⟨hq, fun s' hs' => ?_⟩
  cases hs.symm.trans hs'
  exact hp

/-- What is clear of several rules is clear of a choice between them. -/
theorem Clear.oneOf {r : Rule} {rs : List Rule} (h : ∀ q ∈ r :: rs, q.Clear tail) :
    (Phrase.oneOf r rs).Clear tail := by
  induction rs generalizing r with
  | nil => exact h r List.mem_cons_self
  | cons q rs ih => exact ⟨h r List.mem_cons_self, ih fun s hs => h s (List.mem_cons_of_mem _ hs)⟩

/-- A line end is clear of marks. -/
theorem clear_mark (c : Char) (cs : List Char) : (mark c).Clear ('\n' :: cs) :=
  ⟨.newline cs, nofun⟩

/-- What ends an expression is clear of its last operand. -/
theorem clear_operand (hloose : IsLoose tail) (hend : EndsExpression (bare tail)) :
    operand.Clear tail := by
  have hbehind : (many (call .postfixOp)).Clear tail :=
    ⟨⟨hloose, trivial⟩, (rejects_operator hend).1⟩
  have hbefore : (many (call .prefixOp)).Clear ('\n' :: ('0' :: '\n' :: tail)) :=
    ⟨⟨.newline _, trivial⟩, .call (.alt (.call (.word rfl)) (.call (.word rfl)))⟩
  exact .seq rfl (.seq rfl hbehind ⟨.newline _, trivial⟩) hbefore

/-- What is clear of a rule is clear of what the rule stands for. -/
theorem clear_body {r : Rule} (hr : (call r).isRegular = true) (h : r.Clear tail) :
    r.definition.body.Clear tail := by
  obtain ⟨hloose, h⟩ := h
  cases r with
  | endOfInput => exact ⟨hloose, fun _ => h⟩
  | program => cases hr
  | whitespace => cases hr
  | comment => cases hr
  | keyword => cases hr
  | identifierChar => cases hr
  | statement => exact ⟨⟨hloose, h⟩, ⟨hloose, h⟩, ⟨hloose, h⟩, ⟨hloose, h⟩⟩
  | scope =>
    have hstatements : (many (call .statement)).Clear ('\n' :: (['}'] ++ tail)) :=
      ⟨⟨.newline _, rfl⟩, rejects_statement_brace tail⟩
    exact .seq rfl (.seq rfl ⟨hloose, nofun⟩ hstatements) (clear_mark _ _)
  | ifStatement =>
    have hnoElse : scanKeyword .elseWord (bare ('\n' :: tail)) = none := by
      rw [bare_newline]
      exact h
    have hothers : (opt (.seq (call .elseWord) (call .statement))).Clear tail :=
      ⟨.seq rfl ⟨hloose, h⟩ ⟨.newline _, trivial⟩, .seq (.call (.word h))⟩
    have hbody : (inOrder (call .statement)
        [opt (.seq (call .elseWord) (call .statement))]).Clear tail :=
      .seq rfl hothers ⟨.newline _, hnoElse⟩
    exact .seq rfl (.seq rfl (.seq rfl (.seq rfl hbody (clear_mark _ _))
      ⟨.newline _, .inl rfl⟩) (clear_mark _ _)) ⟨.newline _, trivial⟩
  | whileStatement =>
    exact .seq rfl (.seq rfl (.seq rfl (.seq rfl ⟨hloose, h⟩ (clear_mark _ _))
      ⟨.newline _, .inl rfl⟩) (clear_mark _ _)) ⟨.newline _, trivial⟩
  | expressionStatement => exact .seq rfl ⟨hloose, nofun⟩ ⟨.newline _, .inr rfl⟩
  | expression => exact ⟨⟨hloose, h⟩, ⟨hloose, h⟩, ⟨hloose, h⟩⟩
  | assignment => exact .seq rfl (.seq rfl ⟨hloose, h⟩ ⟨.newline _, rfl⟩) ⟨.newline _, trivial⟩
  | assignOp => exact .seq rfl h (clear_mark _ _)
  | printExpression => exact .seq rfl ⟨hloose, h⟩ ⟨.newline _, trivial⟩
  | operation =>
    have hend : EndsExpression (bare ('\n' :: tail)) := by
      rw [bare_newline]
      exact h
    have hmore : (many (.seq (call .infixOp) operand)).Clear tail :=
      ⟨.seq rfl (clear_operand hloose h) ⟨.newline _, trivial⟩, .seq (rejects_operator h).2⟩
    exact .seq rfl hmore (clear_operand (.newline _) hend)
  | infixOp =>
    refine .oneOf ?_
    simp only [List.forall_mem_cons]
    refine ⟨?_, ?_, ?_, ?_, ?_, ?_, ?_, ?_, ?_, ?_, ?_, ?_, ?_, nofun⟩ <;> exact ⟨hloose, trivial⟩
  | prefixOp => exact ⟨⟨hloose, trivial⟩, ⟨hloose, trivial⟩⟩
  | postfixOp => exact ⟨⟨hloose, trivial⟩, ⟨hloose, trivial⟩⟩
  | primary =>
    refine ⟨⟨hloose, trivial⟩, ⟨hloose, trivial⟩, ⟨hloose, trivial⟩, ?_⟩
    exact .seq rfl (.seq rfl ⟨hloose, nofun⟩ ⟨.newline _, .inl rfl⟩) (clear_mark _ _)
  | _ => exact ⟨hloose, nofun⟩

/-- The simplest text of a rule fits the rule. -/
theorem accepts_rule_sample {r : Rule} {s : List Char} (hs : r.sample? = some s)
    (h : r.Clear tail) : Accepts (.call r) (bare (s ++ tail)) (bare tail) := by
  obtain ⟨hloose, h⟩ := h
  have hzero : Word.integer.scan ('0' :: tail) = some (['0'], tail) :=
    Word.fits_sample (w := .integer) rfl nofun tail hloose
  have hprimary : Accepts (.call .primary) ('0' :: tail) (bare tail) :=
    .call (.alt_first (.call (.word hzero)))
  cases r with
  | endOfInput =>
    cases hs
    rw [List.nil_append, h]
    exact .call .finish
  | statement =>
    cases hs
    exact .call (.alt_first (.call (.seq (.word rfl)
      (.seq (.many_none (rejects_statement_brace tail)) (.word rfl)))))
  | expression =>
    cases hs
    obtain ⟨hbehind, hbetween⟩ := rejects_operator h
    have hassign : Rejects (.call .assignment) ('0' :: tail) := .call (.seq (.call (.word rfl)))
    have hprint : Rejects (.call .printExpression) ('0' :: tail) := .call (.seq (.call (.word rfl)))
    have hbefore : Rejects (.call .prefixOp) ('0' :: tail) :=
      .call (.alt (.call (.word rfl)) (.call (.word rfl)))
    have hoperand : Accepts operand ('0' :: tail) (bare tail) :=
      .seq (.many_none hbefore) (.seq hprimary (.many_none hbehind))
    exact .call (.alt_second hassign (.alt_second hprint
      (.call (.seq hoperand (.many_none (.seq hbetween))))))
  | primary =>
    cases hs
    exact hprimary
  | assignOp =>
    cases hs
    exact .call (.seq (.word rfl) ⟨_, .notAhead h⟩)
  | _ => cases hs

/-- The simplest text of a phrase fits the phrase. -/
theorem accepts_sample {p : Phrase} (hp : p.isRegular = true) {s : List Char}
    (hs : p.sample? = some s) (h : p.Clear tail) : Accepts p (bare (s ++ tail)) (bare tail) := by
  induction p generalizing s tail with
  | word w =>
    cases hs
    by_cases hfin : w = .finish
    · subst hfin
      have hnil : bare tail = [] := h.2 rfl
      have hsample : bare (Word.finish.sample ++ tail) = [] := hnil
      rw [hsample, hnil]
      exact .finish
    · rw [bare_token (Word.isToken_sample hp hfin) h.1]
      exact .word (Word.fits_sample hp hfin tail h.1)
  | notAhead t =>
    cases hs
    exact ⟨_, .notAhead h⟩
  | call r => exact accepts_rule_sample hs h
  | seq p q ihp ihq =>
    obtain ⟨hp', hq⟩ := isRegular_parts hp
    rw [sample?] at hs
    split at hs
    · next a b ha hb =>
      cases hs
      have hfirst := ihp hp' ha (h.2 b hb)
      rw [bare_newline] at hfirst
      rw [List.append_assoc, List.cons_append]
      exact .seq hfirst (ihq hq hb h.1)
    · cases hs
  | many p ih =>
    cases hs
    exact .many_none h.2
  | opt p ih =>
    cases hs
    exact .opt_none h.2
  | _ => cases hs

/-- A phrase of which some text has been read can be completed: behind that text it goes on with a
line end and some other text, whatever follows, as long as that is clear of the phrase. -/
def Completable (p : Phrase) (x : List Char) : Prop :=
  ∃ w, ∀ tail, p.Clear tail → Accepts p (bare (x ++ '\n' :: (w ++ tail))) (bare tail)

namespace Completable

variable {p q : Phrase} {x : List Char}

/-- A phrase with a simplest text is completed by that before anything of it has been read. -/
theorem of_sample (hp : p.isRegular = true) {s : List Char} (hs : p.sample? = some s) :
    Completable p [] := by
  refine ⟨s, fun tail h => ?_⟩
  rw [List.nil_append, bare_newline]
  exact accepts_sample hp hs h

/-- What a rule stands for is completed. -/
theorem call {r : Rule} (hr : (Phrase.call r).isRegular = true)
    (h : Completable r.definition.body x) : Completable (.call r) x := by
  obtain ⟨w, hw⟩ := h
  exact ⟨w, fun tail htail => .call (hw tail (clear_body hr htail))⟩

/-- The first one of two phrases is completed, and the second one is written in the simplest way. -/
theorem seq (h : Completable p x) (hq : q.isRegular = true) {s : List Char}
    (hs : q.sample? = some s) : Completable (.seq p q) x := by
  obtain ⟨w, hw⟩ := h
  refine ⟨w ++ '\n' :: s, fun tail htail => ?_⟩
  have hfirst := hw ('\n' :: (s ++ tail)) (htail.2 s hs)
  rw [bare_newline] at hfirst
  rw [List.append_assoc, List.cons_append]
  exact .seq hfirst (accepts_sample hq hs htail.1)

/-- The first one of two alternatives is completed. -/
theorem alt (h : Completable p x) : Completable (.alt p q) x := by
  obtain ⟨w, hw⟩ := h
  exact ⟨w, fun tail htail => .alt_first (hw tail htail.1)⟩

/-- An optional phrase is completed. -/
theorem opt (h : Completable p x) : Completable (.opt p) x := by
  obtain ⟨w, hw⟩ := h
  exact ⟨w, fun tail htail => .opt (hw tail htail.1)⟩

/-- One repetition is completed and no other one follows. -/
theorem many (h : Completable p x) : Completable (.many p) x := by
  obtain ⟨w, hw⟩ := h
  exact ⟨w, fun tail htail => .many (hw tail htail.1) (.many_none htail.2)⟩

end Completable

/-- The text before a cut is not empty if something has looked for a word before the cut. -/
theorem Tries.bare_newline_eq {p : Phrase} {o : Option (List Char)} {e b x : List Char}
    (h : Tries p cs o e) (hp : p.isRegular = true) (hcs : bare cs = cs) (hlen : b.length < e.length)
    (hx : cs = x ++ b) (r : List Char) : bare (x ++ '\n' :: r) = x ++ '\n' :: r := by
  refine bare_cut_eq ?_ (hx ▸ hcs) r
  have hle := (h.leads hp).1.suffix.length_le
  rintro rfl
  rw [hx, List.nil_append] at hle
  omega

/-- A phrase that was read is read again if the text goes on differently at a place behind it to
which the reading had not looked. -/
theorem Tries.again {p : Phrase} {ds e b x : List Char} (h : Tries p cs (some ds) e)
    (hp : p.isRegular = true) (hcs : bare cs = cs) (hlead : Leads ds b)
    (hlen : b.length < e.length) (hx : cs = x ++ b) :
    ∃ z, ds = z ++ b ∧ ∀ r, Accepts p (bare (x ++ '\n' :: r)) (bare (z ++ '\n' :: r)) := by
  have hclean : Clean x b := by
    have hcut := ((h.leads hp).2 ds rfl).trans hlead
    rw [hx] at hcut
    exact hcut.clean
  obtain ⟨z, rfl, -⟩ := hlead
  refine ⟨z, rfl, fun r => ?_⟩
  rw [h.bare_newline_eq hp hcs hlen hx r]
  exact (h.cut hp hcs hx hclean hlen r).2 z rfl

/-- A phrase that did not fit does not fit either if the text goes on differently at a place to
which the reading had not looked. -/
theorem Tries.refusedAgain {p : Phrase} {e b x : List Char} (h : Tries p cs none e)
    (hp : p.isRegular = true) (hcs : bare cs = cs) (hlead : Leads cs b)
    (hlen : b.length < e.length) (hx : cs = x ++ b) (r : List Char) :
    Rejects p (bare (x ++ '\n' :: r)) := by
  have hclean : Clean x b := by
    rw [hx] at hlead
    exact hlead.clean
  rw [h.bare_newline_eq hp hcs hlen hx r]
  exact (h.cut hp hcs hx hclean hlen r).1 rfl

/-- Wherever a reading has come to, the phrase can be completed there. -/
theorem Tries.completable {p : Phrase} {e : List Char} {o : Option (List Char)}
    (h : Tries p cs o e) (hp : p.isRegular = true) (hs : p.isSampled = true) (hcs : bare cs = cs)
    {x : List Char} (hx : cs = x ++ e) : Completable p x := by
  induction h generalizing x with
  | word _ =>
    rw [List.self_eq_append_left.1 hx]
    exact .of_sample hp rfl
  | noWord _ =>
    rw [List.self_eq_append_left.1 hx]
    exact .of_sample hp rfl
  | notAhead _ =>
    rw [List.self_eq_append_left.1 hx]
    exact .of_sample hp rfl
  | ahead _ =>
    rw [List.self_eq_append_left.1 hx]
    exact .of_sample hp rfl
  | @call r cs e o _ ih => exact .call hp (ih (isRegular_body rfl hp) (isSampled_body r) hcs hx)
  | @seq p q cs ds e e' o hfirst hsecond ihp ihq =>
    obtain ⟨hp', hq⟩ := isRegular_parts hp
    simp only [isSampled, Bool.and_eq_true] at hs
    obtain ⟨⟨hsp, hsq⟩, hsome⟩ := hs
    rcases further_cases e e' with ⟨hlt, heq⟩ | ⟨hle, heq⟩
    · -- the second phrase has come further: the first one stays, the second one is completed
      rw [heq] at hx
      obtain ⟨z, hz, hagain⟩ := hfirst.again hp' hcs (hsecond.leads hq).1 hlt hx
      obtain ⟨w, hw⟩ := ihq hq hsq (hfirst.bare_eq hcs ds rfl) hz
      exact ⟨w, fun tail htail => .seq (hagain _) (hw tail htail.1)⟩
    · rw [heq] at hx
      obtain ⟨s, hsample⟩ := Option.isSome_iff_exists.1 hsome
      exact (ihp hp' hsp hcs hx).seq hq hsample
  | @seqFirst p q cs e hfirst ih =>
    obtain ⟨hp', hq⟩ := isRegular_parts hp
    simp only [isSampled, Bool.and_eq_true] at hs
    obtain ⟨s, hsample⟩ := Option.isSome_iff_exists.1 hs.2
    exact (ih hp' hs.1.1 hcs hx).seq hq hsample
  | @altFirst p q cs ds e hfirst ih =>
    exact .alt (ih (isRegular_parts hp).1 (Bool.and_eq_true_iff.1 hs).1 hcs hx)
  | @altSecond p q cs e e' o hfirst hsecond ihp ihq =>
    obtain ⟨hp', hq⟩ := isRegular_parts hp
    obtain ⟨hsp, hsq⟩ := Bool.and_eq_true_iff.1 hs
    rcases further_cases e e' with ⟨hlt, heq⟩ | ⟨hle, heq⟩
    · -- the second alternative has come further: the first one is refused as before
      rw [heq] at hx
      obtain ⟨w, hw⟩ := ihq hq hsq hcs hx
      refine ⟨w, fun tail htail => .alt_second ?_ (hw tail htail.2)⟩
      exact hfirst.refusedAgain hp' hcs (hsecond.leads hq).1 hlt hx _
    · rw [heq] at hx
      exact .alt (ihp hp' hsp hcs hx)
  | @opt p cs ds e hbody ih => exact .opt (ih hp hs hcs hx)
  | @optNone p cs e hbody ih => exact .opt (ih hp hs hcs hx)
  | @many p cs ds es e e' hfirst hrest ihp ihm =>
    obtain ⟨-, hp'⟩ := Bool.and_eq_true_iff.1 hp
    rcases further_cases e e' with ⟨hlt, heq⟩ | ⟨hle, heq⟩
    · rw [heq] at hx
      obtain ⟨z, hz, hagain⟩ := hfirst.again hp' hcs (hrest.leads hp).1 hlt hx
      obtain ⟨w, hw⟩ := ihm hp hs (hfirst.bare_eq hcs ds rfl) hz
      exact ⟨w, fun tail htail => .many (hagain _) (hw tail htail)⟩
    · rw [heq] at hx
      exact .many (ihp hp' hs hcs hx)
  | @manyNone p cs e hbody ih => exact .many (ih (Bool.and_eq_true_iff.1 hp).2 hs hcs hx)

end Phrase

end IntScript.Grammar
