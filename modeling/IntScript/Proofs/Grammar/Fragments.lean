import IntScript.Parse.Build
import IntScript.Proofs.Grammar.Derivation
import IntScript.Proofs.Grammar.Words

/-!
# What the rules leave

A property of the fragments that rules leave holds of every reading if each rule passes it on from
its parts. This is applied to the form of the fragments: an expression leaves a single fragment
whose parts are again of the expected rules, an operation is a row of operands with operators
before, behind and between them, and so on up to the program.
-/

namespace IntScript.Grammar

/-- Repetitions of something, with space before each. -/
inductive Repeated (R : Cursor → Cursor → List Fragment → Prop) :
    Cursor → Cursor → List Fragment → Prop
  | nil {c : Cursor} : Repeated R c c []
  | cons {c d e : Cursor} {fs gs : List Fragment} (h : R c.skip d fs) (hs : Repeated R d e gs) :
      Repeated R c e (fs ++ gs)

/-- What a phrase leaves between two places if every rule leaves what `P` says. -/
def Phrase.Leaves (P : Rule → Cursor → Cursor → List Fragment → Prop) :
    Phrase → Cursor → Cursor → List Fragment → Prop
  | .start, c, d, fs => d = c ∧ fs = []
  | .word w, c, d, fs => ∃ t rest, w.scan c.rest = some (t, rest) ∧ d = c.past t rest ∧ fs = []
  | .notAhead _, c, d, fs => d = c ∧ fs = []
  | .call r, c, d, fs => P r c d fs
  | .seq p q, c, e, fs =>
    ∃ d gs hs, p.Leaves P c d gs ∧ q.Leaves P d.skip e hs ∧ fs = gs ++ hs
  | .alt p q, c, d, fs => p.Leaves P c d fs ∨ q.Leaves P c d fs
  | .many p, c, e, fs =>
    (e = c ∧ fs = []) ∨
      ∃ d gs hs, p.Leaves P c d gs ∧ Repeated (p.Leaves P) d e hs ∧ fs = gs ++ hs
  | .more p, c, e, fs => Repeated (p.Leaves P) c e fs
  | .opt p, c, d, fs => (d = c ∧ fs = []) ∨ p.Leaves P c d fs

/-- What each rule passes on from its parts holds of every reading. -/
theorem Phrase.leaves_of_reads {P : Rule → Cursor → Cursor → List Fragment → Prop}
    (hword : ∀ r w c t rest, r.definition = .word w → w.scan c.rest = some (t, rest) →
      P r c (c.past t rest) [.word r c.pos t])
    (hsilent : ∀ r p c d fs, r.definition = .silent p → p.Leaves P c d fs → P r c d fs)
    (hphrase : ∀ r p c d fs, r.definition = .phrase p → p.Leaves P c d fs →
      P r c d [.phrase r c.pos d.pos fs])
    {p : Phrase} {c d : Cursor} {fs : List Fragment} (h : p.Reads c (some (d, fs))) :
    p.Leaves P c d fs := by
  generalize ho : some (d, fs) = o at h
  induction h generalizing d fs with
  | start _ => cases ho; exact ⟨rfl, rfl⟩
  | word h => cases ho; exact ⟨_, _, h, rfl, rfl⟩
  | notAhead _ => cases ho; exact ⟨rfl, rfl⟩
  | callWord hr h => cases ho; exact hword _ _ _ _ _ hr h
  | callSilent hr _ ih => exact hsilent _ _ _ _ _ hr (ih ho)
  | callPhrase hr _ ih => cases ho; exact hphrase _ _ _ _ _ hr (ih rfl)
  | seq _ _ ihp ihq => cases ho; exact ⟨_, _, _, ihp rfl, ihq rfl, rfl⟩
  | altFirst _ ihp => exact .inl (ihp ho)
  | altSecond _ _ _ ihq => exact .inr (ihq ho)
  | opt _ ihp => exact .inr (ihp ho)
  | optNone _ _ => cases ho; exact .inl ⟨rfl, rfl⟩
  | many _ _ _ ihp ihm => cases ho; exact .inr ⟨_, _, _, ihp rfl, ihm rfl, rfl⟩
  | manyOnce _ _ ihp => exact .inr ⟨_, _, _, ihp ho, .nil, (List.append_nil _).symm⟩
  | manyNone _ _ => cases ho; exact .inl ⟨rfl, rfl⟩
  | more _ _ _ ihp ihm => cases ho; exact .cons (ihp rfl) (ihm rfl)
  | moreOnce _ _ ihp =>
    have hr := Repeated.cons (ihp ho) .nil
    rwa [List.append_nil] at hr
  | moreNone _ _ => cases ho; exact .nil
  | startElsewhere | noWord | ahead | callNoWord | callNoPhrase | seqFirst | seqSecond => cases ho

/-- Repetitions that leave one fragment each leave fragments of that kind. -/
theorem Repeated.forall {R : Cursor → Cursor → List Fragment → Prop} {Q : Fragment → Prop}
    (hR : ∀ c d fs, R c d fs → ∃ f, fs = [f] ∧ Q f) {c d : Cursor} {fs : List Fragment}
    (h : Repeated R c d fs) : ∀ f ∈ fs, Q f := by
  induction h with
  | nil =>
    intro f hf
    cases hf
  | cons h _ ih =>
    obtain ⟨g, rfl, hg⟩ := hR _ _ _ h
    intro f hf
    rcases List.mem_cons.1 hf with rfl | hf
    · exact hg
    · exact ih f hf

/-- Whether a rule is that of an operator. -/
def Rule.isOperator (r : Rule) : Bool :=
  (Build.operatorBefore? r).isSome || (Build.operatorBehind? r).isSome ||
    (Build.operatorBetween? r).isSome

/-- One operand with the operators before and behind it. -/
def IsOperandRow (fs : List Fragment) : Prop :=
  ∃ before operand behind, fs = before ++ operand :: behind ∧
    (∀ f ∈ before, (Build.operatorBefore? f.rule).isSome = true) ∧
    operand.rule.isOperator = false ∧
    ∀ f ∈ behind, (Build.operatorBehind? f.rule).isSome = true

/-- Operands, each with the operators before and behind it, and operators between them. -/
inductive IsRow : List Fragment → Prop
  | operand {fs : List Fragment} (h : IsOperandRow fs) : IsRow fs
  | between {fs gs : List Fragment} {f : Fragment} (h : IsOperandRow fs)
      (hf : (Build.operatorBetween? f.rule).isSome = true) (hs : IsRow gs) :
      IsRow (fs ++ f :: gs)

/-- The fragments of expressions and of the operands in them. -/
inductive Fragment.IsExpression : Fragment → Prop
  | integer {pos : Nat} {text : List Char} (hn : text ≠ [])
      (hd : text.all Char.isDigit = true) : IsExpression (.word .integer pos text)
  | input {pos : Nat} {text : List Char} : IsExpression (.word .input pos text)
  | identifier {pos : Nat} {name : List Char} (h : isIdentifier name = true) :
      IsExpression (.word .identifier pos name)
  | assignment {start stop pos : Nat} {name : List Char} {f : Fragment}
      (h : isIdentifier name = true) (hf : IsExpression f) :
      IsExpression (.phrase .assignment start stop [.word .identifier pos name, f])
  | print {start stop pos : Nat} {text : List Char} {f : Fragment} (hf : IsExpression f) :
      IsExpression (.phrase .printExpression start stop [.word .printWord pos text, f])
  | operation {start stop : Nat} {fs : List Fragment} (hr : IsRow fs)
      (hf : ∀ f ∈ fs, f.rule.isOperator = false → IsExpression f) :
      IsExpression (.phrase .operation start stop fs)

/-- The fragments of statements. -/
inductive Fragment.IsStatement : Fragment → Prop
  | scope {start stop : Nat} {fs : List Fragment} (hf : ∀ f ∈ fs, IsStatement f) :
      IsStatement (.phrase .scope start stop fs)
  | ifThen {start stop pos : Nat} {text : List Char} {c t : Fragment} (hc : c.IsExpression)
      (ht : IsStatement t) :
      IsStatement (.phrase .ifStatement start stop [.word .ifWord pos text, c, t])
  | ifElse {start stop pos pos' : Nat} {text text' : List Char} {c t e : Fragment}
      (hc : c.IsExpression) (ht : IsStatement t) (he : IsStatement e) :
      IsStatement (.phrase .ifStatement start stop
        [.word .ifWord pos text, c, t, .word .elseWord pos' text', e])
  | whileLoop {start stop pos : Nat} {text : List Char} {c b : Fragment} (hc : c.IsExpression)
      (hb : IsStatement b) :
      IsStatement (.phrase .whileStatement start stop [.word .whileWord pos text, c, b])
  | expression {start stop : Nat} {f : Fragment} (hf : f.IsExpression) :
      IsStatement (.phrase .expressionStatement start stop [f])

/-- The form of what a rule leaves. -/
def Rule.Form (r : Rule) (fs : List Fragment) : Prop :=
  match r with
  | .expression | .assignment | .printExpression | .operation | .primary | .integer | .input =>
    ∃ f, fs = [f] ∧ f.IsExpression
  | .identifier => ∃ pos name, fs = [.word .identifier pos name] ∧ isIdentifier name = true
  | .statement | .scope | .ifStatement | .whileStatement | .expressionStatement =>
    ∃ f, fs = [f] ∧ f.IsStatement
  | .program =>
    ∃ start stop inner pos text,
      fs = [.phrase .program start stop (inner ++ [.word .endOfInput pos text])] ∧
        ∀ f ∈ inner, f.IsStatement
  | .prefixOp => ∃ f, fs = [f] ∧ (Build.operatorBefore? f.rule).isSome = true
  | .postfixOp => ∃ f, fs = [f] ∧ (Build.operatorBehind? f.rule).isSome = true
  | .infixOp => ∃ f, fs = [f] ∧ (Build.operatorBetween? f.rule).isSome = true
  | .assignOp | .whitespace | .comment | .identifierChar => fs = []
  | r => ∃ pos text, fs = [.word r pos text]

/-- No rule of an operand is that of an operator. -/
theorem Fragment.IsExpression.not_isOperator {f : Fragment} (h : f.IsExpression) :
    f.rule.isOperator = false := by
  cases h <;> rfl

/-- Any number of fragments of a kind, as a repetition of a rule leaves them. -/
theorem forall_of_leaves_many {r : Rule} {Q : Fragment → Prop}
    (hr : ∀ fs, r.Form fs → ∃ f, fs = [f] ∧ Q f) {c d : Cursor} {fs : List Fragment}
    (h : (Phrase.many (.call r)).Leaves (fun r _ _ fs => r.Form fs) c d fs) : ∀ f ∈ fs, Q f := by
  rcases h with ⟨-, rfl⟩ | ⟨m, gs, hs, hg, hrep, rfl⟩
  · intro f hf
    cases hf
  · obtain ⟨g, rfl, hq⟩ := hr gs hg
    intro f hf
    rcases List.mem_cons.1 hf with rfl | hf
    · exact hq
    · exact hrep.forall (fun _ _ fs h => hr fs h) f hf

/-- An operand with its operators leaves an operand row, whose operand is an expression. -/
theorem form_operand {c d : Cursor} {fs : List Fragment}
    (h : Phrase.operand.Leaves (fun r _ _ fs => r.Form fs) c d fs) :
    IsOperandRow fs ∧ ∀ f ∈ fs, f.rule.isOperator = false → f.IsExpression := by
  obtain ⟨_, before, _, hbefore, ⟨_, gs, behind, ⟨f, rfl, hf⟩, hbehind, rfl⟩, rfl⟩ := h
  have hb : ∀ f ∈ before, (Build.operatorBefore? f.rule).isSome = true :=
    forall_of_leaves_many (r := .prefixOp) (fun _ h => h) hbefore
  have ha : ∀ f ∈ behind, (Build.operatorBehind? f.rule).isSome = true :=
    forall_of_leaves_many (r := .postfixOp) (fun _ h => h) hbehind
  refine ⟨⟨before, f, behind, rfl, hb, hf.not_isOperator, ha⟩, ?_⟩
  intro g hg hop
  simp only [Rule.isOperator, Bool.or_eq_false_iff] at hop
  rcases List.mem_append.1 hg with hg | hg
  · rw [hb g hg] at hop
    simp at hop
  · rcases List.mem_cons.1 hg with rfl | hg
    · exact hf
    · rw [ha g hg] at hop
      simp at hop

/-- Further operands, each with an operator before it, make up a row with the one that comes
first. -/
theorem form_operands {c d : Cursor} {fs gs : List Fragment} (hfs : IsOperandRow fs)
    (h : Repeated ((Phrase.seq (.call .infixOp) .operand).Leaves fun r _ _ fs => r.Form fs)
      c d gs) :
    IsRow (fs ++ gs) ∧ ∀ f ∈ gs, f.rule.isOperator = false → f.IsExpression := by
  induction h generalizing fs with
  | nil =>
    rw [List.append_nil]
    refine ⟨.operand hfs, ?_⟩
    intro f hf
    cases hf
  | cons h _ ih =>
    obtain ⟨_, _, hs, ⟨f, rfl, hf⟩, hoperand, rfl⟩ := h
    obtain ⟨hrow, hexp⟩ := form_operand hoperand
    obtain ⟨hrest, hall⟩ := ih hrow
    refine ⟨?_, ?_⟩
    · exact .between hfs hf hrest
    · intro g hg hop
      rcases List.mem_append.1 hg with hg | hg
      · rcases List.mem_cons.1 hg with rfl | hg
        · simp [Rule.isOperator, hf] at hop
        · exact hexp g hg hop
      · exact hall g hg hop

/-- An operation is a row of operands. -/
theorem form_operation {c d : Cursor} {fs : List Fragment} {start stop : Nat}
    (h : (Phrase.seq .operand (.many (.seq (.call .infixOp) .operand))).Leaves
      (fun r _ _ fs => r.Form fs) c d fs) :
    (Fragment.phrase .operation start stop fs).IsExpression := by
  obtain ⟨m, gs, hs, hoperand, hmany, rfl⟩ := h
  obtain ⟨hrow, hexp⟩ := form_operand hoperand
  rcases hmany with ⟨-, rfl⟩ | ⟨_, _, _, hfirst, hmore, rfl⟩
  · rw [List.append_nil]
    exact .operation (.operand hrow) hexp
  · -- the first repetition has no space before it that it would have to skip itself
    have hrep := Repeated.cons (c := m) hfirst hmore
    obtain ⟨hall, hexp'⟩ := form_operands hrow hrep
    refine .operation hall fun f hf hop => ?_
    rcases List.mem_append.1 hf with hf | hf
    · exact hexp f hf hop
    · exact hexp' f hf hop

/-- What a word of the grammar leaves has the form of its rule. -/
theorem form_of_scan {r : Rule} {w : Word} {cs t rest : List Char} {pos : Nat}
    (hr : r.definition = .word w) (h : w.scan cs = some (t, rest)) :
    r.Form [.word r pos t] := by
  cases r <;> cases hr
  case integer =>
    cases cs with
    | nil => cases h
    | cons c cs =>
      simp only [Word.scan, scanRun] at h
      split at h <;> cases h
      next hc =>
      refine ⟨_, rfl, .integer (List.cons_ne_nil _ _) ?_⟩
      simp [hc]
  case input => exact ⟨_, rfl, .input⟩
  case identifier =>
    rw [scan_identifier_eq] at h
    split at h <;> cases h
    next hi => exact ⟨_, _, rfl, hi⟩
  all_goals exact ⟨_, _, rfl⟩

/-- The form of a silent rule is that of its body. -/
theorem form_of_silent {r : Rule} {p : Phrase} {c d : Cursor} {fs : List Fragment}
    (hr : r.definition = .silent p) (h : p.Leaves (fun r _ _ fs => r.Form fs) c d fs) :
    r.Form fs := by
  cases r <;> cases hr
  case whitespace | comment | identifierChar =>
    obtain ⟨_, _, _, _, rfl⟩ := h
    rfl
  case assignOp =>
    obtain ⟨_, _, _, ⟨_, _, _, _, rfl⟩, ⟨_, rfl⟩, rfl⟩ := h
    rfl
  case statement => rcases h with h | h | h | h <;> exact h
  case expression => rcases h with h | h | h <;> exact h
  case infixOp =>
    rcases h with h | h | h | h | h | h | h | h | h | h | h | h | h <;>
      obtain ⟨_, _, rfl⟩ := h <;> exact ⟨_, rfl, rfl⟩
  case prefixOp => rcases h with h | h <;> obtain ⟨_, _, rfl⟩ := h <;> exact ⟨_, rfl, rfl⟩
  case postfixOp => rcases h with h | h <;> obtain ⟨_, _, rfl⟩ := h <;> exact ⟨_, rfl, rfl⟩
  case primary =>
    rcases h with h | h | h | h
    · exact h
    · exact h
    · obtain ⟨_, _, rfl, hi⟩ := h
      exact ⟨_, rfl, .identifier hi⟩
    · obtain ⟨_, _, _, ⟨_, _, _, _, rfl⟩, ⟨_, _, _, ⟨f, rfl, hf⟩, ⟨_, _, _, _, rfl⟩, rfl⟩, rfl⟩ := h
      exact ⟨f, rfl, hf⟩

/-- The form of a rule that shows follows from that of its body. -/
theorem form_of_phrase {r : Rule} {p : Phrase} {c d : Cursor} {fs : List Fragment}
    (hr : r.definition = .phrase p) (h : p.Leaves (fun r _ _ fs => r.Form fs) c d fs) :
    r.Form [.phrase r c.pos d.pos fs] := by
  cases r <;> cases hr
  case program =>
    obtain ⟨_, _, _, ⟨_, rfl⟩, ⟨_, gs, _, hmany, ⟨pos, text, rfl⟩, rfl⟩, rfl⟩ := h
    exact ⟨_, _, gs, pos, text, rfl, forall_of_leaves_many (r := .statement) (fun _ h => h) hmany⟩
  case scope =>
    obtain ⟨_, _, _, ⟨_, _, _, _, rfl⟩, ⟨_, gs, _, hmany, ⟨_, _, _, _, rfl⟩, rfl⟩, rfl⟩ := h
    refine ⟨_, rfl, .scope ?_⟩
    rw [List.nil_append, List.append_nil]
    exact forall_of_leaves_many (r := .statement) (fun _ h => h) hmany
  case ifStatement =>
    obtain ⟨_, _, _, ⟨_, _, rfl⟩, ⟨_, _, _, ⟨_, _, _, _, rfl⟩, ⟨_, _, _, ⟨e, rfl, he⟩,
      ⟨_, _, _, ⟨_, _, _, _, rfl⟩, ⟨_, _, _, ⟨s, rfl, hs⟩, hopt, rfl⟩, rfl⟩, rfl⟩, rfl⟩, rfl⟩ := h
    rcases hopt with ⟨_, rfl⟩ | ⟨_, _, _, ⟨_, _, rfl⟩, ⟨s', rfl, hs'⟩, rfl⟩
    · exact ⟨_, rfl, .ifThen he hs⟩
    · exact ⟨_, rfl, .ifElse he hs hs'⟩
  case whileStatement =>
    obtain ⟨_, _, _, ⟨_, _, rfl⟩, ⟨_, _, _, ⟨_, _, _, _, rfl⟩, ⟨_, _, _, ⟨e, rfl, he⟩,
      ⟨_, _, _, ⟨_, _, _, _, rfl⟩, ⟨s, rfl, hs⟩, rfl⟩, rfl⟩, rfl⟩, rfl⟩ := h
    exact ⟨_, rfl, .whileLoop he hs⟩
  case expressionStatement =>
    obtain ⟨_, _, _, ⟨e, rfl, he⟩, ⟨_, _, _, _, rfl⟩, rfl⟩ := h
    exact ⟨_, rfl, .expression he⟩
  case assignment =>
    obtain ⟨_, _, _, ⟨_, _, rfl, hi⟩, ⟨_, _, _, hop, ⟨e, rfl, he⟩, rfl⟩, rfl⟩ := h
    cases hop
    exact ⟨_, rfl, .assignment hi he⟩
  case printExpression =>
    obtain ⟨_, _, _, ⟨_, _, rfl⟩, ⟨e, rfl, he⟩, rfl⟩ := h
    exact ⟨_, rfl, .print he⟩
  case operation => exact ⟨_, rfl, form_operation h⟩

/-- Every reading of a rule leaves fragments of its form. -/
theorem Rule.form_of_reads {r : Rule} {c d : Cursor} {fs : List Fragment}
    (h : (Phrase.call r).Reads c (some (d, fs))) : r.Form fs :=
  Phrase.leaves_of_reads (fun _ _ _ _ _ hr h => form_of_scan hr h)
    (fun _ _ _ _ _ hr h => form_of_silent hr h) (fun _ _ _ _ _ hr h => form_of_phrase hr h) h

end IntScript.Grammar
