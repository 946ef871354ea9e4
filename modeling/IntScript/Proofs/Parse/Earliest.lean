import IntScript.Proofs.Parse.Nesting

/-!
# The earliest offence is reported

A text that the grammar reads offends with numbers that do not fit in 64 bits, and with operators
that change a variable where they follow another such operator or stand behind something other than
a name. Parsing succeeds if nothing offends. Otherwise it reports the offence that ends first in the
text, whatever is wrong behind it and however the operators are grouped.
-/

namespace IntScript

/-- The rules of operators are those of words. -/
theorem Grammar.Rule.not_isOperator_of_phrase {r : Grammar.Rule} {p : Grammar.Phrase}
    (h : r.definition = .phrase p) : r.isOperator = false := by
  cases r <;> cases h <;> rfl

namespace Grammar.Fragment

/-- A name in any number of parentheses, of which only the operations inside them are left. -/
inductive IsBare : Fragment → Prop
  | name {start : Nat} {text : List Char} : IsBare (.word .identifier start text)
  | parentheses {start stop : Nat} {f : Fragment} (h : IsBare f) :
      IsBare (.phrase .operation start stop [f])

/-- Whether a fragment is an operator that changes the variable before it. -/
def changes (f : Fragment) : Bool := (Build.operatorBehind? f.rule).isSome

/-- Behind some fragments an operator that changes a variable is refused: behind another such
operator, and behind an operand that is not a name in any number of parentheses. -/
def Refuses (f g : Fragment) : Prop :=
  g.changes = true ∧ (f.changes = true ∨ f.rule.isOperator = false ∧ ¬f.IsBare)

/-- A fragment offends with a number inside it that does not fit in 64 bits, and with an operator
inside it that is refused behind its neighbour in a row. -/
inductive Offends : Fragment → Fragment → Prop
  | number {start : Nat} {text : List Char} (h : 2 ^ 63 - 1 < Decimal.value text) :
      Offends (.word .integer start text) (.word .integer start text)
  | operator {start stop : Nat} {row : List Fragment} {f g : Fragment} (hrow : [f, g] <:+: row)
      (h : f.Refuses g) : Offends (.phrase .operation start stop row) g
  | inner {r : Rule} {start stop : Nat} {fs : List Fragment} {f g : Fragment} (hf : f ∈ fs)
      (h : Offends f g) : Offends (.phrase r start stop fs) g

/-- Some fragments offend with another one. -/
def Offending (fs : List Fragment) (g : Fragment) : Prop := ∃ f ∈ fs, f.Offends g

/-- Fragments of a row offend with another one, where some fragments stand before them. -/
def RowOffends (before row : List Fragment) (g : Fragment) : Prop :=
  Offending row g ∨ ∃ f, [f, g] <:+: before ++ row ∧ f.Refuses g

variable {cs : List Char} {lo hi : Nat} {f g p : Fragment} {fs : List Fragment}

/-- A name in parentheses is an operand. -/
theorem IsBare.not_isOperator (h : f.IsBare) : f.rule.isOperator = false := by
  cases h <;> rfl

/-- An operator that changes a variable is an operator. -/
theorem isOperator_of_changes (h : f.changes = true) : f.rule.isOperator = true := by
  rw [changes] at h
  simp only [Rule.isOperator, h, Bool.or_true, Bool.true_or]

/-- Nothing is refused behind a name. -/
theorem IsBare.not_refuses (h : f.IsBare) : ¬f.Refuses g := by
  rintro ⟨-, hchanges | ⟨-, hbare⟩⟩
  · have hop := isOperator_of_changes hchanges
    rw [h.not_isOperator] at hop
    cases hop
  · exact hbare h

/-- Of all words only numbers offend. -/
theorem not_offends_word {r : Rule} {start : Nat} {text : List Char} (hr : r ≠ .integer) :
    ¬(Fragment.word r start text).Offends g := by
  intro h
  cases h
  exact hr rfl

/-- Operators are words, so nothing in them offends. -/
theorem not_offends_operator (hlaid : Laid cs lo [f] hi) (hf : f.rule.isOperator = true) :
    ¬f.Offends g := by
  cases hlaid with
  | word _ _ _ =>
    refine not_offends_word ?_
    rintro rfl
    cases hf
  | @phrase _ _ _ _ r _ _ _ _ _ _ hr =>
    obtain ⟨p, hp⟩ := hr
    have hnot := Rule.not_isOperator_of_phrase hp
    rw [rule, hnot] at hf
    cases hf

/-- Phrases that are not operations offend with what their parts offend with. -/
theorem offends_phrase {r : Rule} (hr : r ≠ .operation) {start stop : Nat} :
    (Fragment.phrase r start stop fs).Offends g ↔ Offending fs g := by
  constructor
  · intro h
    cases h with
    | operator _ _ => exact absurd rfl hr
    | inner hf h => exact ⟨_, hf, h⟩
  · rintro ⟨f, hf, h⟩
    exact .inner hf h

/-- Operations offend with what their rows offend with. -/
theorem offends_operation {start stop : Nat} :
    (Fragment.phrase .operation start stop fs).Offends g ↔ RowOffends [] fs g := by
  constructor
  · intro h
    cases h with
    | operator hrow h => exact .inr ⟨_, hrow, h⟩
    | inner hf h => exact .inl ⟨_, hf, h⟩
  · rintro (⟨f, hf, h⟩ | ⟨f, hrow, h⟩)
    · exact .inner hf h
    · exact .operator hrow h

/-- Fragments offend with what the first of them or the other ones offend with. -/
theorem offending_cons : Offending (f :: fs) g ↔ f.Offends g ∨ Offending fs g :=
  List.exists_mem_cons_iff ..

/-- A word other than a number can be left out. -/
theorem offending_word {r : Rule} {start : Nat} {text : List Char} (hr : r ≠ .integer) :
    Offending (.word r start text :: fs) g ↔ Offending fs g := by
  rw [offending_cons, or_iff_right (not_offends_word hr)]

/-- Nothing offends where there is nothing. -/
theorem not_offending_nil : ¬Offending [] g := by
  rintro ⟨f, hf, -⟩
  cases hf

/-- The first two of a row, or two of the other ones. -/
theorem neighbours_cons {a b : Fragment} :
    [a, b] <:+: p :: f :: fs ↔ (a = p ∧ b = f) ∨ [a, b] <:+: f :: fs := by
  rw [List.infix_cons_iff]
  simp

/-- The second of two neighbours is not the first of the row. -/
theorem mem_of_neighbours {a b : Fragment} (h : [a, b] <:+: p :: fs) : b ∈ fs := by
  cases fs with
  | nil =>
    have hlen := h.length_le
    simp at hlen
  | cons f fs =>
    rcases neighbours_cons.1 h with ⟨-, rfl⟩ | h
    · exact List.mem_cons_self
    · exact h.subset (List.mem_cons_of_mem _ List.mem_cons_self)

/-- The first fragment of a row offends by itself. -/
theorem rowOffends_first : RowOffends [] (f :: fs) g ↔ f.Offends g ∨ RowOffends [f] fs g := by
  rw [RowOffends, RowOffends, offending_cons, or_assoc]
  rfl

/-- The next fragment of a row offends by itself or is refused. -/
theorem rowOffends_next :
    RowOffends [p] (f :: fs) g ↔ (f.Offends g ∨ g = f ∧ p.Refuses f) ∨ RowOffends [f] fs g := by
  rw [RowOffends, RowOffends, offending_cons]
  simp only [List.singleton_append, neighbours_cons]
  constructor
  · rintro ((h | h) | ⟨a, ⟨rfl, rfl⟩ | hrow, h⟩)
    · exact .inl (.inl h)
    · exact .inr (.inl h)
    · exact .inl (.inr ⟨rfl, h⟩)
    · exact .inr (.inr ⟨a, hrow, h⟩)
  · rintro ((h | ⟨rfl, h⟩) | h | ⟨a, hrow, h⟩)
    · exact .inl (.inl h)
    · exact .inr ⟨p, .inl ⟨rfl, rfl⟩, h⟩
    · exact .inl (.inr h)
    · exact .inr ⟨a, .inr hrow, h⟩

/-- Nothing offends behind the end of a row. -/
theorem not_rowOffends_nil : ¬RowOffends [p] [] g := by
  rintro (h | ⟨f, hrow, -⟩)
  · exact not_offending_nil h
  · cases mem_of_neighbours hrow

/-- An operator that changes nothing makes no difference to what stands behind it. -/
theorem rowOffends_operator (hf : f.rule.isOperator = true) (hchanges : f.changes = false) :
    RowOffends [f] fs g ↔ RowOffends [] fs g := by
  have hrefuses : ∀ g, ¬f.Refuses g := by
    rintro g ⟨-, h | ⟨h, -⟩⟩
    · rw [hchanges] at h
      cases h
    · rw [hf] at h
      cases h
  cases fs with
  | nil => simp [RowOffends, List.infix_cons_iff, Offending]
  | cons h fs =>
    rw [rowOffends_next, rowOffends_first]
    simp only [hrefuses h, and_false, or_false]

/-- Offending fragments take some of the room of the fragments that offend with them. -/
theorem Offends.bounds (h : f.Offends g) (hlaid : Laid cs lo fs hi) (hf : f ∈ fs) :
    lo < g.span.stop ∧ g.span.stop ≤ hi := by
  induction h generalizing lo hi fs with
  | @number start text _ =>
    obtain ⟨hlo, hhi, hself⟩ := hlaid.mem hf
    obtain ⟨-, htakes, -, -⟩ := hself.uncons
    have hspan := htakes rfl
    omega
  | @operator start stop row f g hrow h =>
    obtain ⟨hlo, hhi, hself⟩ := hlaid.mem hf
    cases hself with
    | phrase _ _ hinner _ _ =>
      have hg : g ∈ row := hrow.subset (List.mem_cons_of_mem _ List.mem_cons_self)
      obtain ⟨hlo', hhi', hself'⟩ := hinner.mem hg
      obtain ⟨-, htakes, -, -⟩ := hself'.uncons
      have hspan := htakes (Build.consumes_of_isOperator (isOperator_of_changes h.1))
      simp only [span] at hlo hhi
      omega
  | inner hf' _ ih =>
    obtain ⟨hlo, hhi, hself⟩ := hlaid.mem hf
    cases hself with
    | phrase _ _ hinner _ _ =>
      have hbounds := ih hinner hf'
      simp only [span] at hlo hhi
      omega

/-- What a row offends with stands in the row. -/
theorem RowOffends.lower (h : RowOffends [p] fs g) (hlaid : Laid cs lo fs hi) :
    lo < g.span.stop := by
  rcases h with ⟨f, hf, h⟩ | ⟨f, hrow, h⟩
  · exact (h.bounds hlaid hf).1
  · obtain ⟨hlo, -, hself⟩ := hlaid.mem (mem_of_neighbours hrow)
    obtain ⟨-, htakes, -, -⟩ := hself.uncons
    have hspan := htakes (Build.consumes_of_isOperator (isOperator_of_changes h.1))
    omega

end Grammar.Fragment

open Grammar (Rule Fragment StandsAt)
open Grammar.Fragment (Laid Offends Offending RowOffends)

/-- An error reports a fragment of a text: a number with its text and exactly its span, and an
operator with a span that ends where the operator does. -/
def ParseError.Reports (cs : List Char) (e : ParseError) (g : Fragment) : Prop :=
  (g.rule = .integer ∧ e.span = g.span ∧
    e.cause = .invalidNumber (String.ofList (g.span.textIn cs))) ∨
  ∃ op, Build.operatorBehind? g.rule = some op ∧ e.cause = .invalidIncrementTarget op ∧
    e.span.stop = g.span.stop

/-- A check for offending fragments gives a result if there are none, and otherwise it reports the
one that ends first. -/
def Checks {α : Type} (cs : List Char) (offends : Fragment → Prop) : Except ParseError α → Prop
  | .ok _ => ∀ g, ¬offends g
  | .error e =>
    ∃ g, offends g ∧ e.Reports cs g ∧ ∀ g', offends g' → g' = g ∨ g.span.stop < g'.span.stop

namespace Checks

variable {α β : Type} {cs : List Char} {lo hi : Nat} {f : Fragment} {fs : List Fragment}
  {x : Except ParseError α} {second : α → Except ParseError β} {P Q : Fragment → Prop}

/-- A check for the same fragments. -/
theorem congr (h : Checks cs P x) (hPQ : ∀ g, P g ↔ Q g) : Checks cs Q x := by
  have heq : P = Q := funext fun g => propext (hPQ g)
  rwa [← heq]

/-- A result passed through a function. -/
theorem map (h : Checks cs P x) (result : α → β) :
    Checks cs P (x >>= fun a => pure (result a)) := by
  cases x with
  | ok a => exact h
  | error e => exact h

/-- What is checked first ends first. -/
theorem bind (h : Checks cs P x) (mid : Nat) (hP : ∀ g, P g → g.span.stop ≤ mid)
    (hQ : ∀ g, Q g → mid < g.span.stop) (h' : ∀ a, x = .ok a → Checks cs Q (second a)) :
    Checks cs (fun g => P g ∨ Q g) (x >>= second) := by
  cases x with
  | ok a =>
    refine (h' a rfl).congr fun g => ?_
    rw [or_iff_right (h g)]
  | error e =>
    obtain ⟨g, hg, hreports, hfirst⟩ := h
    refine ⟨g, .inl hg, hreports, ?_⟩
    rintro g' (hg' | hg')
    · exact hfirst g' hg'
    · have hbefore := hP g hg
      have hbehind := hQ g' hg'
      exact .inr (by omega)

/-- A phrase that is not an operation is checked by checking its parts. -/
theorem phrase {r : Rule} {start stop : Nat} (hr : r ≠ .operation)
    (h : Checks cs (Offending fs) x) :
    Checks cs (Fragment.phrase r start stop fs).Offends x :=
  h.congr fun _ => (Fragment.offends_phrase hr).symm

/-- A word other than a number needs no check. -/
theorem word {r : Rule} {start : Nat} {text : List Char} (hr : r ≠ .integer)
    (h : Checks cs (Offending fs) x) :
    Checks cs (Offending (.word r start text :: fs)) x :=
  h.congr fun _ => (Fragment.offending_word hr).symm

/-- Nothing needs no check. -/
theorem nil (a : α) : Checks cs (Offending []) (.ok a) := fun _ => Fragment.not_offending_nil

/-- Fragments are checked one after the other. -/
theorem cons (hlaid : Laid cs lo (f :: fs) hi) (h : Checks cs f.Offends x)
    (h' : ∀ a, x = .ok a → Checks cs (Offending fs) (second a)) :
    Checks cs (Offending (f :: fs)) (x >>= second) := by
  obtain ⟨-, -, hself, hrest⟩ := hlaid.uncons
  refine (h.bind f.span.stop (fun g hg => ?_) (fun g hg => ?_) h').congr fun g => ?_
  · exact (hg.bounds hself List.mem_cons_self).2
  · obtain ⟨f', hf', hg⟩ := hg
    exact (hg.bounds hrest hf').1
  · exact Fragment.offending_cons.symm

/-- The last fragment is checked. -/
theorem last (h : Checks cs f.Offends x) (result : α → β) :
    Checks cs (Offending [f]) (x >>= fun a => pure (result a)) := by
  refine (h.map result).congr fun g => ?_
  rw [Fragment.offending_cons, or_iff_left Fragment.not_offending_nil]

end Checks

namespace Operation

variable {ws : List Waiting} {t u : Tree Span}

/-- A waiting operator with its operand is no variable. -/
theorem Waiting.kind_apply (w : Waiting) (t : Tree Span) : (w.apply t).kind ≠ .var := by
  cases w <;> simp [Waiting.apply, Tree.kind]

/-- Settling makes no variable out of anything else. -/
theorem kind_settle (strength : Nat) (h : t.kind ≠ .var) :
    (settle strength ws t).2.kind ≠ .var := by
  induction ws generalizing t with
  | nil => exact h
  | cons w ws ih =>
    rw [settle]
    split
    · exact ih (w.kind_apply t)
    · exact h

/-- Operators are never grouped to a variable. -/
theorem kind_expect (items : List Item) :
    (∀ ws u, ws ≠ [] → expectOperand ws items = .ok u → u.kind ≠ .var) ∧
      ∀ ws t u, ws ≠ [] ∨ t.kind ≠ .var ∨ items ≠ [] → expectOperator ws t items = .ok u →
        u.kind ≠ .var := by
  induction items with
  | nil =>
    refine ⟨fun ws u _ h => ?_, fun ws t u hws h => ?_⟩
    · cases h
    · rw [expectOperator] at h
      cases h
      rcases hws with hws | ht | hitems
      · obtain ⟨w, ws, rfl⟩ := List.exists_cons_of_ne_nil hws
        rw [settle, if_pos (Nat.zero_le _)]
        exact kind_settle 0 (w.kind_apply t)
      · exact kind_settle 0 ht
      · exact absurd rfl hitems
  | cons i items ih =>
    refine ⟨fun ws u hws h => ?_, fun ws t u _ h => ?_⟩
    · cases i with
      | before op span =>
        rw [expectOperand] at h
        exact ih.1 _ u (List.cons_ne_nil _ _) h
      | operand result =>
        rw [expectOperand] at h
        obtain ⟨t, -, h⟩ := steps_eq_ok h
        exact ih.2 ws t u (.inl hws) h
      | behind op span => cases h
      | between op => cases h
    · cases i with
      | before op span => cases h
      | operand result => cases h
      | behind op span =>
        rw [expectOperator] at h
        obtain ⟨v, hv, h⟩ := steps_eq_ok h
        cases applyBehind_eq_ok hv
        exact ih.2 ws _ u (.inr (.inl (by simp [Tree.kind]))) h
      | between op =>
        rw [expectOperator] at h
        exact ih.1 _ u (List.cons_ne_nil _ _) h

end Operation

namespace Build

open Operation (isComplete expectOperand expectOperator)

variable {cs : List Char} {lo hi : Nat} {f : Fragment} {fs : List Fragment}

/-- The tree of an expression is a variable if and only if the expression is a name in any number of
parentheses. -/
theorem kind_expression (hf : f.IsExpression) {t : Tree Span} (h : expression f = .ok t) :
    t.kind = .var ↔ f.IsBare := by
  induction hf generalizing t with
  | integer hn hd =>
    rw [expression, number] at h
    split at h <;> cases h
    refine iff_of_false ?_ ?_ <;> rintro ⟨⟩
  | input =>
    rw [expression] at h
    cases h
    refine iff_of_false ?_ ?_ <;> rintro ⟨⟩
  | identifier hi =>
    rw [expression] at h
    cases h
    exact ⟨fun _ => .name, fun _ => rfl⟩
  | assignment hi _ ih =>
    rw [expression, expression] at h
    obtain ⟨_, _, h⟩ := steps_eq_ok h
    obtain ⟨_, _, h⟩ := steps_eq_ok h
    cases h
    refine iff_of_false ?_ ?_ <;> rintro ⟨⟩
  | print _ ih =>
    rw [expression] at h
    obtain ⟨_, _, h⟩ := steps_eq_ok h
    cases h
    refine iff_of_false ?_ ?_ <;> rintro ⟨⟩
  | @operation start stop fs _ _ ih =>
    rw [expression, Operation.group, items_eq_map] at h
    cases fs with
    | nil => cases h
    | cons f fs =>
      rw [List.map_cons] at h
      cases hop : f.rule.isOperator with
      | false =>
        rw [item_operand _ hop, expectOperand] at h
        obtain ⟨u, hu, h⟩ := steps_eq_ok h
        cases fs with
        | nil =>
          cases h
          have hfirst := ih f List.mem_cons_self hop hu
          constructor
          · intro hvar
            exact .parentheses (hfirst.1 hvar)
          · rintro (_ | hbare)
            exact hfirst.2 hbare
        | cons g fs =>
          have hnot := (Operation.kind_expect _).2 [] u t (.inr (.inr (List.cons_ne_nil _ _))) h
          refine iff_of_false hnot ?_
          rintro ⟨⟩
      | true =>
        have hbare : ¬(Fragment.phrase .operation start stop (f :: fs)).IsBare := by
          intro hbare
          cases hbare with
          | parentheses hf =>
            rw [hf.not_isOperator] at hop
            cases hop
        refine iff_of_false ?_ hbare
        simp only [Rule.isOperator, Bool.or_eq_true] at hop
        rcases hop with (hbefore | hbehind) | hbetween
        · obtain ⟨op, hitem⟩ := item_before (expression f) hbefore
          rw [hitem, expectOperand] at h
          exact (Operation.kind_expect _).1 _ t (List.cons_ne_nil _ _) h
        · obtain ⟨op, hitem⟩ := item_behind (expression f) hbehind
          rw [hitem] at h
          cases h
        · obtain ⟨op, hitem⟩ := item_between (expression f) hbetween
          rw [hitem] at h
          cases h

/-- An operator behind an operand is checked against what stands before it. -/
theorem applyBehind_checks {p : Fragment} {t : Tree Span} {op : UnaryOp}
    (hp : p.changes = true ∨ p.rule.isOperator = false) (hkind : t.kind = .var ↔ p.IsBare)
    (hop : operatorBehind? f.rule = some op) (hstop : t.label.stop ≤ f.span.stop) :
    Checks cs (fun g => g = f ∧ p.Refuses f) (Operation.applyBehind op f.span t) := by
  unfold Operation.applyBehind
  dsimp only
  split
  · next hvar =>
    rintro g ⟨-, hrefuses⟩
    exact (hkind.1 hvar).not_refuses hrefuses
  · next hvar =>
    have hbare : ¬p.IsBare := fun h => hvar (hkind.2 h)
    have hchanges : f.changes = true := by rw [Fragment.changes, hop, Option.isSome_some]
    have hrefuses : p.Refuses f := ⟨hchanges, hp.imp_right fun h => ⟨h, hbare⟩⟩
    refine ⟨f, ⟨rfl, hrefuses⟩, .inr ⟨op, hop, rfl, Nat.max_eq_right hstop⟩, ?_⟩
    rintro g' ⟨rfl, -⟩
    exact .inl rfl

/-- A row is checked from left to right, however it is grouped. -/
theorem expect_checks {mid : Nat} (hlaid : Laid cs mid fs hi)
    (hoperands : ∀ f ∈ fs, f.rule.isOperator = false → f.IsExpression ∧
      ∀ {lo hi : Nat}, Laid cs lo [f] hi → Checks cs f.Offends (expression f)) :
    (isComplete true (fs.map fun f => item f (expression f)) = true → ∀ ws,
      Checks cs (RowOffends [] fs) (expectOperand ws (fs.map fun f => item f (expression f)))) ∧
    (isComplete false (fs.map fun f => item f (expression f)) = true → ∀ ws t (p : Fragment),
      (p.changes = true ∨ p.rule.isOperator = false) → (t.kind = .var ↔ p.IsBare) →
      t.label.stop ≤ mid →
      Checks cs (RowOffends [p] fs)
        (expectOperator ws t (fs.map fun f => item f (expression f)))) := by
  induction fs generalizing mid with
  | nil =>
    exact ⟨fun h => absurd h Bool.false_ne_true,
      fun _ ws t p _ _ _ g => Fragment.not_rowOffends_nil⟩
  | cons f fs ih =>
    obtain ⟨hlo, htakes, hself, hrest⟩ := hlaid.uncons
    have hih := ih hrest fun g hg => hoperands g (List.mem_cons_of_mem _ hg)
    rw [List.map_cons]
    cases hop : f.rule.isOperator with
    | false =>
      obtain ⟨hexpression, hchecks⟩ := hoperands f List.mem_cons_self hop
      rw [item_operand _ hop]
      refine ⟨fun hcomplete ws => ?_, fun h => absurd h Bool.false_ne_true⟩
      rw [expectOperand]
      rw [isComplete] at hcomplete
      refine ((hchecks hself).bind (Q := RowOffends [f] fs) f.span.stop
        (fun g hg => (hg.bounds hself List.mem_cons_self).2) (fun g hg => hg.lower hrest)
        fun t ht => ?_).congr fun g => Fragment.rowOffends_first.symm
      exact hih.2 hcomplete ws t f (.inr hop) (kind_expression hexpression ht)
        (expression_between hexpression hself ht).upper
    | true =>
      have hspan := htakes (consumes_of_isOperator hop)
      have hnone : ∀ g, ¬f.Offends g := fun g => Fragment.not_offends_operator hself hop
      have hbare : ¬f.IsBare := by
        intro hbare
        rw [hbare.not_isOperator] at hop
        cases hop
      cases hchanges : f.changes with
      | true =>
        obtain ⟨op, hbehind⟩ := Option.isSome_iff_exists.1 hchanges
        rw [item_eq_behind _ hbehind]
        refine ⟨fun h => absurd h Bool.false_ne_true, fun hcomplete ws t p hp hkind hstop => ?_⟩
        rw [expectOperator]
        rw [isComplete] at hcomplete
        refine ((applyBehind_checks hp hkind hbehind (by omega)).bind (Q := RowOffends [f] fs)
          f.span.stop ?_ (fun g hg => hg.lower hrest) fun u hu => ?_).congr fun g => ?_
        · rintro g ⟨rfl, -⟩
          exact Nat.le_refl _
        · cases Operation.applyBehind_eq_ok hu
          exact hih.2 hcomplete ws _ f (.inl hchanges) (by simp [Tree.kind, hbare])
            (Nat.max_le.2 ⟨by omega, Nat.le_refl _⟩)
        · rw [Fragment.rowOffends_next, or_iff_right (hnone g)]
      | false =>
        have hskip : ∀ g, RowOffends [f] fs g ↔ RowOffends [] fs g :=
          fun g => Fragment.rowOffends_operator hop hchanges
        simp only [Rule.isOperator, Bool.or_eq_true] at hop
        rcases hop with (hbefore | hbehind) | hbetween
        · obtain ⟨op, hitem⟩ := item_before (expression f) hbefore
          rw [hitem]
          refine ⟨fun hcomplete ws => ?_, fun h => absurd h Bool.false_ne_true⟩
          rw [expectOperand]
          rw [isComplete] at hcomplete
          refine (hih.1 hcomplete _).congr fun g => ?_
          rw [Fragment.rowOffends_first, or_iff_right (hnone g), hskip]
        · rw [Fragment.changes, hbehind] at hchanges
          cases hchanges
        · obtain ⟨op, hitem⟩ := item_between (expression f) hbetween
          rw [hitem]
          refine ⟨fun h => absurd h Bool.false_ne_true, fun hcomplete ws t p _ _ _ => ?_⟩
          rw [expectOperator]
          rw [isComplete] at hcomplete
          refine (hih.1 hcomplete _).congr fun g => ?_
          have hrefuses : ¬p.Refuses f := by
            rintro ⟨h, -⟩
            rw [hchanges] at h
            cases h
          rw [Fragment.rowOffends_next, or_iff_right (hnone g),
            or_iff_right fun h => hrefuses h.2, hskip]

/-- Expressions report what offends first in them. -/
theorem expression_checks (hf : f.IsExpression) (hlaid : Laid cs lo [f] hi) :
    Checks cs f.Offends (expression f) := by
  induction hf generalizing lo hi with
  | @integer start text hn hd =>
    cases hlaid with
    | word _ hword _ =>
      have hmax : Int64.maxValue.toInt = 2 ^ 63 - 1 := by decide
      have hfits : Decimal.int64? text = none ↔ 2 ^ 63 - 1 < Decimal.value text := by
        rw [Decimal.int64?_digits_eq_none hn hd, hmax]
        omega
      rw [expression, number]
      split
      · next v hv =>
        intro g hg
        cases hg with
        | number hlarge =>
          rw [hfits.2 hlarge] at hv
          cases hv
      · next hv =>
        refine ⟨_, .number (hfits.1 hv), .inl ⟨rfl, rfl, ?_⟩, ?_⟩
        · rw [Fragment.span, textIn_of_standsAt hword]
        · intro g' hg'
          cases hg'
          exact .inl rfl
  | input =>
    rw [expression]
    exact fun g => Fragment.not_offends_word (by decide)
  | identifier _ =>
    rw [expression]
    exact fun g => Fragment.not_offends_word (by decide)
  | assignment _ _ ih =>
    cases hlaid with
    | phrase _ _ hinner _ _ =>
      cases hinner with
      | word _ _ hvalue =>
        rw [expression, expression]
        exact .phrase (by decide) (.word (by decide) (.last (ih hvalue) _))
  | print _ ih =>
    cases hlaid with
    | phrase _ _ hinner _ _ =>
      cases hinner with
      | word _ _ hoperand =>
        rw [expression]
        exact .phrase (by decide) (.word (by decide) (.last (ih hoperand) _))
  | operation hr hexpressions ih =>
    cases hlaid with
    | phrase _ _ hinner _ _ =>
      rw [expression, Operation.group, items_eq_map]
      have hrow := expect_checks hinner fun f hf hop =>
        ⟨hexpressions f hf hop, fun {_ _} hself => ih f hf hop hself⟩
      exact (hrow.1 (isComplete_row expression hr) []).congr fun g =>
        Fragment.offends_operation.symm

/-- Conditions report what offends first in them. -/
theorem condition_checks (hf : f.IsExpression) (hlaid : Laid cs lo [f] hi) :
    Checks cs f.Offends (condition f) :=
  (expression_checks hf hlaid).map _

/-- Statements one after the other report what offends first in them. -/
theorem statements_checks
    (hfs : ∀ f ∈ fs, ∀ {lo hi : Nat}, Laid cs lo [f] hi → Checks cs f.Offends (statement f))
    {rest : List Fragment} (hrest : Checks cs (Offending rest) (statements rest))
    (hlaid : Laid cs lo (fs ++ rest) hi) :
    Checks cs (Offending (fs ++ rest)) (statements (fs ++ rest)) := by
  induction fs generalizing lo with
  | nil => exact hrest
  | cons f fs ih =>
    obtain ⟨-, -, hself, hlaid'⟩ := hlaid.uncons
    rw [List.cons_append]
    unfold statements
    split
    · next he => cases he
    · next he =>
      rw [he]
      exact .word (by decide) (.nil _)
    · next he =>
      cases he
      refine .cons hlaid (hfs f List.mem_cons_self hself) fun t _ => Checks.map ?_ _
      exact ih (fun f hf => hfs f (List.mem_cons_of_mem _ hf)) hlaid'

/-- Statements report what offends first in them. -/
theorem statement_checks (hf : f.IsStatement) (hlaid : Laid cs lo [f] hi) :
    Checks cs f.Offends (statement f) := by
  induction hf generalizing lo hi with
  | @scope start stop fs _ ih =>
    cases hlaid with
    | phrase _ _ hinner _ _ =>
      have hnone : Checks cs (Offending []) (statements []) := by
        rw [statements]
        exact .nil _
      rw [← List.append_nil fs] at hinner
      have hall := statements_checks (fun f hf {_ _} hself => ih f hf hself) hnone hinner
      rw [List.append_nil] at hall
      rw [statement]
      exact .phrase (by decide) (hall.map _)
  | expression he =>
    cases hlaid with
    | phrase _ _ hinner _ _ =>
      rw [statement]
      exact .phrase (by decide) (.last (expression_checks he hinner) _)
  | ifThen hc _ iht =>
    cases hlaid with
    | phrase _ _ hinner _ _ =>
      cases hinner with
      | word _ _ hparts =>
        obtain ⟨-, -, hcondition, hthen⟩ := hparts.uncons
        rw [statement]
        refine .phrase (by decide) (.word (by decide) ?_)
        refine .cons hparts (condition_checks hc hcondition) fun c _ => ?_
        exact .last (iht hthen) _
  | ifElse hc _ _ iht ihe =>
    cases hlaid with
    | phrase _ _ hinner _ _ =>
      cases hinner with
      | word _ _ hparts =>
        obtain ⟨-, -, hcondition, hbranches⟩ := hparts.uncons
        obtain ⟨-, -, hthen, helse⟩ := hbranches.uncons
        rw [statement]
        refine .phrase (by decide) (.word (by decide) ?_)
        refine .cons hparts (condition_checks hc hcondition) fun c _ => ?_
        refine .cons hbranches (iht hthen) fun t _ => ?_
        cases helse with
        | word _ _ helse => exact .word (by decide) (.last (ihe helse) _)
  | whileLoop hc _ ihb =>
    cases hlaid with
    | phrase _ _ hinner _ _ =>
      cases hinner with
      | word _ _ hparts =>
        obtain ⟨-, -, hcondition, hbody⟩ := hparts.uncons
        rw [statement]
        refine .phrase (by decide) (.word (by decide) ?_)
        refine .cons hparts (condition_checks hc hcondition) fun c _ => ?_
        exact .last (ihb hbody) _

/-- A program reports what offends first in it. -/
theorem program_checks (h : Rule.program.read cs = .ok fs) :
    Checks cs (Offending fs) (program fs) := by
  obtain ⟨d, hd⟩ := Grammar.Rule.read_eq_ok_iff.1 h
  have hlaid := hd.laid (.refl _)
  obtain ⟨start, stop, inner, pos, text, rfl, hinner⟩ := Grammar.Rule.form_of_reads hd
  cases hlaid with
  | phrase _ _ hstatements _ _ =>
    have hend : Checks cs (Offending [.word .endOfInput pos text])
        (statements [.word .endOfInput pos text]) := by
      rw [statements]
      exact .word (by decide) (.nil _)
    have hall := statements_checks (fun f hf {_ _} hself => statement_checks (hinner f hf) hself)
      hend hstatements
    have hprogram : Checks cs
        (Fragment.phrase .program start stop (inner ++ [.word .endOfInput pos text])).Offends
        (statements (inner ++ [.word .endOfInput pos text])) := .phrase (by decide) hall
    rw [program]
    exact .last hprogram _

end Build

/-- Parsing checks a text that the grammar reads for what offends in it, and reports the offence
that ends first. A text that the grammar does not read is refused for that reason alone, whatever
offends in it. -/
theorem parse_reports_earliest (source : String) :
    (∀ log, Rule.program.read source.toList = .error log → ∃ expected found,
      parse source = .error ⟨.unexpectedToken expected found, ⟨log.pos, log.pos⟩⟩) ∧
    ∀ fs, Rule.program.read source.toList = .ok fs →
      ((∃ t, parse source = .ok t) ↔ ∀ g, ¬Offending fs g) ∧
      ((∃ g, Offending fs g) → ∃ e g, parse source = .error e ∧ Offending fs g ∧
        e.Reports source.toList g ∧
          ∀ g', Offending fs g' → g' = g ∨ g.span.stop < g'.span.stop) := by
  refine ⟨fun log hlog => ?_, fun fs hfs => ?_⟩
  · rw [parse_eq, hlog]
    exact ⟨_, _, rfl⟩
  · have hchecks := Build.program_checks hfs
    rw [parse_eq, hfs]
    dsimp only
    cases hprogram : Build.program fs with
    | ok t =>
      rw [hprogram] at hchecks
      refine ⟨⟨fun _ => hchecks, fun _ => ⟨t, rfl⟩⟩, ?_⟩
      rintro ⟨g, hg⟩
      exact absurd hg (hchecks g)
    | error e =>
      rw [hprogram] at hchecks
      obtain ⟨g, hg, hreports, hfirst⟩ := hchecks
      refine ⟨iff_of_false ?_ fun hnone => hnone g hg, fun _ => ⟨e, g, rfl, hg, hreports, hfirst⟩⟩
      rintro ⟨t, ⟨⟩⟩

-- the first operator is fine, and the number offends only behind the second operator
example : parse "x = ((y))++ + (y++)++ + 9223372036854775808;" =
    .error ⟨.invalidIncrementTarget .increment, ⟨15, 21⟩⟩ := by cbv

end IntScript
