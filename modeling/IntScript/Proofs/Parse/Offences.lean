import IntScript.Proofs.Parse.Shape

/-!
# What can be wrong with a text

A text that the grammar refuses is reported with what was expected. A text that the grammar reads
can offend in two ways only: a number does not fit in 64 bits, or something other than a variable is
incremented or decremented. In particular the fragments that the grammar leaves are always those
that the trees are built from, and the rows that are handed over for grouping are complete: they
begin with an operand or an operator before one, and the grouping uses them up to the end.
-/

namespace IntScript

/-- The errors of a text that the grammar reads. -/
def ParseError.IsOffence (e : ParseError) : Prop :=
  (∃ text, e.cause = .invalidNumber text) ∨ ∃ op, e.cause = .invalidIncrementTarget op

/-- Every failure of a computation is an offence. -/
def OffendsOnly {α : Type} (x : Except ParseError α) : Prop := ∀ e, x = .error e → e.IsOffence

namespace OffendsOnly

variable {α β : Type}

/-- A result is no failure. -/
theorem ok (a : α) : OffendsOnly (.ok a) := nofun

/-- Two steps only offend if each of them does. -/
theorem bind {first : Except ParseError α} {second : α → Except ParseError β}
    (h : OffendsOnly first) (h' : ∀ a, OffendsOnly (second a)) : OffendsOnly (first >>= second) := by
  cases first with
  | ok a => exact h' a
  | error e =>
    intro e' he'
    cases he'
    exact h e rfl

/-- A result passed through a function. -/
theorem map {x : Except ParseError α} (h : OffendsOnly x) (f : α → β) :
    OffendsOnly (x >>= fun a => pure (f a)) :=
  h.bind fun a => .ok (f a)

end OffendsOnly

namespace Operation

/-- Whether a row is used up by grouping, whatever its operands are: where an operand is expected,
there is one or an operator before one, and behind an operand there is an operator behind it or
between it and the next one, or the end. -/
def isComplete : (operandExpected : Bool) → List Item → Bool
  | true, .before _ _ :: items => isComplete true items
  | true, .operand _ :: items => isComplete false items
  | false, .behind _ _ :: items => isComplete false items
  | false, .between _ :: items => isComplete true items
  | false, [] => true
  | _, _ => false

/-- Items that leave open what is expected next are passed over. -/
theorem isComplete_append {operandExpected : Bool} {passed : List Item}
    (h : ∀ i ∈ passed, ∀ items,
      isComplete operandExpected (i :: items) = isComplete operandExpected items)
    (items : List Item) :
    isComplete operandExpected (passed ++ items) = isComplete operandExpected items := by
  induction passed with
  | nil => rfl
  | cons i passed ih =>
    rw [List.cons_append, h i List.mem_cons_self]
    exact ih fun j hj => h j (List.mem_cons_of_mem _ hj)

/-- An operator behind an operand only offends. -/
theorem offendsOnly_applyBehind (op : UnaryOp) (span : Span) (t : Tree Span) :
    OffendsOnly (applyBehind op span t) := by
  intro e he
  unfold applyBehind at he
  dsimp only at he
  split at he
  · cases he
  · cases he
    exact .inr ⟨op, rfl⟩

/-- Grouping a complete row only offends if its operands do. -/
theorem offendsOnly_expect {items : List Item}
    (hitems : ∀ result, .operand result ∈ items → OffendsOnly result) {ws : List Waiting} :
    (isComplete true items = true → OffendsOnly (expectOperand ws items)) ∧
      ∀ t, isComplete false items = true → OffendsOnly (expectOperator ws t items) := by
  induction items generalizing ws with
  | nil => exact ⟨nofun, fun t _ => .ok _⟩
  | cons i items ih =>
    have hrest : ∀ result, .operand result ∈ items → OffendsOnly result :=
      fun result hresult => hitems result (List.mem_cons_of_mem _ hresult)
    constructor
    · intro h
      cases i with
      | before op span => exact (ih hrest).1 h
      | operand result =>
        exact (hitems result List.mem_cons_self).bind fun t => (ih hrest).2 t h
      | behind op span => cases h
      | between op => cases h
    · intro t h
      cases i with
      | before op span => cases h
      | operand result => cases h
      | behind op span => exact (offendsOnly_applyBehind op span t).bind fun u => (ih hrest).2 u h
      | between op => exact (ih hrest).1 h

end Operation

namespace Build

open Grammar (Rule Fragment IsOperandRow IsRow)
open Operation (Item isComplete)

section Items

variable {f : Fragment} (operand : Except ParseError (Tree Span))

/-- A fragment of an operator before an operand becomes such an operator. -/
theorem item_before (h : (operatorBefore? f.rule).isSome = true) :
    ∃ op, item f operand = .before op f.span := by
  obtain ⟨op, hop⟩ := Option.isSome_iff_exists.1 h
  exact ⟨op, by rw [item, hop]⟩

/-- A fragment of an operator behind an operand becomes that operator. -/
theorem item_eq_behind {op : UnaryOp} (h : operatorBehind? f.rule = some op) :
    item f operand = .behind op f.span := by
  have hbefore : ∀ r op, operatorBehind? r = some op → operatorBefore? r = none := by
    intro r op hop
    cases r <;> cases hop <;> rfl
  rw [item, hbefore _ _ h, h]

/-- A fragment of an operator behind an operand becomes such an operator. -/
theorem item_behind (h : (operatorBehind? f.rule).isSome = true) :
    ∃ op, item f operand = .behind op f.span := by
  obtain ⟨op, hop⟩ := Option.isSome_iff_exists.1 h
  exact ⟨op, item_eq_behind operand hop⟩

/-- A fragment of an operator between operands becomes such an operator. -/
theorem item_between (h : (operatorBetween? f.rule).isSome = true) :
    ∃ op, item f operand = .between op := by
  have hbefore : ∀ r op, operatorBetween? r = some op →
      operatorBefore? r = none ∧ operatorBehind? r = none := by
    intro r op hop
    cases r <;> cases hop <;> exact ⟨rfl, rfl⟩
  obtain ⟨op, hop⟩ := Option.isSome_iff_exists.1 h
  obtain ⟨hnone, hnone'⟩ := hbefore _ _ hop
  exact ⟨op, by rw [item, hnone, hnone', hop]⟩

/-- Any other fragment becomes an operand. -/
theorem item_operand (h : f.rule.isOperator = false) : item f operand = .operand operand := by
  simp only [Rule.isOperator, Bool.or_eq_false_iff, Option.isSome_eq_false_iff,
    Option.isNone_iff_eq_none] at h
  obtain ⟨⟨hbefore, hbehind⟩, hbetween⟩ := h
  rw [item, hbefore, hbehind, hbetween]

/-- Only such a fragment becomes an operand. -/
theorem of_item_eq_operand {result : Except ParseError (Tree Span)}
    (h : item f operand = .operand result) : f.rule.isOperator = false ∧ operand = result := by
  cases hop : f.rule.isOperator with
  | false =>
    rw [item_operand operand hop] at h
    cases h
    exact ⟨rfl, rfl⟩
  | true =>
    simp only [Rule.isOperator, Bool.or_eq_true] at hop
    rcases hop with (hbefore | hbehind) | hbetween
    · obtain ⟨op, hitem⟩ := item_before operand hbefore
      rw [hitem] at h
      cases h
    · obtain ⟨op, hitem⟩ := item_behind operand hbehind
      rw [hitem] at h
      cases h
    · obtain ⟨op, hitem⟩ := item_between operand hbetween
      rw [hitem] at h
      cases h

end Items

/-- An operand with its operators leaves its place to an operator. -/
theorem isComplete_operandRow (operands : Fragment → Except ParseError (Tree Span))
    {fs : List Fragment} (h : IsOperandRow fs) (items : List Item) :
    isComplete true (fs.map (fun f => item f (operands f)) ++ items) = isComplete false items := by
  obtain ⟨before, f, behind, rfl, hbefore, hf, hbehind⟩ := h
  rw [List.map_append, List.map_cons, List.append_assoc, List.cons_append, item_operand _ hf,
    Operation.isComplete_append, isComplete, Operation.isComplete_append]
  · intro i hi items
    obtain ⟨g, hg, rfl⟩ := List.mem_map.1 hi
    obtain ⟨op, hop⟩ := item_behind (operands g) (hbehind g hg)
    rw [hop, isComplete]
  · intro i hi items
    obtain ⟨g, hg, rfl⟩ := List.mem_map.1 hi
    obtain ⟨op, hop⟩ := item_before (operands g) (hbefore g hg)
    rw [hop, isComplete]

/-- The rows of the grammar are complete, whatever becomes of their operands. -/
theorem isComplete_row (operands : Fragment → Except ParseError (Tree Span))
    {fs : List Fragment} (h : IsRow fs) :
    isComplete true (fs.map fun f => item f (operands f)) = true := by
  induction h with
  | @operand fs h =>
    have hrow := isComplete_operandRow operands h []
    rwa [List.append_nil] at hrow
  | @between fs gs f h hf _ ih =>
    obtain ⟨op, hop⟩ := item_between (operands f) hf
    rw [List.map_append, List.map_cons, isComplete_operandRow operands h, hop, isComplete]
    exact ih

/-- Expressions only offend. -/
theorem offendsOnly_expression {f : Fragment} (hf : f.IsExpression) :
    OffendsOnly (expression f) := by
  induction hf with
  | @integer pos text hn hd =>
    intro e he
    rw [expression, number] at he
    split at he
    · cases he
    · cases he
      exact .inl ⟨_, rfl⟩
  | input =>
    rw [expression]
    exact .ok _
  | identifier hi =>
    rw [expression]
    exact .ok _
  | assignment hi _ ih =>
    rw [expression, expression]
    exact (OffendsOnly.ok _).bind fun t => ih.map _
  | print _ ih =>
    rw [expression]
    exact ih.map _
  | @operation start stop fs hr _ ih =>
    rw [expression, Operation.group, items_eq_map]
    refine (Operation.offendsOnly_expect ?_).1 (isComplete_row expression hr)
    intro result hresult
    obtain ⟨f, hf, hitem⟩ := List.mem_map.1 hresult
    obtain ⟨hop, rfl⟩ := of_item_eq_operand _ hitem
    exact ih f hf hop

/-- Conditions only offend. -/
theorem offendsOnly_condition {f : Fragment} (hf : f.IsExpression) :
    OffendsOnly (condition f) :=
  (offendsOnly_expression hf).map _

/-- Statements one after the other only offend if each of them does. -/
theorem offendsOnly_statements {fs : List Fragment}
    (hfs : ∀ f ∈ fs, OffendsOnly (statement f)) {rest : List Fragment}
    (hrest : OffendsOnly (statements rest)) : OffendsOnly (statements (fs ++ rest)) := by
  induction fs with
  | nil => exact hrest
  | cons f fs ih =>
    rw [List.cons_append]
    unfold statements
    split
    · exact .ok _
    · exact .ok _
    · next he =>
      cases he
      refine (hfs f List.mem_cons_self).bind fun t => OffendsOnly.map ?_ _
      exact ih fun f hf => hfs f (List.mem_cons_of_mem _ hf)

/-- Statements only offend. -/
theorem offendsOnly_statement {f : Fragment} (hf : f.IsStatement) :
    OffendsOnly (statement f) := by
  induction hf with
  | @scope start stop fs _ ih =>
    rw [statement]
    have hnone : OffendsOnly (statements []) := by
      rw [statements]
      exact .ok _
    have hinner := offendsOnly_statements ih hnone
    rw [List.append_nil] at hinner
    exact hinner.map _
  | expression he =>
    rw [statement]
    exact (offendsOnly_expression he).map _
  | ifThen hc _ iht =>
    rw [statement]
    exact (offendsOnly_condition hc).bind fun c => iht.map _
  | ifElse hc _ _ iht ihe =>
    rw [statement]
    exact (offendsOnly_condition hc).bind fun c => iht.bind fun t => ihe.map _
  | whileLoop hc _ ihb =>
    rw [statement]
    exact (offendsOnly_condition hc).bind fun c => ihb.map _

/-- A text that the grammar reads can only offend. -/
theorem offendsOnly_program {source : List Char} {fs : List Fragment}
    (h : Rule.program.read source = .ok fs) : OffendsOnly (program fs) := by
  obtain ⟨d, hd⟩ := Grammar.Rule.read_eq_ok_iff.1 h
  obtain ⟨start, stop, inner, pos, text, rfl, hinner⟩ := Grammar.Rule.form_of_reads hd
  have hend : OffendsOnly (statements [.word .endOfInput pos text]) := by
    rw [statements]
    exact .ok _
  rw [program]
  exact (offendsOnly_statements (fun f hf => offendsOnly_statement (hinner f hf)) hend).map _

end Build

namespace Grammar

/-- A fragment is a part of another one, at any depth, or that fragment itself. -/
inductive Fragment.Within (f : Fragment) : Fragment → Prop
  | self : Within f f
  | inner {r : Rule} {start stop : Nat} {gs : List Fragment} {g : Fragment} (hg : g ∈ gs)
      (h : Within f g) : Within f (.phrase r start stop gs)

/-- Every operation in a reading is a row of operands. -/
theorem Phrase.Reads.isRow {p : Phrase} {c d : Cursor} {fs : List Fragment}
    (h : p.Reads c (some (d, fs))) {f : Fragment} (hf : f ∈ fs) {start stop : Nat}
    {inner : List Fragment} (hw : Fragment.Within (.phrase .operation start stop inner) f) :
    IsRow inner := by
  generalize ho : some (d, fs) = o at h
  induction h generalizing d fs f with
  | callWord _ _ =>
    cases ho
    cases List.mem_singleton.1 hf
    cases hw
  | callPhrase hr h ih =>
    cases ho
    cases List.mem_singleton.1 hf
    cases hw with
    | self =>
      obtain ⟨g, hg, hexpression⟩ := Rule.form_of_reads (.callPhrase hr h)
      cases hg
      cases hexpression with
      | operation hrow _ => exact hrow
    | inner hg hw => exact ih hg hw rfl
  | callSilent _ _ ih => exact ih hf hw ho
  | seq _ _ ihp ihq =>
    cases ho
    rcases List.mem_append.1 hf with hf | hf
    · exact ihp hf hw rfl
    · exact ihq hf hw rfl
  | altFirst _ ihp => exact ihp hf hw ho
  | altSecond _ _ _ ihq => exact ihq hf hw ho
  | opt _ ihp => exact ihp hf hw ho
  | many _ _ _ ihp ihm | more _ _ _ ihp ihm =>
    cases ho
    rcases List.mem_append.1 hf with hf | hf
    · exact ihp hf hw rfl
    · exact ihm hf hw rfl
  | manyOnce _ _ ihp | moreOnce _ _ ihp => exact ihp hf hw ho
  | start | word | notAhead | optNone | manyNone | moreNone =>
    cases ho
    cases hf
  | startElsewhere | noWord | ahead | callNoWord | callNoPhrase | seqFirst | seqSecond => cases ho

end Grammar

/-- The trees are built from what the grammar leaves. Whatever the text, parsing gives a tree, or it
fails because something else was expected, because a number does not fit, or because something other
than a variable is incremented or decremented. What the grammar leaves has the form of a program,
and every row that is handed over for grouping is complete: it is not empty, has operands where they
are expected and is used up to its end. -/
theorem parse_offends_only (source : String) :
    ((∃ t, parse source = .ok t) ∨ ∃ e, parse source = .error e ∧
      ((∃ expected found, e.cause = .unexpectedToken expected found) ∨
        (∃ text, e.cause = .invalidNumber text) ∨ ∃ op, e.cause = .invalidIncrementTarget op)) ∧
    ∀ fs, Grammar.Rule.program.read source.toList = .ok fs →
      Grammar.Rule.program.Form fs ∧ ∀ f ∈ fs, ∀ start stop inner,
        Grammar.Fragment.Within (.phrase .operation start stop inner) f →
          Operation.isComplete true (Build.items inner) = true := by
  constructor
  · cases hparse : parse source with
    | ok t => exact .inl ⟨t, rfl⟩
    | error e =>
      refine .inr ⟨e, rfl, ?_⟩
      rw [parse_eq] at hparse
      split at hparse
      · next fs hfs => exact .inr (Build.offendsOnly_program hfs e hparse)
      · cases hparse
        exact .inl ⟨_, _, rfl⟩
  · intro fs hfs
    obtain ⟨d, hd⟩ := Grammar.Rule.read_eq_ok_iff.1 hfs
    refine ⟨Grammar.Rule.form_of_reads hd, fun f hf start stop inner hw => ?_⟩
    rw [Build.items_eq_map]
    exact Build.isComplete_row Build.expression (hd.isRow hf hw)

end IntScript
