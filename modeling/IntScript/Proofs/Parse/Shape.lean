import IntScript.Proofs.Grammar.Fragments
import IntScript.Proofs.Parse.Arena
import IntScript.Proofs.Text.Decimal
import Mathlib

/-!
# Parsed trees have the shape of programs

Whatever the text, a tree that comes out of the parser is that of a program. The fragments that the
grammar leaves have the right form, and putting them together keeps to the shape: grouping makes
expressions out of expressions, and branches and bodies become blocks. Its nodes are those that the
parser allocated for it, and none of them is shared.
-/

namespace IntScript

/-- A computation in two steps succeeds if the first step does and then the second. -/
theorem steps_eq_ok {ε α β : Type} {first : Except ε α} {second : α → Except ε β} {b : β}
    (h : first >>= second = .ok b) : ∃ a, first = .ok a ∧ second a = .ok b := by
  cases first with
  | error e => cases h
  | ok a => exact ⟨a, rfl, h⟩

namespace Operation

/-- Items from which only expressions can be made. -/
def Item.IsSound : Item → Prop
  | .before op _ => op.mutates = false
  | .operand result => ∀ t, result = .ok t → t.IsExpression
  | .behind op _ => op.mutates = true
  | .between _ => True

/-- Waiting operators from which only expressions can be made. -/
def Waiting.IsSound : Waiting → Prop
  | .unary op _ => op.mutates = false
  | .binary left _ => left.IsExpression

/-- A waiting operator with its operand is an expression. -/
theorem Waiting.IsSound.apply {w : Waiting} {t : Tree Span} (hw : w.IsSound)
    (ht : t.IsExpression) : (w.apply t).IsExpression := by
  cases w with
  | unary op span => exact .unary hw ht
  | binary left op => exact .binary hw ht

/-- Settling keeps expressions. -/
theorem settle_sound (strength : Nat) {ws : List Waiting} {t : Tree Span}
    (hws : ∀ w ∈ ws, w.IsSound) (ht : t.IsExpression) :
    (∀ w ∈ (settle strength ws t).1, w.IsSound) ∧ (settle strength ws t).2.IsExpression := by
  induction ws generalizing t with
  | nil => exact ⟨hws, ht⟩
  | cons w ws ih =>
    rw [settle]
    split
    · exact ih (fun w hw => hws w (List.mem_cons_of_mem _ hw))
        ((hws w List.mem_cons_self).apply ht)
    · exact ⟨hws, ht⟩

/-- Whether an operand or an operator is expected next, only an expression can come out. -/
theorem expect_sound {items : List Item} (hi : ∀ i ∈ items, i.IsSound) {ws : List Waiting}
    (hws : ∀ w ∈ ws, w.IsSound) :
    (∀ t, expectOperand ws items = .ok t → t.IsExpression) ∧
      ∀ s : Tree Span, s.IsExpression → ∀ t, expectOperator ws s items = .ok t →
        t.IsExpression := by
  induction items generalizing ws with
  | nil =>
    refine ⟨fun t h => ?_, fun s hs t h => ?_⟩
    · simp [expectOperand] at h
    · simp only [expectOperator, Except.ok.injEq] at h
      exact h ▸ (settle_sound 0 hws hs).2
  | cons i items ih =>
    have hi' := hi i List.mem_cons_self
    have hrest : ∀ j ∈ items, j.IsSound := fun j hj => hi j (List.mem_cons_of_mem _ hj)
    refine ⟨fun t h => ?_, fun s hs t h => ?_⟩
    · cases i with
      | before op span =>
        rw [expectOperand] at h
        refine (ih hrest ?_).1 t h
        exact List.forall_mem_cons.2 ⟨hi', hws⟩
      | operand result =>
        rw [expectOperand] at h
        obtain ⟨s, hs, h⟩ := steps_eq_ok h
        exact (ih hrest hws).2 s (hi' s hs) t h
      | behind op span => simp [expectOperand] at h
      | between op => simp [expectOperand] at h
    · cases i with
      | before op span => simp [expectOperator] at h
      | operand result => simp [expectOperator] at h
      | behind op span =>
        rw [expectOperator] at h
        obtain ⟨u, hu, h⟩ := steps_eq_ok h
        refine (ih hrest hws).2 u ?_ t h
        cases hs <;> simp only [applyBehind, Tree.kind, reduceCtorEq, Except.ok.injEq] at hu
        next hn => exact hu ▸ .change hi' hn
      | between op =>
        rw [expectOperator] at h
        obtain ⟨hwait, hleft⟩ := settle_sound op.strength hws hs
        refine (ih hrest ?_).1 t h
        exact List.forall_mem_cons.2 ⟨hleft, hwait⟩

end Operation

namespace Build

open Grammar (Rule Fragment)

/-- The parts of an operation are made from its fragments one by one. -/
theorem items_eq_map (fs : List Fragment) : items fs = fs.map fun f => item f (expression f) := by
  induction fs with
  | nil => rfl
  | cons f fs ih => rw [items, ih, List.map_cons]

/-- Operators before an operand do not change it. -/
theorem operatorBefore?_mutates {r : Rule} {op : UnaryOp} (h : operatorBefore? r = some op) :
    op.mutates = false := by
  cases r <;> cases h <;> rfl

/-- Operators behind an operand change it. -/
theorem operatorBehind?_mutates {r : Rule} {op : UnaryOp} (h : operatorBehind? r = some op) :
    op.mutates = true := by
  cases r <;> cases h <;> rfl

/-- A fragment of an operation is a sound item if it is an operator or a sound operand. -/
theorem item_sound {f : Fragment} {result : Except ParseError (Tree Span)}
    (h : f.rule.isOperator = false → ∀ t, result = .ok t → t.IsExpression) :
    (item f result).IsSound := by
  unfold item
  cases hbefore : operatorBefore? f.rule with
  | some op => exact operatorBefore?_mutates hbefore
  | none =>
    cases hbehind : operatorBehind? f.rule with
    | some op => exact operatorBehind?_mutates hbehind
    | none =>
      cases hbetween : operatorBetween? f.rule with
      | some op => trivial
      | none =>
        refine h ?_
        rw [Rule.isOperator, hbefore, hbehind, hbetween]
        rfl

/-- The tree of an expression is an expression. -/
theorem expression_sound {f : Fragment} (hf : f.IsExpression) {t : Tree Span}
    (h : expression f = .ok t) : t.IsExpression := by
  induction hf generalizing t with
  | integer hn hd =>
    rw [expression, number] at h
    split at h <;> cases h
    next hv => exact .literal (Decimal.toInt_nonneg_of_digits hn hd hv)
  | input =>
    rw [expression] at h
    cases h
    exact .input
  | identifier hi =>
    rw [expression] at h
    cases h
    exact .var (by rwa [String.toList_ofList])
  | assignment hi _ ih =>
    rw [expression, expression] at h
    obtain ⟨target, ht, h⟩ := steps_eq_ok h
    obtain ⟨v, hv, h⟩ := steps_eq_ok h
    cases ht
    cases h
    exact .assign (by rwa [String.toList_ofList]) (ih hv)
  | print _ ih =>
    rw [expression] at h
    obtain ⟨v, hv, h⟩ := steps_eq_ok h
    cases h
    exact .print (ih hv)
  | @operation start stop fs _ _ ih =>
    rw [expression, Operation.group, items_eq_map] at h
    refine (Operation.expect_sound ?_ ?_).1 t h
    · intro i hi
      obtain ⟨f, hf, rfl⟩ := List.mem_map.1 hi
      exact item_sound fun hop t ht => ih f hf hop ht
    · intro w hw
      cases hw

/-- The tree of a condition is a condition. -/
theorem condition_sound {f : Fragment} (hf : f.IsExpression) {t : Tree Span}
    (h : condition f = .ok t) : ∃ a e, t = .condition a e ∧ e.IsExpression := by
  obtain ⟨e, he, h⟩ := steps_eq_ok h
  cases h
  exact ⟨_, e, rfl, expression_sound hf he⟩

/-- A statement becomes a block of statements. -/
theorem asBlock_sound {t : Tree Span} (ht : t.IsStatement) :
    ∃ a ts, asBlock t = .block a ts ∧ (Tree.block a ts).IsStatement := by
  cases ht with
  | block hts => exact ⟨_, _, rfl, .block hts⟩
  | expression he => exact ⟨_, _, rfl, .block (List.forall_mem_singleton.2 (.expression he))⟩
  | ifThen he hts => exact ⟨_, _, rfl, .block (List.forall_mem_singleton.2 (.ifThen he hts))⟩
  | ifElse he hts hes =>
    exact ⟨_, _, rfl, .block (List.forall_mem_singleton.2 (.ifElse he hts hes))⟩
  | whileLoop he hts =>
    exact ⟨_, _, rfl, .block (List.forall_mem_singleton.2 (.whileLoop he hts))⟩

/-- The trees of statements are statements if each is; the end of the input leaves none. -/
theorem statements_sound {fs : List Fragment}
    (hfs : ∀ f ∈ fs, ∀ t, statement f = .ok t → t.IsStatement) {ts : List (Tree Span)}
    (h : statements fs = .ok ts) : ∀ t ∈ ts, t.IsStatement := by
  induction fs generalizing ts with
  | nil =>
    rw [statements] at h
    cases h
    intro t ht
    cases ht
  | cons f fs ih =>
    unfold statements at h
    split at h
    · next he => cases he
    · cases h
      intro t ht
      cases ht
    · next he =>
      cases he
      obtain ⟨t, ht, h⟩ := steps_eq_ok h
      obtain ⟨us, hus, h⟩ := steps_eq_ok h
      cases h
      have hrest := ih (fun f hf => hfs f (List.mem_cons_of_mem _ hf)) hus
      exact List.forall_mem_cons.2 ⟨hfs f List.mem_cons_self t ht, hrest⟩

/-- The tree of a statement is a statement. -/
theorem statement_sound {f : Fragment} (hf : f.IsStatement) {t : Tree Span}
    (h : statement f = .ok t) : t.IsStatement := by
  induction hf generalizing t with
  | scope _ ih =>
    rw [statement] at h
    obtain ⟨ts, hts, h⟩ := steps_eq_ok h
    cases h
    exact .block (statements_sound (fun f hf t ht => ih f hf ht) hts)
  | expression he =>
    rw [statement] at h
    obtain ⟨e, he', h⟩ := steps_eq_ok h
    cases h
    exact .expression (expression_sound he he')
  | ifThen hc _ iht =>
    rw [statement] at h
    obtain ⟨c, hc', h⟩ := steps_eq_ok h
    obtain ⟨s, hs, h⟩ := steps_eq_ok h
    cases h
    obtain ⟨a, e, rfl, he⟩ := condition_sound hc hc'
    obtain ⟨b, ts, heq, hts⟩ := asBlock_sound (iht hs)
    rw [heq]
    exact .ifThen he hts
  | ifElse hc _ _ iht ihe =>
    rw [statement] at h
    obtain ⟨c, hc', h⟩ := steps_eq_ok h
    obtain ⟨s, hs, h⟩ := steps_eq_ok h
    obtain ⟨s', hs', h⟩ := steps_eq_ok h
    cases h
    obtain ⟨a, e, rfl, he⟩ := condition_sound hc hc'
    obtain ⟨b, ts, heq, hts⟩ := asBlock_sound (iht hs)
    obtain ⟨b', ts', heq', hts'⟩ := asBlock_sound (ihe hs')
    rw [heq, heq']
    exact .ifElse he hts hts'
  | whileLoop hc _ ihb =>
    rw [statement] at h
    obtain ⟨c, hc', h⟩ := steps_eq_ok h
    obtain ⟨s, hs, h⟩ := steps_eq_ok h
    cases h
    obtain ⟨a, e, rfl, he⟩ := condition_sound hc hc'
    obtain ⟨b, ts, heq, hts⟩ := asBlock_sound (ihb hs)
    rw [heq]
    exact .whileLoop he hts

end Build

/-- A parsed tree is that of a program. -/
theorem parse_isProgram {source : String} {t : Tree Span} (h : parse source = .ok t) :
    t.IsProgram := by
  rw [parse_eq] at h
  split at h
  · next fs hfs =>
    obtain ⟨d, hd⟩ := Grammar.Rule.read_eq_ok_iff.1 hfs
    obtain ⟨start, stop, inner, pos, text, rfl, hinner⟩ := Grammar.Rule.form_of_reads hd
    obtain ⟨ts, hts, h⟩ := steps_eq_ok h
    cases h
    refine ⟨_, ts, rfl, Build.statements_sound ?_ hts⟩
    intro f hf t ht
    rcases List.mem_append.1 hf with hf | hf
    · exact Build.statement_sound (hinner f hf) ht
    · cases List.mem_singleton.1 hf
      cases ht
  · cases h

/-- Whatever the text, a parsed tree is that of a program, and the nodes that the parser allocated for
it have one place each: none of them is shared. -/
theorem parse_wellShaped {source : String} {t : Tree Span} (h : parse source = .ok t) :
    t.IsProgram ∧ ∃ root, parseNodes source = .ok root ∧ root.unmarked = t ∧ root.Unshared := by
  obtain ⟨root, hnodes, hroot⟩ := exists_parseNodes h
  exact ⟨parse_isProgram h, root, hnodes, hroot, parseNodes_unshared hnodes⟩

/-- A branch whose first part gets a block and whose second part is one already is parsed into such
a tree. -/
theorem parse_wellShaped_branch :
    ∃ t, parse "if(?)x=-1;else{x++;}" = .ok t ∧ t.IsProgram ∧
      ∃ root, parseNodes "if(?)x=-1;else{x++;}" = .ok root ∧ root.unmarked = t ∧
        root.Unshared := by
  have hok : (parse "if(?)x=-1;else{x++;}").isOk = true := by cbv
  cases h : parse "if(?)x=-1;else{x++;}" with
  | ok t => exact ⟨t, rfl, parse_wellShaped h⟩
  | error e =>
    rw [h] at hok
    cases hok

end IntScript
