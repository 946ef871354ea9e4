import IntScript.Proofs.Parse.Located
import IntScript.Proofs.Parse.Offences
import Mathlib.Order.MinMax

/-!
# Where parsing points

Spans count bytes, so an end of a span might lie inside a character or behind the text. No span that
comes out of parsing does: every fragment begins and ends at places that the reading came to, the
spans of grouped operands are combined from those of fragments, and errors point at fragments,
operands or the place where the reading failed.
-/

namespace IntScript

/-- A byte offset of a text that lies between two characters, or before or behind all of them. -/
def Text.IsPlace (cs : List Char) (n : Nat) : Prop :=
  ∃ before after, cs = before ++ after ∧ Text.byteLength before = n

/-- A span whose ends are places of a text. -/
def Span.In (cs : List Char) (s : Span) : Prop :=
  Text.IsPlace cs s.start ∧ Text.IsPlace cs s.stop

/-- A place of a text lies at most at its end. -/
theorem Text.IsPlace.le {cs : List Char} {n : Nat} (h : Text.IsPlace cs n) :
    n ≤ Text.byteLength cs := by
  obtain ⟨before, after, rfl, rfl⟩ := h
  rw [Text.byteLength_append]
  exact Nat.le_add_right _ _

/-- Spans of a text combine to a span of the text. -/
theorem Span.In.combine {cs : List Char} {a b : Span} (ha : a.In cs) (hb : b.In cs) :
    (a.combine b).In cs := by
  refine ⟨?_, ?_⟩
  · rcases min_choice a.start b.start with h | h <;> rw [Span.combine, h]
    · exact ha.1
    · exact hb.1
  · rcases max_choice a.stop b.stop with h | h <;> rw [Span.combine, h]
    · exact ha.2
    · exact hb.2

namespace Grammar

/-- A cursor in a text stands at a place of the text. -/
theorem Cursor.Before.isPlace {cs : List Char} {c : Cursor} (h : (Cursor.atStart cs).Before c) :
    Text.IsPlace cs c.pos := by
  obtain ⟨before, hsource, hpos⟩ := h
  refine ⟨before, c.rest, hsource, ?_⟩
  rw [hpos]
  exact (Nat.zero_add _).symm

/-- Every fragment of a reading, at any depth, covers a part of the text. -/
theorem Phrase.Reads.span_in {p : Phrase} {c d : Cursor} {fs : List Fragment}
    (h : p.Reads c (some (d, fs))) {cs : List Char} (hc : (Cursor.atStart cs).Before c)
    {f g : Fragment} (hf : f ∈ fs) (hg : Fragment.Within g f) : g.span.In cs := by
  generalize ho : some (d, fs) = o at h
  induction h generalizing d fs f with
  | callWord _ hscan =>
    cases ho
    cases List.mem_singleton.1 hf
    cases hg
    exact ⟨hc.isPlace, (hc.trans (Cursor.before_past hscan)).isPlace⟩
  | callPhrase _ h ih =>
    cases ho
    cases List.mem_singleton.1 hf
    cases hg with
    | self => exact ⟨hc.isPlace, (hc.trans (Phrase.before_of_reads h rfl)).isPlace⟩
    | inner hf hg => exact ih hc hf hg rfl
  | callSilent _ _ ih => exact ih hc hf hg ho
  | seq hp _ ihp ihq =>
    cases ho
    rcases List.mem_append.1 hf with hf | hf
    · exact ihp hc hf hg rfl
    · have hd := hc.trans (Phrase.before_of_reads hp rfl)
      exact ihq (hd.trans (Cursor.before_skip _)) hf hg rfl
  | altFirst _ ihp => exact ihp hc hf hg ho
  | altSecond _ _ _ ihq => exact ihq hc hf hg ho
  | opt _ ihp => exact ihp hc hf hg ho
  | many _ hp _ ihp ihm =>
    cases ho
    rcases List.mem_append.1 hf with hf | hf
    · exact ihp hc hf hg rfl
    · exact ihm (hc.trans (Phrase.before_of_reads hp rfl)) hf hg rfl
  | manyOnce _ _ ihp => exact ihp hc hf hg ho
  | more _ hp _ ihp ihm =>
    cases ho
    have hskip := hc.trans (Cursor.before_skip _)
    rcases List.mem_append.1 hf with hf | hf
    · exact ihp hskip hf hg rfl
    · exact ihm (hskip.trans (Phrase.before_of_reads hp rfl)) hf hg rfl
  | moreOnce _ _ ihp => exact ihp (hc.trans (Cursor.before_skip _)) hf hg ho
  | start | word | notAhead | optNone | manyNone | moreNone =>
    cases ho
    cases hf
  | startElsewhere | noWord | ahead | callNoWord | callNoPhrase | seqFirst | seqSecond => cases ho

end Grammar

/-- All nodes of a tree have labels of a kind. -/
def Tree.Labels {α : Type} (Q : α → Prop) (t : Tree α) : Prop := ∀ n ∈ t.nodes, Q n.label

/-- The labels of a tree are that of its root and those of its children. -/
theorem Tree.labels_iff {α : Type} {Q : α → Prop} {t : Tree α} :
    t.Labels Q ↔ Q t.label ∧ ∀ s ∈ t.subtrees, s.Labels Q :=
  Tree.forall_nodes_iff

/-- What is asked of the results of a computation; its errors have to point at spans of a kind. -/
def Points {α : Type} (Q : Span → Prop) (results : α → Prop) : Except ParseError α → Prop
  | .ok a => results a
  | .error e => Q e.span

/-- Two steps point where each of them does. -/
theorem Points.bind {α β : Type} {Q : Span → Prop} {results : α → Prop} {results' : β → Prop}
    {first : Except ParseError α} {second : α → Except ParseError β}
    (h : Points Q results first) (h' : ∀ a, results a → Points Q results' (second a)) :
    Points Q results' (first >>= second) := by
  cases first with
  | ok a => exact h' a h
  | error e => exact h

variable {Q : Span → Prop}

namespace Operation

/-- Items whose spans are of a kind. -/
def Item.Points (Q : Span → Prop) : Item → Prop
  | .before _ span | .behind _ span => Q span
  | .operand result => IntScript.Points Q (Tree.Labels Q) result
  | .between _ => True

/-- Waiting operators whose spans are of a kind. -/
def Waiting.Points (Q : Span → Prop) : Waiting → Prop
  | .unary _ span => Q span
  | .binary left _ => left.Labels Q

section Combining

variable (hcombine : ∀ {a b : Span}, Q a → Q b → Q (a.combine b))
include hcombine

/-- A waiting operator with its operand has the combined span. -/
theorem Waiting.Points.apply {w : Waiting} {t : Tree Span} (hw : w.Points Q) (ht : t.Labels Q) :
    (w.apply t).Labels Q := by
  have hlabel : Q t.label := (Tree.labels_iff.1 ht).1
  cases w with
  | unary op span =>
    exact Tree.labels_iff.2 ⟨hcombine hw hlabel, List.forall_mem_singleton.2 ht⟩
  | binary left op =>
    have hleft : Q left.label := (Tree.labels_iff.1 hw).1
    refine Tree.labels_iff.2 ⟨hcombine hleft hlabel, ?_⟩
    exact List.forall_mem_cons.2 ⟨hw, List.forall_mem_singleton.2 ht⟩

/-- Settling combines spans only. -/
theorem settle_points (strength : Nat) {ws : List Waiting} {t : Tree Span}
    (hws : ∀ w ∈ ws, w.Points Q) (ht : t.Labels Q) :
    (∀ w ∈ (settle strength ws t).1, w.Points Q) ∧ (settle strength ws t).2.Labels Q := by
  induction ws generalizing t with
  | nil => exact ⟨hws, ht⟩
  | cons w ws ih =>
    rw [settle]
    split
    · exact ih (fun w hw => hws w (List.mem_cons_of_mem _ hw))
        (Waiting.Points.apply hcombine (hws w List.mem_cons_self) ht)
    · exact ⟨hws, ht⟩

/-- An operator behind an operand points at both together. -/
theorem applyBehind_points (op : UnaryOp) {span : Span} {t : Tree Span} (hspan : Q span)
    (ht : t.Labels Q) : IntScript.Points Q (Tree.Labels Q) (applyBehind op span t) := by
  have hwhole : Q (t.label.combine span) := hcombine (Tree.labels_iff.1 ht).1 hspan
  unfold applyBehind
  dsimp only
  split
  · exact Tree.labels_iff.2 ⟨hwhole, List.forall_mem_singleton.2 ht⟩
  · exact hwhole

/-- Grouping points at combined spans only, or at the start of the text if the row is not
complete. -/
theorem expect_points (hstart : Q ⟨0, 0⟩) {items : List Item} (hitems : ∀ i ∈ items, i.Points Q)
    {ws : List Waiting} (hws : ∀ w ∈ ws, w.Points Q) :
    IntScript.Points Q (Tree.Labels Q) (expectOperand ws items) ∧
      ∀ t : Tree Span, t.Labels Q →
        IntScript.Points Q (Tree.Labels Q) (expectOperator ws t items) := by
  induction items generalizing ws with
  | nil =>
    constructor
    · exact hstart
    · intro t ht
      rw [expectOperator]
      exact (settle_points hcombine 0 hws ht).2
  | cons i items ih =>
    have hi : i.Points Q := hitems i List.mem_cons_self
    have hrest : ∀ j ∈ items, j.Points Q := fun j hj => hitems j (List.mem_cons_of_mem _ hj)
    constructor
    · cases i with
      | before op span =>
        have hwait : (Waiting.unary op span).Points Q := hi
        rw [expectOperand]
        exact (ih hrest (List.forall_mem_cons.2 ⟨hwait, hws⟩)).1
      | operand result =>
        rw [expectOperand]
        exact hi.bind fun t ht => (ih hrest hws).2 t ht
      | behind op span => exact hstart
      | between op => exact hstart
    · intro t ht
      cases i with
      | before op span => exact hstart
      | operand result => exact hstart
      | behind op span =>
        rw [expectOperator]
        exact (applyBehind_points hcombine op hi ht).bind fun u hu => (ih hrest hws).2 u hu
      | between op =>
        obtain ⟨hsettled, hleft⟩ := settle_points hcombine op.strength hws ht
        have hwait : (Waiting.binary (settle op.strength ws t).2 op).Points Q := hleft
        rw [expectOperator]
        exact (ih hrest (List.forall_mem_cons.2 ⟨hwait, hsettled⟩)).1

end Combining

end Operation

namespace Build

open Grammar (Rule Fragment)

/-- All parts of a fragment have spans of a kind. -/
def Spans (Q : Span → Prop) (f : Fragment) : Prop := ∀ g, Fragment.Within g f → Q g.span

/-- The parts of a fragment have spans of a kind if all parts of the fragment have. -/
theorem Spans.inner {r : Rule} {start stop : Nat} {fs : List Fragment}
    (h : Spans Q (.phrase r start stop fs)) {f : Fragment} (hf : f ∈ fs) : Spans Q f :=
  fun g hg => h g (.inner hf hg)

/-- A fragment of an operation points where its operand does, or at itself. -/
theorem item_points {f : Fragment} (hf : Spans Q f) {result : Except ParseError (Tree Span)}
    (h : f.rule.isOperator = false → Points Q (Tree.Labels Q) result) :
    (item f result).Points Q := by
  have hself : Q f.span := hf f .self
  cases hop : f.rule.isOperator with
  | false =>
    rw [item_operand result hop]
    exact h hop
  | true =>
    simp only [Rule.isOperator, Bool.or_eq_true] at hop
    rcases hop with (hbefore | hbehind) | hbetween
    · obtain ⟨op, hitem⟩ := item_before result hbefore
      rw [hitem]
      exact hself
    · obtain ⟨op, hitem⟩ := item_behind result hbehind
      rw [hitem]
      exact hself
    · obtain ⟨op, hitem⟩ := item_between result hbetween
      rw [hitem]
      trivial

/-- A block has the span of a statement. -/
theorem labels_asBlock {t : Tree Span} (h : t.Labels Q) : (asBlock t).Labels Q := by
  have hwrap : (Tree.block t.label [t]).Labels Q := by
    refine Tree.labels_iff.2 ⟨(Tree.labels_iff.1 h).1, ?_⟩
    rw [Tree.subtrees_block]
    exact List.forall_mem_singleton.2 h
  cases t with
  | block a ts => exact h
  | _ => exact hwrap

section Combining

variable (hcombine : ∀ {a b : Span}, Q a → Q b → Q (a.combine b)) (hstart : Q ⟨0, 0⟩)
include hcombine hstart

/-- Expressions point at the spans of their fragments. -/
theorem expression_points {f : Fragment} (hf : f.IsExpression) (hs : Spans Q f) :
    Points Q (Tree.Labels Q) (expression f) := by
  have hself : Q f.span := hs f .self
  induction hf with
  | integer hn hd =>
    rw [expression, number]
    split
    · exact Tree.labels_iff.2 ⟨hself, List.forall_mem_nil _⟩
    · exact hself
  | input =>
    rw [expression]
    exact Tree.labels_iff.2 ⟨hself, List.forall_mem_nil _⟩
  | identifier hi =>
    rw [expression]
    exact Tree.labels_iff.2 ⟨hself, List.forall_mem_nil _⟩
  | assignment hi _ ih =>
    have htarget := hs.inner List.mem_cons_self
    have hvalue := hs.inner (List.mem_cons_of_mem _ List.mem_cons_self)
    rw [expression, expression]
    refine (ih hvalue (hvalue _ .self)).bind fun v hv => Tree.labels_iff.2 ⟨hself, ?_⟩
    refine List.forall_mem_cons.2 ⟨?_, List.forall_mem_singleton.2 hv⟩
    exact Tree.labels_iff.2 ⟨htarget _ .self, List.forall_mem_nil _⟩
  | print _ ih =>
    have hoperand := hs.inner (List.mem_cons_of_mem _ List.mem_cons_self)
    rw [expression]
    refine (ih hoperand (hoperand _ .self)).bind fun t ht => ?_
    exact Tree.labels_iff.2 ⟨hself, List.forall_mem_singleton.2 ht⟩
  | operation _ _ ih =>
    rw [expression, Operation.group, items_eq_map]
    refine (Operation.expect_points hcombine hstart ?_ (List.forall_mem_nil _)).1
    intro i hi
    obtain ⟨f, hf, rfl⟩ := List.mem_map.1 hi
    have hinner := hs.inner hf
    exact item_points hinner fun hop => ih f hf hop hinner (hinner _ .self)

/-- Conditions point at the spans of their fragments. -/
theorem condition_points {f : Fragment} (hf : f.IsExpression) (hs : Spans Q f) :
    Points Q (Tree.Labels Q) (condition f) := by
  refine (expression_points hcombine hstart hf hs).bind fun t ht => ?_
  exact Tree.labels_iff.2 ⟨hs f .self, List.forall_mem_singleton.2 ht⟩

omit hcombine hstart in
/-- Statements one after the other point where each of them does. -/
theorem statements_points {fs : List Fragment}
    (hfs : ∀ f ∈ fs, Points Q (Tree.Labels Q) (statement f)) :
    Points Q (fun ts => ∀ t ∈ ts, t.Labels Q) (statements fs) := by
  induction fs with
  | nil =>
    rw [statements]
    exact List.forall_mem_nil _
  | cons f fs ih =>
    unfold statements
    split
    · exact List.forall_mem_nil _
    · exact List.forall_mem_nil _
    · next he =>
      cases he
      refine (hfs f List.mem_cons_self).bind fun t ht => ?_
      refine (ih fun f hf => hfs f (List.mem_cons_of_mem _ hf)).bind fun ts hts => ?_
      exact List.forall_mem_cons.2 ⟨ht, hts⟩

/-- Statements point at the spans of their fragments. -/
theorem statement_points {f : Fragment} (hf : f.IsStatement) (hs : Spans Q f) :
    Points Q (Tree.Labels Q) (statement f) := by
  have hself : Q f.span := hs f .self
  induction hf with
  | scope _ ih =>
    rw [statement]
    refine (statements_points fun f hf => ?_).bind fun ts hts => Tree.labels_iff.2 ⟨hself, ?_⟩
    · have hinner := hs.inner hf
      exact ih f hf hinner (hinner _ .self)
    · rwa [Tree.subtrees_block]
  | expression he =>
    rw [statement]
    refine (expression_points hcombine hstart he (hs.inner List.mem_cons_self)).bind fun t ht => ?_
    exact Tree.labels_iff.2 ⟨hself, List.forall_mem_singleton.2 ht⟩
  | @ifThen _ _ _ _ c t hc _ iht =>
    have hcond : Spans Q c := hs.inner (by simp)
    have hthen : Spans Q t := hs.inner (by simp)
    rw [statement]
    refine (condition_points hcombine hstart hc hcond).bind fun c hc => ?_
    refine (iht hthen (hthen _ .self)).bind fun t ht => Tree.labels_iff.2 ⟨hself, ?_⟩
    exact List.forall_mem_cons.2 ⟨hc, List.forall_mem_singleton.2 (labels_asBlock ht)⟩
  | @ifElse _ _ _ _ _ _ c t e hc _ _ iht ihe =>
    have hcond : Spans Q c := hs.inner (by simp)
    have hthen : Spans Q t := hs.inner (by simp)
    have helse : Spans Q e := hs.inner (by simp)
    rw [statement]
    refine (condition_points hcombine hstart hc hcond).bind fun c hc => ?_
    refine (iht hthen (hthen _ .self)).bind fun t ht => ?_
    refine (ihe helse (helse _ .self)).bind fun e he => Tree.labels_iff.2 ⟨hself, ?_⟩
    exact List.forall_mem_cons.2 ⟨hc, List.forall_mem_cons.2
      ⟨labels_asBlock ht, List.forall_mem_singleton.2 (labels_asBlock he)⟩⟩
  | @whileLoop _ _ _ _ c b hc _ ihb =>
    have hcond : Spans Q c := hs.inner (by simp)
    have hbody : Spans Q b := hs.inner (by simp)
    rw [statement]
    refine (condition_points hcombine hstart hc hcond).bind fun c hc => ?_
    refine (ihb hbody (hbody _ .self)).bind fun b hb => Tree.labels_iff.2 ⟨hself, ?_⟩
    exact List.forall_mem_cons.2 ⟨hc, List.forall_mem_singleton.2 (labels_asBlock hb)⟩

end Combining

end Build

/-- Parsing points into the text only: the labels of a tree and the span of an error are spans of
the text. -/
theorem parse_points (source : String) :
    Points (Span.In source.toList) (Tree.Labels (Span.In source.toList)) (parse source) := by
  have hstart : Span.In source.toList ⟨0, 0⟩ := ⟨⟨[], _, rfl, rfl⟩, ⟨[], _, rfl, rfl⟩⟩
  rw [parse_eq]
  split
  · next fs hfs =>
    obtain ⟨d, hd⟩ := Grammar.Rule.read_eq_ok_iff.1 hfs
    have hspans : ∀ f ∈ fs, Build.Spans (Span.In source.toList) f :=
      fun f hf g hg => hd.span_in (.refl _) hf hg
    obtain ⟨start, stop, inner, pos, text, rfl, hinner⟩ := Grammar.Rule.form_of_reads hd
    have hprogram := hspans _ List.mem_cons_self
    rw [Build.program]
    refine (Build.statements_points fun f hf => ?_).bind fun ts hts => ?_
    · have hf' := hprogram.inner hf
      rcases List.mem_append.1 hf with hf | hf
      · exact Build.statement_points Span.In.combine hstart (hinner f hf) hf'
      · cases List.mem_singleton.1 hf
        exact hf' _ .self
    · refine Tree.labels_iff.2 ⟨hprogram _ .self, ?_⟩
      rwa [Tree.subtrees_block]
  · next log hlog =>
    obtain ⟨d, -, -, hd, hpos, -⟩ := Grammar.Rule.read_program_error hlog
    have hplace : Text.IsPlace source.toList log.pos := hpos ▸ hd.isPlace
    exact ⟨hplace, hplace⟩

end IntScript
