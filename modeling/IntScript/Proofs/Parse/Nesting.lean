import IntScript.Proofs.Grammar.Layout
import IntScript.Proofs.Parse.Spans

/-!
# Spans nest

The spans of a parsed tree are nested as its nodes are. The root covers the whole text, every other
node takes some of it, the children of a node stand one behind the other inside the span of the
node, and the text of a leaf is what the leaf stands for.

The spans come from three sources: fragments, whose spans may take in the space behind them; the
spans of operands that are combined where operators are applied, from which parentheses have
vanished; and statements that are wrapped into blocks of the same span. All of them keep to the
order of the text.
-/

namespace IntScript

/-- Spans that stand one behind the other between two places, none of them empty. -/
def Span.InRow : Nat → List Span → Nat → Prop
  | lo, [], hi => lo ≤ hi
  | lo, s :: ss, hi => lo ≤ s.start ∧ s.start < s.stop ∧ InRow s.stop ss hi

/-- A row of spans takes up the room between two places. -/
theorem Span.InRow.le {lo hi : Nat} {ss : List Span} (h : Span.InRow lo ss hi) : lo ≤ hi := by
  induction ss generalizing lo with
  | nil => exact h
  | cons s ss ih =>
    obtain ⟨hlo, htakes, hss⟩ := h
    have hle := ih hss
    omega

/-- There may be more space before a row. -/
theorem Span.InRow.from_le {lo lo' hi : Nat} {ss : List Span} (h : Span.InRow lo ss hi)
    (hlo : lo' ≤ lo) : Span.InRow lo' ss hi := by
  cases ss with
  | nil => exact Nat.le_trans hlo h
  | cons s ss => exact ⟨Nat.le_trans hlo h.1, h.2⟩

/-- Every span of a row takes some room between the two places. -/
theorem Span.InRow.mem {lo hi : Nat} {ss : List Span} (h : Span.InRow lo ss hi) {s : Span}
    (hs : s ∈ ss) : lo ≤ s.start ∧ s.start < s.stop ∧ s.stop ≤ hi := by
  induction ss generalizing lo with
  | nil => cases hs
  | cons r ss ih =>
    obtain ⟨hlo, htakes, hss⟩ := h
    rcases List.mem_cons.1 hs with rfl | hs
    · exact ⟨hlo, htakes, hss.le⟩
    · obtain ⟨hlo', htakes', hhi'⟩ := ih hss hs
      exact ⟨by omega, htakes', hhi'⟩

/-- The spans of a row do not overlap and are in order. -/
theorem Span.InRow.pairwise {lo hi : Nat} {ss : List Span} (h : Span.InRow lo ss hi) :
    ss.Pairwise fun s s' => s.stop ≤ s'.start := by
  induction ss generalizing lo with
  | nil => exact .nil
  | cons s ss ih =>
    obtain ⟨-, -, hss⟩ := h
    exact .cons (fun s' hs' => (hss.mem hs').1) (ih hss)

namespace Tree

/-- The text of a leaf is the leaf itself: the name of a variable, digits of a number or the mark of
an input. -/
def IsSpelled (cs : List Char) : Tree Span → Prop
  | .literal span v =>
    span.textIn cs ≠ [] ∧ (span.textIn cs).all Char.isDigit = true ∧
      (Decimal.value (span.textIn cs) : Int) = v.toInt
  | .input span => span.textIn cs = ['?']
  | .var span name => span.textIn cs = name.toList
  | _ => True

/-- The children of a node stand one behind the other in its span, and leaves are spelled out. -/
structure Nests (cs : List Char) (t : Tree Span) : Prop where
  /-- The children stand one behind the other inside the span. -/
  children : Span.InRow t.label.start (t.subtrees.map label) t.label.stop
  /-- A leaf is spelled out. -/
  leaf : t.IsSpelled cs

/-- A tree that takes some room between two places, with nodes that all nest. -/
structure Between (cs : List Char) (lo hi : Nat) (t : Tree Span) : Prop where
  /-- The tree begins behind the first place. -/
  lower : lo ≤ t.label.start
  /-- The tree takes some room. -/
  takes : t.label.start < t.label.stop
  /-- The tree ends before the second place. -/
  upper : t.label.stop ≤ hi
  /-- All nodes nest. -/
  nest : ∀ n ∈ t.nodes, n.Nests cs

/-- Trees that stand one behind the other between two places. -/
def InRow (cs : List Char) : Nat → List (Tree Span) → Nat → Prop
  | lo, [], hi => lo ≤ hi
  | lo, t :: ts, hi => ∃ mid, t.Between cs lo mid ∧ InRow cs mid ts hi

variable {cs : List Char} {lo hi : Nat} {t : Tree Span} {ts : List (Tree Span)}

/-- More room does no harm. -/
theorem Between.weaken (h : t.Between cs lo hi) {lo' hi' : Nat} (hlo : lo' ≤ lo) (hhi : hi ≤ hi') :
    t.Between cs lo' hi' :=
  ⟨Nat.le_trans hlo h.lower, h.takes, Nat.le_trans h.upper hhi, h.nest⟩

/-- The spans of trees in a row are in a row. -/
theorem InRow.spans (h : InRow cs lo ts hi) : Span.InRow lo (ts.map label) hi := by
  induction ts generalizing lo with
  | nil => exact h
  | cons t ts ih =>
    obtain ⟨mid, ht, hts⟩ := h
    exact ⟨ht.lower, ht.takes, (ih hts).from_le ht.upper⟩

/-- All nodes of trees in a row nest. -/
theorem InRow.nest (h : InRow cs lo ts hi) : ∀ t ∈ ts, ∀ n ∈ t.nodes, n.Nests cs := by
  induction ts generalizing lo with
  | nil =>
    intro t ht
    cases ht
  | cons u ts ih =>
    obtain ⟨mid, hu, hts⟩ := h
    exact List.forall_mem_cons.2 ⟨hu.nest, ih hts⟩

/-- A node whose children stand in a row in its span nests with all its nodes. -/
theorem nest_of_inRow {a b : Nat} (hlabel : t.label = ⟨a, b⟩) (h : InRow cs a t.subtrees b)
    (hleaf : t.IsSpelled cs) : ∀ n ∈ t.nodes, n.Nests cs := by
  refine forall_nodes_iff.2 ⟨⟨?_, hleaf⟩, h.nest⟩
  rw [hlabel]
  exact h.spans

/-- A node that takes room and has its children in a row in its span stands between all places
around its span. -/
theorem between_of_inRow {a b : Nat} (hlo : lo ≤ a) (htakes : a < b) (hhi : b ≤ hi)
    (hlabel : t.label = ⟨a, b⟩) (h : InRow cs a t.subtrees b) (hleaf : t.IsSpelled cs) :
    t.Between cs lo hi := by
  refine ⟨?_, ?_, ?_, nest_of_inRow hlabel h hleaf⟩ <;> rw [hlabel]
  · exact hlo
  · exact htakes
  · exact hhi

end Tree

namespace Operation

/-- The parts of an operation one behind the other between two places. Operators between operands
carry no spans. -/
inductive Item.InRow (cs : List Char) : Nat → List Item → Nat → Prop
  | nil {lo hi : Nat} (h : lo ≤ hi) : InRow cs lo [] hi
  | before {lo hi : Nat} {op : UnaryOp} {span : Span} {items : List Item} (hlo : lo ≤ span.start)
      (htakes : span.start < span.stop) (hitems : InRow cs span.stop items hi) :
      InRow cs lo (.before op span :: items) hi
  | behind {lo hi : Nat} {op : UnaryOp} {span : Span} {items : List Item} (hlo : lo ≤ span.start)
      (htakes : span.start < span.stop) (hitems : InRow cs span.stop items hi) :
      InRow cs lo (.behind op span :: items) hi
  | operand {lo mid hi : Nat} {result : Except ParseError (Tree Span)} {items : List Item}
      (hresult : ∀ t, result = .ok t → t.Between cs lo mid) (hle : lo ≤ mid)
      (hitems : InRow cs mid items hi) : InRow cs lo (.operand result :: items) hi
  | between {lo hi : Nat} {op : BinaryOp} {items : List Item} (hitems : InRow cs lo items hi) :
      InRow cs lo (.between op :: items) hi

/-- Operators that wait, the latest first, with their left operands one behind the other between two
places. -/
inductive Waiting.InRow (cs : List Char) : Nat → List Waiting → Nat → Prop
  | nil {lo hi : Nat} (h : lo ≤ hi) : InRow cs lo [] hi
  | unary {lo mid hi : Nat} {op : UnaryOp} {span : Span} {ws : List Waiting}
      (hws : InRow cs lo ws mid) (hlo : mid ≤ span.start) (htakes : span.start < span.stop)
      (hhi : span.stop ≤ hi) : InRow cs lo (.unary op span :: ws) hi
  | binary {lo mid hi : Nat} {left : Tree Span} {op : BinaryOp} {ws : List Waiting}
      (hws : InRow cs lo ws mid) (hleft : left.Between cs mid hi) :
      InRow cs lo (.binary left op :: ws) hi

variable {cs : List Char} {lo mid hi : Nat} {t : Tree Span} {ws : List Waiting}

/-- There may be more space before the parts of an operation. -/
theorem Item.InRow.from_le {items : List Item} (h : Item.InRow cs mid items hi) (hle : lo ≤ mid) :
    Item.InRow cs lo items hi := by
  induction h with
  | nil h => exact .nil (Nat.le_trans hle h)
  | before hlo htakes hitems _ => exact .before (Nat.le_trans hle hlo) htakes hitems
  | behind hlo htakes hitems _ => exact .behind (Nat.le_trans hle hlo) htakes hitems
  | operand hresult hmid hitems _ =>
    exact .operand (fun t ht => (hresult t ht).weaken hle (Nat.le_refl _))
      (Nat.le_trans hle hmid) hitems
  | between _ ih => exact .between (ih hle)

/-- Waiting operators take up the room between two places. -/
theorem Waiting.InRow.le (h : Waiting.InRow cs lo ws mid) : lo ≤ mid := by
  induction h with
  | nil h => exact h
  | unary _ hlo htakes hhi ih => omega
  | binary _ hleft ih =>
    have hlower := hleft.lower
    have htakes := hleft.takes
    have hupper := hleft.upper
    omega

/-- The span of two things one behind the other goes from the start of the first to the end of the
second. -/
theorem combine_of_le {a b : Span} (ha : a.start < a.stop) (hab : a.stop ≤ b.start)
    (hb : b.start < b.stop) : a.combine b = ⟨a.start, b.stop⟩ := by
  rw [Span.combine, Nat.min_eq_left (by omega), Nat.max_eq_right (by omega)]

/-- A waiting operator with its operand stands where the two stood. -/
theorem Waiting.InRow.apply {w : Waiting} (h : Waiting.InRow cs lo (w :: ws) mid)
    (ht : t.Between cs mid hi) :
    ∃ mid', Waiting.InRow cs lo ws mid' ∧ (w.apply t).Between cs mid' hi := by
  have hlower := ht.lower
  have htakes := ht.takes
  cases h with
  | @unary mid' _ op span _ hws hlo hspan hhi =>
    have hwhole : span.combine t.label = ⟨span.start, t.label.stop⟩ :=
      combine_of_le hspan (by omega) htakes
    have hchild : t.Between cs span.start t.label.stop :=
      ⟨by omega, htakes, Nat.le_refl _, ht.nest⟩
    refine ⟨mid', hws, ?_⟩
    rw [Waiting.apply, hwhole]
    exact Tree.between_of_inRow hlo (by omega) ht.upper rfl ⟨_, hchild, Nat.le_refl _⟩ trivial
  | @binary mid' _ left op _ hws hleft =>
    have hleftTakes := hleft.takes
    have hleftUpper := hleft.upper
    have hwhole : left.label.combine t.label = ⟨left.label.start, t.label.stop⟩ :=
      combine_of_le hleftTakes (by omega) htakes
    have hfirst : left.Between cs left.label.start mid :=
      ⟨Nat.le_refl _, hleftTakes, hleftUpper, hleft.nest⟩
    have hsecond : t.Between cs mid t.label.stop := ⟨hlower, htakes, Nat.le_refl _, ht.nest⟩
    refine ⟨mid', hws, ?_⟩
    rw [Waiting.apply, hwhole]
    exact Tree.between_of_inRow hleft.lower (by omega) ht.upper rfl
      ⟨_, hfirst, _, hsecond, Nat.le_refl _⟩ trivial

/-- Settling keeps to the order of the text. -/
theorem settle_inRow (strength : Nat) (hws : Waiting.InRow cs lo ws mid)
    (ht : t.Between cs mid hi) :
    ∃ mid', Waiting.InRow cs lo (settle strength ws t).1 mid' ∧
      (settle strength ws t).2.Between cs mid' hi := by
  induction ws generalizing mid t with
  | nil => exact ⟨mid, hws, ht⟩
  | cons w ws ih =>
    rw [settle]
    split
    · obtain ⟨mid', hws', ht'⟩ := hws.apply ht
      exact ih hws' ht'
    · exact ⟨mid, hws, ht⟩

/-- An operator behind an operand takes it as its only child. -/
theorem applyBehind_eq_ok {op : UnaryOp} {span : Span} {u : Tree Span}
    (h : applyBehind op span t = .ok u) : u = .unary (t.label.combine span) op t := by
  unfold applyBehind at h
  dsimp only at h
  split at h <;> cases h
  rfl

/-- An operator behind an operand stands where the two stood. -/
theorem applyBehind_between {op : UnaryOp} {span : Span} {u : Tree Span}
    (ht : t.Between cs lo mid) (hlo : mid ≤ span.start) (hspan : span.start < span.stop)
    (h : applyBehind op span t = .ok u) : u.Between cs lo span.stop := by
  have htakes := ht.takes
  have hupper := ht.upper
  have hwhole : t.label.combine span = ⟨t.label.start, span.stop⟩ :=
    combine_of_le htakes (by omega) hspan
  have hchild : t.Between cs t.label.start mid := ⟨Nat.le_refl _, htakes, hupper, ht.nest⟩
  rw [applyBehind_eq_ok h, hwhole]
  exact Tree.between_of_inRow ht.lower (by omega) (Nat.le_refl _) rfl
    ⟨_, hchild, Nat.le_of_lt (by omega)⟩ trivial

/-- Grouping keeps to the order of the text, whether an operand or an operator is expected next. -/
theorem expect_between {items : List Item} (hitems : Item.InRow cs mid items hi) :
    (∀ ws, Waiting.InRow cs lo ws mid → ∀ u, expectOperand ws items = .ok u →
      u.Between cs lo hi) ∧
    ∀ ws m (t : Tree Span), Waiting.InRow cs lo ws m → t.Between cs m mid →
      ∀ u, expectOperator ws t items = .ok u → u.Between cs lo hi := by
  induction hitems with
  | nil hle =>
    refine ⟨fun ws hws u h => ?_, fun ws m t hws ht u h => ?_⟩
    · cases h
    · rw [expectOperator] at h
      cases h
      obtain ⟨m', hws', ht'⟩ := settle_inRow 0 hws ht
      exact ht'.weaken hws'.le hle
  | before hlo htakes _ ih =>
    refine ⟨fun ws hws u h => ?_, fun ws m t hws ht u h => ?_⟩
    · rw [expectOperand] at h
      exact ih.1 _ (.unary hws hlo htakes (Nat.le_refl _)) u h
    · cases h
  | behind hlo htakes _ ih =>
    refine ⟨fun ws hws u h => ?_, fun ws m t hws ht u h => ?_⟩
    · cases h
    · rw [expectOperator] at h
      obtain ⟨v, hv, h⟩ := steps_eq_ok h
      exact ih.2 ws m v hws (applyBehind_between ht hlo htakes hv) u h
  | operand hresult _ _ ih =>
    refine ⟨fun ws hws u h => ?_, fun ws m t hws ht u h => ?_⟩
    · rw [expectOperand] at h
      obtain ⟨t, ht, h⟩ := steps_eq_ok h
      exact ih.2 ws _ t hws (hresult t ht) u h
    · cases h
  | @between mid hi op items _ ih =>
    refine ⟨fun ws hws u h => ?_, fun ws m t hws ht u h => ?_⟩
    · cases h
    · rw [expectOperator] at h
      obtain ⟨m', hws', hleft⟩ := settle_inRow op.strength hws ht
      exact ih.1 _ (.binary hws' hleft) u h

end Operation

namespace Build

open Grammar (Rule Fragment StandsAt)
open Grammar.Fragment (Laid)
open Operation (Item)

variable {cs : List Char} {lo hi : Nat} {f : Fragment} {fs : List Fragment}

/-- The span of a word covers the word. -/
theorem textIn_of_standsAt {r : Rule} {start : Nat} {text : List Char}
    (h : StandsAt cs r start text) :
    Span.textIn ⟨start, start + Text.byteLength text⟩ cs = text := by
  obtain ⟨before, after, w, rfl, rfl, -, -⟩ := h
  rw [Span.textIn, Text.slice?, if_pos (Nat.le_add_right _ _), Text.dropBytes?_append,
    Option.bind_some, Nat.add_sub_cancel_left, Text.takeBytes?_append, Option.getD_some]

/-- Operators take some text. -/
theorem consumes_of_isOperator {r : Rule} (h : r.isOperator = true) : r.consumes = true := by
  cases r <;> first | rfl | cases h

/-- The parts of an operation stand as its fragments do. -/
theorem items_inRow (hfs : Laid cs lo fs hi)
    (hoperands : ∀ f ∈ fs, f.rule.isOperator = false → ∀ {lo hi : Nat}, Laid cs lo [f] hi →
      ∀ t, expression f = .ok t → t.Between cs lo hi) :
    Item.InRow cs lo (fs.map fun f => item f (expression f)) hi := by
  induction fs generalizing lo with
  | nil => exact .nil hfs.le
  | cons f fs ih =>
    obtain ⟨hlo, htakes, hself, hrest⟩ := hfs.uncons
    have hitems := ih hrest fun g hg => hoperands g (List.mem_cons_of_mem _ hg)
    have hstop : f.span.start ≤ f.span.stop := hself.le
    rw [List.map_cons]
    cases hop : f.rule.isOperator with
    | false =>
      have hoperand := hoperands f List.mem_cons_self hop hself
      rw [item_operand _ hop]
      exact .operand (fun t ht => (hoperand t ht).weaken hlo (Nat.le_refl _))
        (Nat.le_trans hlo hstop) hitems
    | true =>
      have hspan := htakes (consumes_of_isOperator hop)
      simp only [Rule.isOperator, Bool.or_eq_true] at hop
      rcases hop with (hbefore | hbehind) | hbetween
      · obtain ⟨op, hitem⟩ := item_before (expression f) hbefore
        rw [hitem]
        exact .before hlo hspan hitems
      · obtain ⟨op, hitem⟩ := item_behind (expression f) hbehind
        rw [hitem]
        exact .behind hlo hspan hitems
      · obtain ⟨op, hitem⟩ := item_between (expression f) hbetween
        rw [hitem]
        exact .between (hitems.from_le (Nat.le_trans hlo hstop))

/-- A word that is a leaf stands in its span. -/
theorem leaf_between {r : Rule} {start : Nat} {text : List Char} (hword : StandsAt cs r start text)
    (hr : r.consumes = true) {t : Tree Span}
    (hlabel : t.label = ⟨start, start + Text.byteLength text⟩) (hleaf : t.subtrees = [])
    (hspelled : t.IsSpelled cs) : t.Between cs start (start + Text.byteLength text) := by
  have hpos := hword.pos hr
  refine Tree.between_of_inRow (Nat.le_refl _) (by omega) (Nat.le_refl _) hlabel ?_ hspelled
  rw [hleaf]
  exact Nat.le_add_right _ _

/-- A name stands in its span. -/
theorem var_between {start : Nat} {name : List Char}
    (hword : StandsAt cs .identifier start name) :
    (Tree.var ⟨start, start + Text.byteLength name⟩ (String.ofList name)).Between cs start
      (start + Text.byteLength name) := by
  refine leaf_between hword rfl rfl rfl ?_
  rw [Tree.IsSpelled, textIn_of_standsAt hword, String.toList_ofList]

/-- The tree of an expression stands where its fragment does. -/
theorem expression_between (hf : f.IsExpression) (hlaid : Laid cs lo [f] hi) {t : Tree Span}
    (h : expression f = .ok t) : t.Between cs lo hi := by
  induction hf generalizing lo hi t with
  | integer hn hd =>
    cases hlaid with
    | word hlo hword hrest =>
      rw [expression, number] at h
      split at h <;> cases h
      next v hv =>
      refine (leaf_between hword rfl rfl rfl ?_).weaken hlo hrest.le
      rw [Tree.IsSpelled, textIn_of_standsAt hword]
      exact ⟨hn, hd, (Decimal.toInt_of_digits hn hd hv).symm⟩
  | @input start text =>
    cases hlaid with
    | word hlo hword hrest =>
      rw [expression] at h
      cases h
      refine (leaf_between hword rfl rfl rfl ?_).weaken hlo hrest.le
      rw [Tree.IsSpelled, textIn_of_standsAt hword]
      obtain ⟨_, after, w, -, -, hdef, hscan⟩ := hword
      cases hdef
      obtain ⟨_, -, heq⟩ := Option.map_eq_some_iff.1 hscan
      exact (congrArg Prod.fst heq).symm
  | identifier hi =>
    cases hlaid with
    | word hlo hword hrest =>
      rw [expression] at h
      cases h
      exact (var_between hword).weaken hlo hrest.le
  | assignment hi _ ih =>
    cases hlaid with
    | phrase hlo htakes hinner hrest =>
      cases hinner with
      | word hstart hword hvalue =>
        rw [expression, expression] at h
        obtain ⟨target, ht, h⟩ := steps_eq_ok h
        obtain ⟨v, hv, h⟩ := steps_eq_ok h
        cases ht
        cases h
        have htarget := (var_between hword).weaken hstart (Nat.le_refl _)
        exact Tree.between_of_inRow hlo (htakes rfl) hrest.le rfl
          ⟨_, htarget, _, ih hvalue hv, Nat.le_refl _⟩ trivial
  | print _ ih =>
    cases hlaid with
    | phrase hlo htakes hinner hrest =>
      rw [expression] at h
      obtain ⟨v, hv, h⟩ := steps_eq_ok h
      cases h
      have hchild := ih hinner.tail hv
      exact Tree.between_of_inRow hlo (htakes rfl) hrest.le rfl ⟨_, hchild, Nat.le_refl _⟩ trivial
  | operation _ _ ih =>
    cases hlaid with
    | phrase hlo htakes hinner hrest =>
      rw [expression, Operation.group, items_eq_map] at h
      have hitems := items_inRow hinner fun f hf hop {_ _} hself t ht => ih f hf hop hself ht
      have hwhole := (Operation.expect_between hitems).1 [] (.nil (Nat.le_refl _)) t h
      exact hwhole.weaken hlo hrest.le

/-- A condition has the span of its fragment, and the branches stand behind it. -/
theorem condition_between (hf : f.IsExpression) (hlaid : Laid cs lo (f :: fs) hi) {t : Tree Span}
    (h : condition f = .ok t) : t.Between cs lo f.span.stop ∧ Laid cs f.span.stop fs hi := by
  obtain ⟨hlo, -, hself, hrest⟩ := hlaid.uncons
  obtain ⟨e, he, h⟩ := steps_eq_ok h
  cases h
  have hchild := expression_between hf hself he
  have htakes : f.span.start < f.span.stop :=
    Nat.lt_of_le_of_lt hchild.lower (Nat.lt_of_lt_of_le hchild.takes hchild.upper)
  exact ⟨Tree.between_of_inRow hlo htakes (Nat.le_refl _) rfl ⟨_, hchild, Nat.le_refl _⟩ trivial,
    hrest⟩

/-- A block around a statement has the span of the statement. -/
theorem asBlock_between {t : Tree Span} (h : t.Between cs lo hi) :
    (asBlock t).Between cs lo hi := by
  have hwrap : (Tree.block t.label [t]).Between cs lo hi := by
    refine Tree.between_of_inRow h.lower h.takes h.upper rfl ?_ trivial
    rw [Tree.subtrees_block]
    exact ⟨_, ⟨Nat.le_refl _, h.takes, Nat.le_refl _, h.nest⟩, Nat.le_refl _⟩
  cases t with
  | block a ts => exact h
  | _ => exact hwrap

/-- Statements stand one behind the other as their fragments do. -/
theorem statements_inRow (hfs : ∀ f ∈ fs, ∀ {lo hi : Nat}, Laid cs lo [f] hi → ∀ t,
    statement f = .ok t → t.Between cs lo hi) (hlaid : Laid cs lo fs hi) {ts : List (Tree Span)}
    (h : statements fs = .ok ts) : Tree.InRow cs lo ts hi := by
  induction fs generalizing lo ts with
  | nil =>
    rw [statements] at h
    cases h
    exact hlaid.le
  | cons f fs ih =>
    obtain ⟨hlo, -, hself, hrest⟩ := hlaid.uncons
    unfold statements at h
    split at h
    · next he => cases he
    · cases h
      exact hlaid.le
    · next he =>
      cases he
      obtain ⟨t, ht, h⟩ := steps_eq_ok h
      obtain ⟨us, hus, h⟩ := steps_eq_ok h
      cases h
      have hfirst := hfs f List.mem_cons_self (hself.from_le hlo) t ht
      exact ⟨_, hfirst, ih (fun g hg => hfs g (List.mem_cons_of_mem _ hg)) hrest hus⟩

/-- The tree of a statement stands where its fragment does. -/
theorem statement_between (hf : f.IsStatement) (hlaid : Laid cs lo [f] hi) {t : Tree Span}
    (h : statement f = .ok t) : t.Between cs lo hi := by
  induction hf generalizing lo hi t with
  | scope _ ih =>
    cases hlaid with
    | phrase hlo htakes hinner hrest =>
      rw [statement] at h
      obtain ⟨ts, hts, h⟩ := steps_eq_ok h
      cases h
      refine Tree.between_of_inRow hlo (htakes rfl) hrest.le rfl ?_ trivial
      rw [Tree.subtrees_block]
      exact statements_inRow (fun f hf {_ _} hself t ht => ih f hf hself ht) hinner hts
  | expression he =>
    cases hlaid with
    | phrase hlo htakes hinner hrest =>
      rw [statement] at h
      obtain ⟨e, he', h⟩ := steps_eq_ok h
      cases h
      have hchild := expression_between he hinner he'
      exact Tree.between_of_inRow hlo (htakes rfl) hrest.le rfl ⟨_, hchild, Nat.le_refl _⟩ trivial
  | ifThen hc _ iht =>
    cases hlaid with
    | phrase hlo htakes hinner hrest =>
      rw [statement] at h
      obtain ⟨c, hc', h⟩ := steps_eq_ok h
      obtain ⟨s, hs, h⟩ := steps_eq_ok h
      cases h
      obtain ⟨hcond, hthen⟩ := condition_between hc hinner.tail hc'
      have hbranch := asBlock_between (iht hthen hs)
      exact Tree.between_of_inRow hlo (htakes rfl) hrest.le rfl
        ⟨_, hcond, _, hbranch, Nat.le_refl _⟩ trivial
  | ifElse hc _ _ iht ihe =>
    cases hlaid with
    | phrase hlo htakes hinner hrest =>
      rw [statement] at h
      obtain ⟨c, hc', h⟩ := steps_eq_ok h
      obtain ⟨s, hs, h⟩ := steps_eq_ok h
      obtain ⟨s', hs', h⟩ := steps_eq_ok h
      cases h
      obtain ⟨hcond, hbranches⟩ := condition_between hc hinner.tail hc'
      obtain ⟨hlo', -, hthen, helse⟩ := hbranches.uncons
      have hbranch := asBlock_between (iht (hthen.from_le hlo') hs)
      have hbranch' := asBlock_between (ihe helse.tail hs')
      exact Tree.between_of_inRow hlo (htakes rfl) hrest.le rfl
        ⟨_, hcond, _, hbranch, _, hbranch', Nat.le_refl _⟩ trivial
  | whileLoop hc _ ihb =>
    cases hlaid with
    | phrase hlo htakes hinner hrest =>
      rw [statement] at h
      obtain ⟨c, hc', h⟩ := steps_eq_ok h
      obtain ⟨s, hs, h⟩ := steps_eq_ok h
      cases h
      obtain ⟨hcond, hbody⟩ := condition_between hc hinner.tail hc'
      have hbranch := asBlock_between (ihb hbody hs)
      exact Tree.between_of_inRow hlo (htakes rfl) hrest.le rfl
        ⟨_, hcond, _, hbranch, Nat.le_refl _⟩ trivial

end Build

/-- A program is read from the start of the text to its end. -/
theorem Grammar.Rule.reads_program {cs : List Char} {d : Grammar.Cursor}
    {fs : List Grammar.Fragment}
    (h : (Grammar.Phrase.call .program).Reads (.atStart cs) (some (d, fs))) :
    ∃ inner, fs = [.phrase .program 0 (Text.byteLength cs) inner] := by
  have hbefore := Grammar.Phrase.before_of_reads h rfl
  have hend : d.rest = [] := by
    cases h with
    | callWord hr _ => cases hr
    | callSilent hr _ => cases hr
    | callPhrase hr h =>
      cases hr
      cases h with
      | seq _ h =>
        cases h with
        | seq _ h =>
          cases h with
          | callWord hr hscan =>
            cases hr
            rw [Grammar.Word.scan] at hscan
            split at hscan
            · cases hscan
              rfl
            · cases hscan
          | callSilent hr _ => cases hr
          | callPhrase hr _ => cases hr
  obtain ⟨s, hs, hpos⟩ := hbefore
  have hcs : cs = s := by
    rw [hend, List.append_nil] at hs
    exact hs
  have hstop : d.pos = Text.byteLength cs := by
    rw [hpos, hcs]
    exact Nat.zero_add _
  cases h with
  | callWord hr _ => cases hr
  | callSilent hr _ => cases hr
  | @callPhrase _ _ _ _ inner hr _ => exact ⟨inner, by rw [hstop]; rfl⟩

/-- Spans that are nested as the nodes of a tree are, in a text that the tree was read from. -/
structure Tree.SpansNest (cs : List Char) (root : Tree Span) : Prop where
  /-- The root covers the whole text. -/
  whole : root.label = ⟨0, Text.byteLength cs⟩
  /-- Spans do not end before they start or behind the text, and not inside characters. -/
  placed : ∀ n ∈ root.nodes, n.label.start ≤ n.label.stop ∧
    n.label.stop ≤ Text.byteLength cs ∧ n.label.In cs
  /-- Every node but the root takes some text. -/
  takes : ∀ n ∈ root.nodes.tail, n.label.start < n.label.stop
  /-- The span of a child lies within that of its parent. -/
  within : ∀ n ∈ root.nodes, ∀ c ∈ n.subtrees,
    n.label.start ≤ c.label.start ∧ c.label.stop ≤ n.label.stop
  /-- The spans of the children of a node are in order and do not overlap. -/
  inOrder : ∀ n ∈ root.nodes, n.subtrees.Pairwise fun c c' => c.label.stop ≤ c'.label.start
  /-- The text of a leaf is the leaf itself. -/
  leaf : ∀ n ∈ root.nodes, n.IsSpelled cs

/-- All nodes of a parsed tree nest, and the root covers the whole text. -/
theorem parse_nests {source : String} {t : Tree Span} (h : parse source = .ok t) :
    t.label = ⟨0, Text.byteLength source.toList⟩ ∧ ∀ n ∈ t.nodes, n.Nests source.toList := by
  rw [parse_eq] at h
  split at h
  · next fs hfs =>
    obtain ⟨d, hd⟩ := Grammar.Rule.read_eq_ok_iff.1 hfs
    have hlaid := hd.laid (.refl _)
    obtain ⟨all, rfl⟩ := Grammar.Rule.reads_program hd
    obtain ⟨start, stop, inner, pos, text, heq, hinner⟩ := Grammar.Rule.form_of_reads hd
    cases heq
    cases hlaid with
    | phrase _ _ hstatements _ =>
      obtain ⟨ts, hts, h⟩ := steps_eq_ok h
      cases h
      refine ⟨rfl, Tree.nest_of_inRow rfl ?_ trivial⟩
      rw [Tree.subtrees_block]
      refine Build.statements_inRow (fun f hf {_ _} hself t ht => ?_) hstatements hts
      rcases List.mem_append.1 hf with hf | hf
      · exact Build.statement_between (hinner f hf) hself ht
      · cases List.mem_singleton.1 hf
        cases ht
  · cases h

/-- Whatever the text, the spans of a parsed tree are nested as its nodes are, and the text of a
leaf is the leaf itself. -/
theorem parse_spansNest {source : String} {t : Tree Span} (h : parse source = .ok t) :
    t.SpansNest source.toList := by
  obtain ⟨hroot, hnests⟩ := parse_nests h
  have hplaces : t.Labels (Span.In source.toList) := by
    have hpoints := parse_points source
    rw [h] at hpoints
    exact hpoints
  have hchild : ∀ n ∈ t.nodes, ∀ c ∈ n.subtrees, n.label.start ≤ c.label.start ∧
      c.label.start < c.label.stop ∧ c.label.stop ≤ n.label.stop := by
    intro n hn c hc
    exact (hnests n hn).children.mem (List.mem_map_of_mem hc)
  refine ⟨hroot, fun n hn => ?_, fun n hn => ?_, fun n hn c hc => ?_, fun n hn => ?_,
    fun n hn => (hnests n hn).leaf⟩
  · exact ⟨(hnests n hn).children.le, (hplaces n hn).2.le, hplaces n hn⟩
  · obtain ⟨q, hq, hn⟩ := Tree.exists_parent hn
    exact (hchild q hq n hn).2.1
  · obtain ⟨hlower, -, hupper⟩ := hchild n hn c hc
    exact ⟨hlower, hupper⟩
  · exact List.pairwise_map.1 (hnests n hn).children.pairwise

/-- The tree of an assignment in which parentheses have vanished from the spans. -/
def parenthesesTree : Tree Span :=
  .block ⟨0, 12⟩ [.sequence ⟨0, 12⟩ (.assign ⟨0, 11⟩ (.var ⟨0, 1⟩ "x")
    (.binary ⟨4, 11⟩ .mul (.binary ⟨4, 7⟩ .add (.input ⟨4, 5⟩) (.literal ⟨6, 7⟩ 1))
      (.literal ⟨10, 11⟩ 2))) none]

/-- The spans of that tree nest: the product goes from the first operand inside the parentheses to
the second one behind them. -/
theorem parse_spansNest_parentheses :
    parse "x= (?+1 )*2;" = .ok parenthesesTree ∧
      parenthesesTree.SpansNest "x= (?+1 )*2;".toList := by
  have hparse : parse "x= (?+1 )*2;" = .ok parenthesesTree := by cbv
  exact ⟨hparse, parse_spansNest hparse⟩

end IntScript
