import IntScript.Parse.Operation

/-!
# Grouping by strata

The grouping of operators is compared with a grammar that has one stratum for each strength. An
expression of a stratum is an expression of the next one, or an expression of the same stratum, an
operator of it and an expression of the next one. Behind the last stratum come the operators before
an operand, applied from right to left, and then those behind it, applied from left to right.

Every row of operands and operators is the row of such an expression, and grouping the row gives
the tree of the expression. This holds with errors too: the error that is reported is the one that
comes first when the tree is put together from left to right.
-/

namespace IntScript.Operation

/-- An expression over the operands of a row. -/
inductive Term where
  /-- An operand, or the error that it contains. -/
  | operand (result : Except ParseError (Tree Span))
  /-- An operator before an expression. -/
  | before (op : UnaryOp) (span : Span) (e : Term)
  /-- An operator behind an expression. -/
  | behind (e : Term) (op : UnaryOp) (span : Span)
  /-- An operator between two expressions. -/
  | between (left : Term) (op : BinaryOp) (right : Term)

namespace Term

/-- The operators and operands of an expression from left to right. -/
def row : Term → List Item
  | .operand result => [.operand result]
  | .before op span e => .before op span :: e.row
  | .behind e op span => e.row ++ [.behind op span]
  | .between left op right => left.row ++ .between op :: right.row

/-- The tree of an expression, put together from left to right. Only operators behind an operand
ask for a variable. -/
def tree : Term → Except ParseError (Tree Span)
  | .operand result => result
  | .before op span e => do
    let t ← e.tree
    return .unary (span.combine t.label) op t
  | .behind e op span => do
    let t ← e.tree
    applyBehind op span t
  | .between left op right => do
    let l ← left.tree
    let r ← right.tree
    return .binary (l.label.combine r.label) op l r

/-- Operators behind an operand are applied to it from left to right. -/
inductive IsPostfixed : Term → Prop
  | operand (result : Except ParseError (Tree Span)) : IsPostfixed (.operand result)
  | behind {e : Term} (h : IsPostfixed e) (op : UnaryOp) (span : Span) :
      IsPostfixed (.behind e op span)

/-- Operators before an operand are applied from right to left, once those behind it have been. -/
inductive IsPrefixed : Term → Prop
  | postfixed {e : Term} (h : IsPostfixed e) : IsPrefixed e
  | before {e : Term} (op : UnaryOp) (span : Span) (h : IsPrefixed e) :
      IsPrefixed (.before op span e)

/-- The expressions of a stratum, given the operators of it and of the strata behind it. Operators
of one stratum group from the left. -/
inductive InStrata : List (List BinaryOp) → Term → Prop
  | operand {e : Term} (h : IsPrefixed e) : InStrata [] e
  | next {ops : List BinaryOp} {later : List (List BinaryOp)} {e : Term} (h : InStrata later e) :
      InStrata (ops :: later) e
  | between {ops : List BinaryOp} {later : List (List BinaryOp)} {left right : Term}
      {op : BinaryOp} (hop : op ∈ ops) (hl : InStrata (ops :: later) left)
      (hr : InStrata later right) : InStrata (ops :: later) (.between left op right)

end Term

/-- The operators of each stratum, from those that bind least to those that bind most tightly. -/
def strata : List (List BinaryOp) :=
  [[.and, .or], [.eq, .ne, .lt, .le, .gt, .ge], [.add, .sub], [.mul, .div, .mod]]

/-- Every operator between operands belongs to a stratum. -/
theorem exists_stratum (op : BinaryOp) : ∃ ops ∈ strata, op ∈ ops := by
  cases op <;> decide

/-- The strata are numbered by the strengths of their operators. -/
def Graded : Nat → List (List BinaryOp) → Prop
  | _, [] => True
  | n, ops :: later => (∀ op ∈ ops, op.strength = n) ∧ Graded (n + 1) later

/-- The strengths of the operators agree with their strata. -/
theorem graded_strata : Graded 1 strata := by
  unfold strata Graded Graded Graded Graded Graded
  decide

/-- A row goes on with nothing, or with an operator between operands that is at most as strong as
the given strength. -/
def ClosesAt (strength : Nat) : List Item → Prop
  | [] => True
  | .between op :: _ => op.strength ≤ strength
  | _ => False

/-- The latest waiting operator is weaker than the given strength. -/
def WaitsBelow (strength : Nat) (waiting : List Waiting) : Prop :=
  ∀ w ∈ waiting.head?, w.strength < strength

/-- A waiting operator is applied as soon as the row goes on with no stronger one. -/
theorem expectOperator_waiting {w : Waiting} {rest : List Item} (h : ClosesAt w.strength rest)
    (waiting : List Waiting) (t : Tree Span) :
    expectOperator (w :: waiting) t rest = expectOperator waiting (w.apply t) rest := by
  match rest, h with
  | [], _ =>
    have hzero : 0 ≤ w.strength := Nat.zero_le _
    rw [expectOperator, expectOperator, settle, if_pos hzero]
  | .between op :: rest, h =>
    have hle : op.strength ≤ w.strength := h
    rw [expectOperator, expectOperator, settle, if_pos hle]

/-- Nothing is applied before an operator that is stronger than what waits. -/
theorem settle_of_waitsBelow {strength : Nat} {waiting : List Waiting}
    (h : WaitsBelow strength waiting) (t : Tree Span) :
    settle strength waiting t = (waiting, t) := by
  cases waiting with
  | nil => rfl
  | cons w ws =>
    have hw : w.strength < strength := h w rfl
    rw [settle, if_neg (by omega)]

namespace Term

variable {e : Term}

/-- An operand with the operators behind it is read as a whole, whatever follows. -/
theorem IsPostfixed.expectOperand_row (h : e.IsPostfixed) (waiting : List Waiting)
    (rest : List Item) :
    expectOperand waiting (e.row ++ rest) =
      e.tree >>= fun t => expectOperator waiting t rest := by
  induction h generalizing rest with
  | operand result => rfl
  | @behind e _ op span ih =>
    have hrow : (e.behind op span).row ++ rest = e.row ++ .behind op span :: rest := by
      rw [row, List.append_assoc, List.singleton_append]
    rw [hrow, ih, tree, bind_assoc]
    rfl

/-- An operand with the operators before and behind it is read as a whole if the row goes on with
an operator between operands, or not at all. -/
theorem IsPrefixed.expectOperand_row (h : e.IsPrefixed) (waiting : List Waiting)
    {rest : List Item} (hrest : ClosesAt 5 rest) :
    expectOperand waiting (e.row ++ rest) =
      e.tree >>= fun t => expectOperator waiting t rest := by
  induction h generalizing waiting with
  | postfixed h => exact h.expectOperand_row waiting rest
  | @before e op span _ ih =>
    have happly : ∀ t, expectOperator (.unary op span :: waiting) t rest =
        expectOperator waiting (.unary (span.combine t.label) op t) rest :=
      fun t => expectOperator_waiting (w := .unary op span) hrest waiting t
    rw [row, List.cons_append, expectOperand, ih, tree, bind_assoc]
    exact congrArg _ (funext happly)

/-- What closes an expression of a strength closes those of greater strengths. -/
theorem closesAt_mono {m n : Nat} (hmn : m ≤ n) {rest : List Item} (h : ClosesAt m rest) :
    ClosesAt n rest := by
  match rest, h with
  | [], _ => trivial
  | .between op :: rest, h => exact Nat.le_trans h hmn

/-- An expression of a stratum is read as a whole if only weaker operators wait for it and the row
goes on with no stronger ones. -/
theorem InStrata.expectOperand_row {levels : List (List BinaryOp)} (h : e.InStrata levels)
    {n : Nat} (hgraded : Graded n levels) (hn : n + levels.length ≤ 5) {waiting : List Waiting}
    (hwaiting : WaitsBelow n waiting) {rest : List Item} (hrest : ClosesAt n rest) :
    expectOperand waiting (e.row ++ rest) =
      e.tree >>= fun t => expectOperator waiting t rest := by
  induction h generalizing n waiting rest with
  | operand h => exact h.expectOperand_row waiting (closesAt_mono (by simpa using hn) hrest)
  | @next ops later e _ ih =>
    rw [List.length_cons] at hn
    have hbelow : WaitsBelow (n + 1) waiting := fun w hw => Nat.lt_succ_of_lt (hwaiting w hw)
    exact ih hgraded.2 (by omega) hbelow (closesAt_mono (Nat.le_succ n) hrest)
  | @between ops later left right op hop _ _ ihl ihr =>
    have hstrength : op.strength = n := hgraded.1 op hop
    rw [List.length_cons] at hn
    -- the left expression ends where its own operator comes
    have hclose : ClosesAt n (.between op :: (right.row ++ rest)) := Nat.le_of_eq hstrength
    have hleft := ihl hgraded (by rw [List.length_cons]; omega) hwaiting hclose
    have hrow : (left.between op right).row ++ rest =
        left.row ++ .between op :: (right.row ++ rest) := by
      rw [row, List.append_assoc, List.cons_append]
    have hsettle : ∀ l, settle op.strength waiting l = (waiting, l) :=
      fun l => settle_of_waitsBelow (hstrength ▸ hwaiting) l
    have hright : ∀ l, expectOperand (.binary l op :: waiting) (right.row ++ rest) =
        right.tree >>= fun r => expectOperator (.binary l op :: waiting) r rest := by
      intro l
      have hbelow : WaitsBelow (n + 1) (.binary l op :: waiting) := by
        intro w hw
        cases hw
        change op.strength < n + 1
        omega
      exact ihr hgraded.2 (by omega) hbelow (closesAt_mono (Nat.le_succ n) hrest)
    have hend : ClosesAt op.strength rest := hstrength.symm ▸ hrest
    have happly : ∀ l r, expectOperator (.binary l op :: waiting) r rest =
        expectOperator waiting (.binary (l.label.combine r.label) op l r) rest :=
      fun l r => expectOperator_waiting (w := .binary l op) hend waiting r
    rw [hrow, hleft, tree, bind_assoc]
    refine congrArg _ (funext fun l => ?_)
    rw [expectOperator, hsettle]
    dsimp only
    rw [hright, bind_assoc]
    exact congrArg _ (funext fun r => happly l r)

/-- Grouping the row of an expression gives its tree, or its first error. -/
theorem InStrata.group_row (h : e.InStrata strata) : group e.row = e.tree := by
  have hread : expectOperand [] (e.row ++ []) = e.tree >>= fun t => expectOperator [] t [] :=
    h.expectOperand_row graded_strata (by decide) (by rintro w ⟨⟩) trivial
  rw [List.append_nil] at hread
  rw [group, hread]
  exact bind_pure e.tree

end Term

/-- An operand with the operators before and behind it. -/
structure Operand where
  /-- The operators before the operand. -/
  before : List (UnaryOp × Span)
  /-- The operand itself, or the error that it contains. -/
  primary : Except ParseError (Tree Span)
  /-- The operators behind the operand. -/
  behind : List (UnaryOp × Span)

/-- Operands with operators between them. -/
structure Row where
  /-- The operand that comes first. -/
  first : Operand
  /-- The other operands, each with the operator before it. -/
  rest : List (BinaryOp × Operand)

namespace Operand

/-- The parts of an operand with its operators. -/
def items (o : Operand) : List Item :=
  o.before.map (fun b => .before b.1 b.2) ++
    .operand o.primary :: o.behind.map fun b => .behind b.1 b.2

/-- The operand with the operators behind it applied one after the other. -/
def fold (o : Operand) : Except ParseError (Tree Span) := do
  let t ← o.primary
  o.behind.foldlM (fun t b => applyBehind b.1 b.2 t) t

/-- The expression of an operand with its operators. -/
def term (o : Operand) : Term :=
  o.before.foldr (fun b e => .before b.1 b.2 e)
    (o.behind.foldl (fun e b => .behind e b.1 b.2) (.operand o.primary))

/-- Operators behind an expression make up a longer one. -/
theorem foldl_behind (behind : List (UnaryOp × Span)) {e : Term} (h : e.IsPostfixed) :
    (behind.foldl (fun e b => Term.behind e b.1 b.2) e).IsPostfixed ∧
      (behind.foldl (fun e b => Term.behind e b.1 b.2) e).row =
        e.row ++ behind.map (fun b => Item.behind b.1 b.2) ∧
      (behind.foldl (fun e b => Term.behind e b.1 b.2) e).tree =
        e.tree >>= fun t => behind.foldlM (fun t b => applyBehind b.1 b.2 t) t := by
  induction behind generalizing e with
  | nil =>
    refine ⟨h, (List.append_nil e.row).symm, ?_⟩
    exact (bind_pure e.tree).symm
  | cons b behind ih =>
    obtain ⟨hpost, hrow, htree⟩ := ih (h.behind b.1 b.2)
    refine ⟨hpost, ?_, ?_⟩
    · rw [List.foldl_cons, hrow, Term.row, List.append_assoc, List.singleton_append, List.map_cons]
    · rw [List.foldl_cons, htree, Term.tree, bind_assoc]
      simp only [List.foldlM_cons]

/-- Operators before an expression make up a longer one, which has a tree if that has one. -/
theorem foldr_before (before : List (UnaryOp × Span)) {e : Term} (h : e.IsPrefixed) :
    (before.foldr (fun b e => Term.before b.1 b.2 e) e).IsPrefixed ∧
      (before.foldr (fun b e => Term.before b.1 b.2 e) e).row =
        before.map (fun b => Item.before b.1 b.2) ++ e.row ∧
      ((∃ t, e.tree = .ok t) →
        ∃ t, (before.foldr (fun b e => Term.before b.1 b.2 e) e).tree = .ok t) := by
  induction before with
  | nil => exact ⟨h, rfl, fun ht => ht⟩
  | cons b before ih =>
    obtain ⟨hpre, hrow, htree⟩ := ih
    refine ⟨hpre.before b.1 b.2, ?_, fun ht => ?_⟩
    · rw [List.foldr_cons, Term.row, hrow, List.map_cons, List.cons_append]
    · obtain ⟨t, ht⟩ := htree ht
      rw [List.foldr_cons, Term.tree, ht]
      exact ⟨_, rfl⟩

/-- The expression of an operand has its parts as its row, and a tree if no operator fails. -/
theorem term_spec (o : Operand) :
    o.term.IsPrefixed ∧ o.term.row = o.items ∧
      ((∃ t, o.fold = .ok t) → ∃ t, o.term.tree = .ok t) := by
  obtain ⟨hpost, hrow, htree⟩ := foldl_behind o.behind (.operand o.primary)
  obtain ⟨hpre, hrow', htree'⟩ := foldr_before o.before (.postfixed hpost)
  refine ⟨hpre, ?_, fun hfold => htree' ?_⟩
  · rw [term, hrow', hrow]
    rfl
  · rw [htree]
    exact hfold

end Operand

namespace Term

/-- Expressions without operators between operands belong to all strata. -/
theorem IsPrefixed.inStrata {e : Term} (h : e.IsPrefixed) (levels : List (List BinaryOp)) :
    e.InStrata levels := by
  induction levels with
  | nil => exact .operand h
  | cons ops later ih => exact .next ih

/-- One more operator with its right operand finds its place in an expression: it goes to the right
end of the expressions of its own stratum. -/
theorem InStrata.exists_append {levels : List (List BinaryOp)} {e : Term} (h : e.InStrata levels)
    {op : BinaryOp} (hop : ∃ ops ∈ levels, op ∈ ops) {o : Term} (ho : o.IsPrefixed) :
    ∃ e', InStrata levels e' ∧ e'.row = e.row ++ .between op :: o.row ∧
      ((∃ t, e.tree = .ok t) → (∃ t, o.tree = .ok t) → ∃ t, e'.tree = .ok t) := by
  have hboth : ∀ l : Term, (∃ t, l.tree = .ok t) → (∃ t, o.tree = .ok t) →
      ∃ t, (l.between op o).tree = .ok t := by
    rintro l ⟨t, ht⟩ ⟨u, hu⟩
    rw [tree, ht, hu]
    exact ⟨_, rfl⟩
  induction h with
  | operand _ =>
    obtain ⟨ops, hops, -⟩ := hop
    cases hops
  | @next ops later e h ih =>
    by_cases hhere : op ∈ ops
    · exact ⟨.between e op o, .between hhere (.next h) (ho.inStrata later), rfl, hboth e⟩
    · have hlater : ∃ ops ∈ later, op ∈ ops := by simpa [hhere] using hop
      obtain ⟨e', he', hrow, htree⟩ := ih hlater
      exact ⟨e', .next he', hrow, htree⟩
  | @between ops later left right op' hop' hl hr _ ihr =>
    by_cases hhere : op ∈ ops
    · exact ⟨.between (.between left op' right) op o,
        .between hhere (.between hop' hl hr) (ho.inStrata later), rfl, hboth _⟩
    · have hlater : ∃ ops ∈ later, op ∈ ops := by simpa [hhere] using hop
      obtain ⟨e', he', hrow, htree⟩ := ihr hlater
      refine ⟨.between left op' e', .between hop' hl he', ?_, ?_⟩
      · rw [row, hrow, row, List.append_assoc, List.cons_append]
      · rintro ⟨t, ht⟩ hu
        rw [tree] at ht
        cases hleft : left.tree with
        | error err =>
          rw [hleft] at ht
          cases ht
        | ok l =>
          cases hright : right.tree with
          | error err =>
            rw [hleft, hright] at ht
            cases ht
          | ok r =>
            obtain ⟨u, hu'⟩ := htree ⟨r, hright⟩ hu
            rw [tree, hleft, hu']
            exact ⟨_, rfl⟩

end Term

namespace Row

/-- The parts of a row from left to right. -/
def items (row : Row) : List Item :=
  row.first.items ++ row.rest.flatMap fun p => .between p.1 :: p.2.items

/-- The operands of a row from left to right. -/
def operands (row : Row) : List Operand := row.first :: row.rest.map (·.2)

/-- Further operands find their places in an expression one after the other. -/
theorem exists_term_rest (rest : List (BinaryOp × Operand)) {e : Term} (h : e.InStrata strata) :
    ∃ e', Term.InStrata strata e' ∧
      e'.row = e.row ++ rest.flatMap (fun p => .between p.1 :: p.2.items) ∧
      ((∃ t, e.tree = .ok t) → (∀ p ∈ rest, ∃ t, p.2.fold = .ok t) → ∃ t, e'.tree = .ok t) := by
  induction rest generalizing e with
  | nil => exact ⟨e, h, (List.append_nil e.row).symm, fun ht _ => ht⟩
  | cons p rest ih =>
    obtain ⟨hpre, hitems, hfold⟩ := p.2.term_spec
    obtain ⟨e₁, he₁, hrow₁, htree₁⟩ := h.exists_append (exists_stratum p.1) hpre
    obtain ⟨e₂, he₂, hrow₂, htree₂⟩ := ih he₁
    refine ⟨e₂, he₂, ?_, fun ht hrest => ?_⟩
    · rw [hrow₂, hrow₁, hitems, List.flatMap_cons, List.append_assoc, List.cons_append]
    · obtain ⟨hp, hrest⟩ := List.forall_mem_cons.1 hrest
      exact htree₂ (htree₁ ht (hfold hp)) hrest

/-- Every row is that of an expression of the first stratum, which has a tree if no operator behind
an operand fails. -/
theorem exists_term (row : Row) :
    ∃ e, Term.InStrata strata e ∧ e.row = row.items ∧
      ((∀ o ∈ row.operands, ∃ t, o.fold = .ok t) → ∃ t, e.tree = .ok t) := by
  obtain ⟨hpre, hitems, hfold⟩ := row.first.term_spec
  obtain ⟨e, he, hrow, htree⟩ := exists_term_rest row.rest (hpre.inStrata strata)
  refine ⟨e, he, ?_, fun h => ?_⟩
  · rw [hrow, hitems]
    rfl
  · rw [operands, List.forall_mem_cons, List.forall_mem_map] at h
    exact htree (hfold h.1) h.2

end Row

/-- Rows are grouped by strata. If no operand and no operator of a row fails, grouping it gives the
tree of an expression of the first stratum whose operators and operands are, from left to right,
those of the row; and every such expression has this tree. -/
theorem group_stratified (row : Row) (h : ∀ o ∈ row.operands, ∃ t, o.fold = .ok t) :
    ∃ (e : Term) (t : Tree Span), e.InStrata strata ∧ e.row = row.items ∧ e.tree = .ok t ∧
      group row.items = .ok t ∧
      ∀ e' : Term, e'.InStrata strata → e'.row = row.items → e'.tree = .ok t := by
  obtain ⟨e, he, hrow, htree⟩ := row.exists_term
  obtain ⟨t, ht⟩ := htree h
  have hgroup : group row.items = .ok t := by rw [← hrow, he.group_row, ht]
  refine ⟨e, t, he, hrow, ht, hgroup, fun e' he' hrow' => ?_⟩
  rw [← he'.group_row, hrow', hgroup]

/-- The row of `-a++ + 2 * !b < c - ? || d`, with operators of all strata and on all sides. -/
def mixedRow : Row :=
  ⟨⟨[(.neg, ⟨0, 1⟩)], .ok (.var ⟨1, 2⟩ "a"), [(.increment, ⟨2, 4⟩)]⟩,
    [(.add, ⟨[], .ok (.literal ⟨7, 8⟩ 2), []⟩),
      (.mul, ⟨[(.not, ⟨11, 12⟩)], .ok (.var ⟨12, 13⟩ "b"), []⟩),
      (.lt, ⟨[], .ok (.var ⟨16, 17⟩ "c"), []⟩),
      (.sub, ⟨[], .ok (.input ⟨20, 21⟩), []⟩),
      (.or, ⟨[], .ok (.var ⟨25, 26⟩ "d"), []⟩)]⟩

/-- No operator of that row fails, and it is grouped as `(((-(a++)) + (2 * (!b))) < (c - ?)) || d`,
which is what every expression of the first stratum with this row stands for. -/
theorem group_stratified_mixed :
    (∀ o ∈ mixedRow.operands, ∃ t, o.fold = .ok t) ∧
      ∀ e : Term, e.InStrata strata → e.row = mixedRow.items →
        e.tree = .ok (.binary ⟨0, 26⟩ .or
          (.binary ⟨0, 21⟩ .lt
            (.binary ⟨0, 13⟩ .add
              (.unary ⟨0, 4⟩ .neg (.unary ⟨1, 4⟩ .increment (.var ⟨1, 2⟩ "a")))
              (.binary ⟨7, 13⟩ .mul (.literal ⟨7, 8⟩ 2)
                (.unary ⟨11, 13⟩ .not (.var ⟨12, 13⟩ "b"))))
            (.binary ⟨16, 21⟩ .sub (.var ⟨16, 17⟩ "c") (.input ⟨20, 21⟩)))
          (.var ⟨25, 26⟩ "d")) := by
  have hfold : ∀ o ∈ mixedRow.operands, ∃ t, o.fold = .ok t := by
    intro o ho
    simp only [mixedRow, Row.operands, List.map_cons, List.map_nil, List.mem_cons,
      List.not_mem_nil, or_false] at ho
    rcases ho with rfl | rfl | rfl | rfl | rfl | rfl <;> exact ⟨_, rfl⟩
  refine ⟨hfold, fun e he hrow => ?_⟩
  obtain ⟨_, t, -, -, -, hgroup, hunique⟩ := group_stratified mixedRow hfold
  rw [hunique e he hrow, ← hgroup]
  rfl

end IntScript.Operation
