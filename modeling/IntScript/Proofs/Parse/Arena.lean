import IntScript.Parse
import IntScript.Proofs.Tree.Numbering

/-!
# What the parser allocates

A builder either fails with the error that `Build` reports, or it allocates nodes and gives a tree
that is the one of `Build` but for the identities. All nodes that it allocates are nodes of that
tree, and each of them stands in it once: the identities of the tree are those that were handed out
on the way, in some order. So no node of a tree is used in two places.
-/

namespace IntScript

namespace Tree

/-- Identities do not change the kind of a node. -/
theorem kind_unmarked (t : Tree Mark) : t.unmarked.kind = t.kind := kind_relabel _ t

/-- Whether a tree is wrapped depends on its kind. -/
theorem wrapBlock_eq {α : Type} (label : α) (t : Tree α) :
    t.wrapBlock label = if t.kind = .block then t else .block label [t] := by
  cases t <;> rfl

/-- Statements lose their identities one by one. -/
theorem unmarked_block (a : Mark) (ts : List (Tree Mark)) :
    (Tree.block a ts).unmarked = .block (a.span.getD ⟨0, 0⟩) (ts.map unmarked) := by
  rw [unmarked, relabel, relabelAll_eq_map]
  rfl

end Tree

namespace Arena

open Grammar (Rule Fragment)

/-- Marks that were handed out while the number of nodes went from `n` to `m`, in any order. -/
structure Allotted (n m : Nat) (marks : List Mark) : Prop where
  /-- Identities are never taken back. -/
  le : n ≤ m
  /-- No identity is left out and none is used twice. -/
  perm : (marks.map Mark.id).Perm (List.range' n (m - n))
  /-- Every mark has a span. -/
  located : ∀ a ∈ marks, a.span.isSome = true

namespace Allotted

variable {n m k : Nat} {is js : List Mark}

/-- At first there are no marks. -/
theorem nil (n : Nat) : Allotted n n [] := by
  refine ⟨Nat.le_refl n, ?_, fun a ha => absurd ha List.not_mem_nil⟩
  rw [Nat.sub_self, List.range'_zero]
  rfl

/-- Marks that are handed out after others. -/
theorem append (h : Allotted n m is) (h' : Allotted m k js) : Allotted n k (is ++ js) := by
  have hle := h.le
  have hle' := h'.le
  have hrange : List.range' n (m - n) ++ List.range' m (k - m) = List.range' n (k - n) := by
    have hjoin := List.range'_append_1 (s := n) (m := m - n) (n := k - m)
    rwa [Nat.add_sub_cancel' hle, show m - n + (k - m) = k - n by omega] at hjoin
  refine ⟨Nat.le_trans hle hle', ?_, List.forall_mem_append.2 ⟨h.located, h'.located⟩⟩
  rw [← hrange, List.map_append]
  exact h.perm.append h'.perm

/-- The order of the marks does not matter. -/
theorem of_perm (h : Allotted n m is) (hp : js.Perm is) : Allotted n m js :=
  ⟨h.le, (hp.map Mark.id).trans h.perm, fun a ha => h.located a (hp.mem_iff.1 ha)⟩

/-- The next mark can be put in front. -/
theorem next (h : Allotted n m is) (span : Span) : Allotted n (m + 1) (⟨m, some span⟩ :: is) := by
  have hone : Allotted m (m + 1) [⟨m, some span⟩] := by
    refine ⟨Nat.le_succ m, ?_, List.forall_mem_singleton.2 rfl⟩
    rw [Nat.add_sub_cancel_left]
    rfl
  exact (h.append hone).of_perm (List.perm_append_singleton _ is).symm

/-- A tree in front of other trees. -/
theorem cons {t : Tree Mark} {ts : List (Tree Mark)} (h : Allotted n m t.marks)
    (h' : Allotted m k (ts.flatMap Tree.marks)) :
    Allotted n k ((t :: ts).flatMap Tree.marks) := by
  rw [List.flatMap_cons]
  exact h.append h'

/-- A node that is allocated behind its children. -/
theorem grow {t : Tree Mark} {span : Span} (h : Allotted n m (t.subtrees.flatMap Tree.marks))
    (hlabel : t.label = ⟨m, some span⟩) : Allotted n (m + 1) t.marks := by
  rw [Tree.marks_eq, hlabel]
  exact h.next span

/-- The identities of the nodes of a tree differ if its marks were handed out. -/
theorem nodup {t : Tree Mark} (h : Allotted n m t.marks) : (t.nodes.map Tree.id).Nodup := by
  have hperm := h.perm
  rw [Tree.marks, List.map_map] at hperm
  exact hperm.nodup_iff.2 List.nodup_range'

/-- The nodes of a tree have spans if its marks were handed out. -/
theorem isLocated {t : Tree Mark} (h : Allotted n m t.marks) : t.IsLocated :=
  fun _ hn => h.located _ (List.mem_map_of_mem hn)

end Allotted

/-- The outcome of a builder against that of a computation without an arena: they fail with the same
error, or their results are in the given relation, together with the number of nodes. -/
def Mirrors {α β : Type} (P : α → Nat → β → Prop) :
    Except ParseError (α × Nat) → Except ParseError β → Prop
  | .ok (a, m), .ok b => P a m b
  | .error e, .error e' => e = e'
  | _, _ => False

/-- The same error mirrors itself. -/
theorem Mirrors.error {α β : Type} {P : α → Nat → β → Prop} (e : ParseError) :
    Mirrors P (.error e) (.error e) := rfl

/-- Steps are mirrored one by one. -/
theorem Mirrors.bind {α β γ δ : Type} {P : α → Nat → β → Prop} {Q : γ → Nat → δ → Prop}
    {first : Builder α} {n : Nat} {plain : Except ParseError β} {second : α → Builder γ}
    {second' : β → Except ParseError δ} (h : Mirrors P (first n) plain)
    (h' : ∀ a m b, P a m b → Mirrors Q (second a m) (second' b)) :
    Mirrors Q ((first >>= second) n) (plain >>= second') := by
  have hbind : (first >>= second) n = first n >>= fun p => second p.1 p.2 := rfl
  rw [hbind]
  cases hfirst : first n with
  | ok p =>
    rw [hfirst] at h
    cases plain with
    | ok b => exact h' p.1 p.2 b h
    | error e => exact h.elim
  | error e =>
    rw [hfirst] at h
    cases plain with
    | ok b => exact h.elim
    | error e' => exact h

/-- Where the computation has a result, the builder has one too. -/
theorem Mirrors.exists_ok {α β : Type} {P : α → Nat → β → Prop} {x : Except ParseError (α × Nat)}
    {b : β} (h : Mirrors P x (.ok b)) : ∃ a m, x = .ok (a, m) ∧ P a m b := by
  cases x with
  | ok p => exact ⟨p.1, p.2, rfl, h⟩
  | error e => exact h.elim

/-- What a builder of a tree gives if there are `n` nodes already: the tree is the plain one but for
the identities, and its marks are those that were handed out meanwhile. -/
structure Grown (n : Nat) (t : Tree Mark) (m : Nat) (plain : Tree Span) : Prop where
  unmarked : t.unmarked = plain
  marks : Allotted n m t.marks

/-- A builder does what a computation without an arena does, and every node that it allocates gets
one place in its tree. -/
def Builds (builder : Builder (Tree Mark)) (plain : Except ParseError (Tree Span)) : Prop :=
  ∀ n, Mirrors (Grown n) (builder n) plain

/-- The span of a node is the label of the plain tree. -/
theorem label_unmarked (t : Tree Mark) : t.unmarked.label = spanOf t := Tree.label_relabel _ t

section Operations

/-- A waiting operator without identities. -/
def Waiting.unmarked : Waiting → Operation.Waiting
  | .unary op span => .unary op span
  | .binary left op => .binary left.unmarked op

/-- The marks of the left operand of a waiting operator. -/
def Waiting.marks : Waiting → List Mark
  | .unary .. => []
  | .binary left _ => left.marks

/-- Identities do not change the strength of an operator. -/
theorem Waiting.strength_unmarked (w : Waiting) : w.unmarked.strength = w.strength := by
  cases w <;> rfl

/-- A waiting operator and its operands make up a new node. -/
theorem Waiting.apply_eq (w : Waiting) (t : Tree Mark) (n : Nat) :
    ∃ u span, w.apply t n = .ok (u, n + 1) ∧ u.unmarked = w.unmarked.apply t.unmarked ∧
      u.marks = ⟨n, some span⟩ :: (w.marks ++ t.marks) := by
  cases w with
  | unary op span =>
    refine ⟨_, span.combine (spanOf t), rfl, ?_, ?_⟩
    · rw [Waiting.unmarked, Operation.Waiting.apply, label_unmarked]
      rfl
    · rw [Tree.marks_eq]
      simp [Tree.subtrees, Tree.children, Waiting.marks, Tree.label]
  | binary left op =>
    refine ⟨_, (spanOf left).combine (spanOf t), rfl, ?_, ?_⟩
    · rw [Waiting.unmarked, Operation.Waiting.apply, label_unmarked, label_unmarked]
      rfl
    · rw [Tree.marks_eq]
      simp [Tree.subtrees, Tree.children, Waiting.marks, Tree.label]

variable {n m : Nat}

/-- What is left of a row on both sides: the waiting operators and the operand in front of them are
those of the plain row, and all marks that were handed out meanwhile are below them. -/
structure Settled (n : Nat) (row : List Waiting × Tree Mark) (m : Nat)
    (plain : List Operation.Waiting × Tree Span) : Prop where
  waiting : row.1.map Waiting.unmarked = plain.1
  operand : row.2.unmarked = plain.2
  marks : Allotted n m (row.1.flatMap Waiting.marks ++ row.2.marks)

/-- Settling allocates a node for each operator that it applies. -/
theorem mirrors_settle (strength : Nat) (ws : List Waiting) (t : Tree Mark)
    (h : Allotted n m (ws.flatMap Waiting.marks ++ t.marks)) :
    Mirrors (Settled n) (settle strength ws t m)
      (.ok (Operation.settle strength (ws.map Waiting.unmarked) t.unmarked)) := by
  induction ws generalizing t m with
  | nil => exact ⟨rfl, rfl, h⟩
  | cons w ws ih =>
    rw [List.map_cons, Operation.settle, Waiting.strength_unmarked]
    unfold settle
    split
    · obtain ⟨u, span, happly, hplain, hmarks⟩ := w.apply_eq t m
      have hperm : (ws.flatMap Waiting.marks ++ u.marks).Perm
          (⟨m, some span⟩ :: ((w :: ws).flatMap Waiting.marks ++ t.marks)) := by
        rw [hmarks, List.flatMap_cons]
        refine List.perm_middle.trans (List.Perm.cons _ ?_)
        rw [← List.append_assoc]
        exact List.perm_append_comm.append_right t.marks
      have hstep : (w.apply t >>= fun u => settle strength ws u) m =
          w.apply t m >>= fun p => settle strength ws p.1 p.2 := rfl
      rw [hstep, happly, ← hplain]
      exact ih u ((h.next span).of_perm hperm)
    · exact ⟨rfl, rfl, h⟩

/-- No operator still waits if all of them are settled. -/
theorem waiting_settle_zero (ws : List Operation.Waiting) (t : Tree Span) :
    (Operation.settle 0 ws t).1 = [] := by
  induction ws generalizing t with
  | nil => rfl
  | cons w ws ih =>
    rw [Operation.settle, if_pos (Nat.zero_le _)]
    exact ih _

/-- An operator behind an operand makes a new node of it. -/
theorem mirrors_applyBehind (op : UnaryOp) (span : Span) (t : Tree Mark) (marks : List Mark)
    (h : Allotted n m (marks ++ t.marks)) :
    Mirrors (fun u m' plain => u.unmarked = plain ∧ Allotted n m' (marks ++ u.marks))
      (applyBehind op span t m) (Operation.applyBehind op span t.unmarked) := by
  unfold applyBehind Operation.applyBehind
  rw [Tree.kind_unmarked, label_unmarked]
  dsimp only
  cases t.kind with
  | var =>
    refine ⟨rfl, (h.next ((spanOf t).combine span)).of_perm ?_⟩
    rw [Tree.marks_eq]
    simp [Tree.subtrees, Tree.children, Tree.label]
  | _ => exact .error _

/-- A part of an operation with identities and one without them. -/
inductive Item.Builds : Item → Operation.Item → Prop
  | before (op : UnaryOp) (span : Span) : Builds (.before op span) (.before op span)
  | operand {builder : Builder (Tree Mark)} {result : Except ParseError (Tree Span)}
      (h : Arena.Builds builder result) : Builds (.operand builder) (.operand result)
  | behind (op : UnaryOp) (span : Span) : Builds (.behind op span) (.behind op span)
  | between (op : BinaryOp) : Builds (.between op) (.between op)

/-- Whether an operand or an operator is expected next, the nodes that are allocated end up in the
tree, together with those of the operands that wait. -/
theorem mirrors_expect {items : List Item} {items' : List Operation.Item}
    (h : List.Forall₂ Item.Builds items items') :
    (∀ ws m, Allotted n m (ws.flatMap Waiting.marks) →
      Mirrors (Grown n) (expectOperand ws items m)
        (Operation.expectOperand (ws.map Waiting.unmarked) items')) ∧
      ∀ ws t m, Allotted n m (ws.flatMap Waiting.marks ++ t.marks) →
        Mirrors (Grown n) (expectOperator ws t items m)
          (Operation.expectOperator (ws.map Waiting.unmarked) t.unmarked items') := by
  induction h with
  | nil =>
    refine ⟨fun ws m _ => .error _, fun ws t m hmarks => ?_⟩
    obtain ⟨p, m', hsettle, hp⟩ := (mirrors_settle 0 ws t hmarks).exists_ok
    have hnone : p.1 = [] := List.map_eq_nil_iff.1 (hp.waiting.trans (waiting_settle_zero _ _))
    have hmarks' := hp.marks
    rw [hnone] at hmarks'
    have hstep : expectOperator ws t [] m = settle 0 ws t m >>= fun p => .ok (p.1.2, p.2) := rfl
    rw [hstep, hsettle]
    exact ⟨hp.operand, hmarks'⟩
  | @cons i i' items items' hi _ ih =>
    refine ⟨fun ws m hmarks => ?_, fun ws t m hmarks => ?_⟩
    · cases hi with
      | before op span =>
        exact ih.1 (.unary op span :: ws) m hmarks
      | operand h =>
        refine (h m).bind fun t m' s ht => ?_
        obtain ⟨rfl, ht⟩ := ht
        exact ih.2 ws t m' (hmarks.append ht)
      | behind op span => exact .error _
      | between op => exact .error _
    · cases hi with
      | before op span => exact .error _
      | operand h => exact .error _
      | behind op span =>
        refine (mirrors_applyBehind op span t _ hmarks).bind fun u m' s hu => ?_
        obtain ⟨rfl, hu⟩ := hu
        exact ih.2 ws u m' hu
      | between op =>
        obtain ⟨p, m', hsettle, hp⟩ := (mirrors_settle op.strength ws t hmarks).exists_ok
        have hstep : expectOperator ws t (.between op :: items) m =
            settle op.strength ws t m >>= fun p =>
              expectOperand (.binary p.1.2 op :: p.1.1) items p.2 := rfl
        have hplain : Operation.expectOperator (ws.map Waiting.unmarked) t.unmarked
            (.between op :: items') =
            Operation.expectOperand ((Waiting.binary p.2 op :: p.1).map Waiting.unmarked) items' := by
          rw [List.map_cons, hp.waiting, Waiting.unmarked, hp.operand]
          rfl
        rw [hstep, hsettle, hplain]
        refine ih.1 (.binary p.2 op :: p.1) m' (hp.marks.of_perm ?_)
        exact List.perm_append_comm

end Operations

/-- A node that is allocated behind its children. -/
theorem mirrors_node {n m : Nat} {span : Span} {make : Mark → Tree Mark} {plain : Tree Span}
    (hplain : (make ⟨m, some span⟩).unmarked = plain)
    (hlabel : (make ⟨m, some span⟩).label = ⟨m, some span⟩)
    (h : Allotted n m ((make ⟨m, some span⟩).subtrees.flatMap Tree.marks)) :
    Mirrors (Grown n) (node span make m) (.ok plain) := ⟨hplain, h.grow hlabel⟩

/-- Numbers are leaves. -/
theorem builds_number (start : Nat) (text : List Char) :
    Builds (number start text) (Build.number start text) := by
  intro n
  unfold number Build.number
  dsimp only
  cases Decimal.int64? text with
  | some v => exact mirrors_node rfl rfl (.nil n)
  | none => exact .error _

/-- A fragment of an operation is the same part with identities and without them. -/
theorem builds_item {f : Fragment} {builder : Builder (Tree Mark)}
    {result : Except ParseError (Tree Span)} (h : Builds builder result) :
    (item f builder).Builds (Build.item f result) := by
  unfold item Build.item
  cases Build.operatorBefore? f.rule with
  | some op => exact .before op f.span
  | none =>
    cases Build.operatorBehind? f.rule with
    | some op => exact .behind op f.span
    | none =>
      cases Build.operatorBetween? f.rule with
      | some op => exact .between op
      | none => exact .operand h

/-- Expressions are built like those without identities. -/
theorem builds_expression (f : Fragment) : Builds (expression f) (Build.expression f) := by
  induction f using Build.expression.induct _ fun fs =>
    List.Forall₂ Item.Builds (items fs) (Build.items fs) with
  | case1 start stop target value iht ihv =>
    intro n
    rw [expression, Build.expression]
    refine (iht n).bind fun t m _ ht => ?_
    obtain ⟨rfl, ht⟩ := ht
    refine (ihv m).bind fun v k _ hv => ?_
    obtain ⟨rfl, hv⟩ := hv
    exact mirrors_node rfl rfl (ht.cons (hv.cons (.nil k)))
  | case2 start stop place word operand ih =>
    intro n
    rw [expression, Build.expression]
    refine (ih n).bind fun t m _ ht => ?_
    obtain ⟨rfl, ht⟩ := ht
    exact mirrors_node rfl rfl (ht.cons (.nil m))
  | case3 start stop inner ih =>
    intro n
    rw [expression, Build.expression]
    exact (mirrors_expect ih).1 [] n (.nil n)
  | case4 start text =>
    rw [expression, Build.expression]
    exact builds_number start text
  | case5 start text =>
    intro n
    rw [expression, Build.expression]
    exact mirrors_node rfl rfl (.nil n)
  | case6 start text =>
    intro n
    rw [expression, Build.expression]
    exact mirrors_node rfl rfl (.nil n)
  | case7 f h₁ h₂ h₃ h₄ h₅ h₆ =>
    intro n
    rw [expression, Build.expression] <;> try assumption
    exact .error _
  | case8 => exact .nil
  | case9 f fs ih ihs =>
    rw [items, Build.items]
    exact .cons (builds_item ih) ihs

/-- Conditions are built like those without identities. -/
theorem builds_condition (f : Fragment) : Builds (condition f) (Build.condition f) := by
  intro n
  refine (builds_expression f n).bind fun t m _ ht => ?_
  obtain ⟨rfl, ht⟩ := ht
  exact mirrors_node rfl rfl (ht.cons (.nil m))

/-- A block stays the node that it is, and any other statement gets a node above it. -/
theorem mirrors_asBlock {n m : Nat} {t : Tree Mark} (h : Allotted n m t.marks) :
    Mirrors (Grown n) (asBlock t m) (.ok (Build.asBlock t.unmarked)) := by
  rw [asBlock, Build.asBlock, Tree.wrapBlock_eq, Tree.kind_unmarked, label_unmarked]
  split
  · exact ⟨rfl, h⟩
  · exact mirrors_node rfl rfl (h.cons (.nil m))

/-- A branch or a body is built as a block. -/
theorem Builds.branch {builder : Builder (Tree Mark)} {plain : Except ParseError (Tree Span)}
    (h : Builds builder plain) (n : Nat) :
    Mirrors (fun t m s => Grown n t m (Build.asBlock s)) ((builder >>= asBlock) n) plain := by
  have hplain : plain = plain >>= .ok := by cases plain <;> rfl
  rw [hplain]
  refine (h n).bind fun t m _ ht => ?_
  obtain ⟨rfl, ht⟩ := ht
  obtain ⟨u, k, hblock, hu⟩ := (mirrors_asBlock ht).exists_ok
  rw [hblock]
  exact hu

/-- Statements that are built one after the other. -/
structure GrownAll (n : Nat) (ts : List (Tree Mark)) (m : Nat) (plain : List (Tree Span)) :
    Prop where
  unmarked : ts.map Tree.unmarked = plain
  marks : Allotted n m (ts.flatMap Tree.marks)

/-- A block is allocated behind its statements. -/
theorem mirrors_block {n m : Nat} {span : Span} {ts : List (Tree Mark)}
    (h : Allotted n m (ts.flatMap Tree.marks)) :
    Mirrors (Grown n) (node span (.block · ts) m) (.ok (.block span (ts.map Tree.unmarked))) := by
  refine mirrors_node (Tree.unmarked_block _ ts) rfl ?_
  rwa [Tree.subtrees_block]

/-- Statements are built like those without identities. -/
theorem builds_statement (f : Fragment) : Builds (statement f) (Build.statement f) := by
  induction f using Build.statement.induct _ fun fs =>
    ∀ n, Mirrors (GrownAll n) (statements fs n) (Build.statements fs) with
  | case1 start stop inner ih =>
    intro n
    rw [statement, Build.statement]
    refine (ih n).bind fun ts m _ hts => ?_
    obtain ⟨rfl, hts⟩ := hts
    exact mirrors_block hts
  | case2 start stop e =>
    intro n
    rw [statement, Build.statement]
    refine (builds_expression e n).bind fun t m _ ht => ?_
    obtain ⟨rfl, ht⟩ := ht
    exact mirrors_node rfl rfl (ht.cons (.nil m))
  | case3 start stop place word c whenTrue iht =>
    intro n
    rw [statement, Build.statement]
    refine (builds_condition c n).bind fun c m _ hc => ?_
    obtain ⟨rfl, hc⟩ := hc
    refine (iht.branch m).bind fun t k _ ht => ?_
    obtain ⟨ht', ht⟩ := ht
    rw [← ht']
    exact mirrors_node rfl rfl (hc.cons (ht.cons (.nil k)))
  | case4 start stop place word c whenTrue place' word' whenFalse iht ihe =>
    intro n
    rw [statement, Build.statement]
    refine (builds_condition c n).bind fun c m _ hc => ?_
    obtain ⟨rfl, hc⟩ := hc
    refine (iht.branch m).bind fun t k _ ht => ?_
    obtain ⟨ht', ht⟩ := ht
    rw [← ht']
    refine (ihe.branch k).bind fun e l _ he => ?_
    obtain ⟨he', he⟩ := he
    rw [← he']
    exact mirrors_node rfl rfl (hc.cons (ht.cons (he.cons (.nil l))))
  | case5 start stop place word c body ihb =>
    intro n
    rw [statement, Build.statement]
    refine (builds_condition c n).bind fun c m _ hc => ?_
    obtain ⟨rfl, hc⟩ := hc
    refine (ihb.branch m).bind fun b k _ hb => ?_
    obtain ⟨hb', hb⟩ := hb
    rw [← hb']
    exact mirrors_node rfl rfl (hc.cons (hb.cons (.nil k)))
  | case6 f h₁ h₂ h₃ h₄ h₅ =>
    intro n
    rw [statement, Build.statement] <;> try assumption
    exact .error _
  | case7 n => exact ⟨rfl, .nil n⟩
  | case8 place word n => exact ⟨rfl, .nil n⟩
  | case9 f fs h ih ihs n =>
    rw [statements, Build.statements] <;> try assumption
    refine (ih n).bind fun t m _ ht => ?_
    obtain ⟨rfl, ht⟩ := ht
    refine (ihs m).bind fun ts k _ hts => ?_
    obtain ⟨rfl, hts⟩ := hts
    exact ⟨rfl, ht.cons hts⟩

/-- Programs are built like blocks. -/
theorem builds_program (fs : List Fragment) : Builds (program fs) (Build.program fs) := by
  fun_cases Build.program fs with
  | case1 start stop inner =>
    have hscope := builds_statement (.phrase .scope start stop inner)
    rwa [statement, Build.statement] at hscope
  | case2 fs h =>
    intro n
    rw [program] <;> try assumption
    exact .error _

/-- The result of a builder without identities is that of the computation without an arena. -/
theorem Builds.map_unmarked {builder : Builder (Tree Mark)}
    {plain : Except ParseError (Tree Span)} (h : Builds builder plain) (n : Nat) :
    (builder.run' n).map Tree.unmarked = plain := by
  have hn := h n
  rw [StateT.run']
  cases hrun : builder n with
  | error e =>
    rw [hrun] at hn
    cases plain with
    | error e' => exact congrArg Except.error hn
    | ok s => exact hn.elim
  | ok p =>
    rw [hrun] at hn
    cases plain with
    | error e' => exact hn.elim
    | ok s => exact congrArg Except.ok hn.unmarked

/-- The marks in the tree that a builder gives are those that it handed out. -/
theorem Builds.allotted {builder : Builder (Tree Mark)} {plain : Except ParseError (Tree Span)}
    (h : Builds builder plain) {n : Nat} {t : Tree Mark} (ht : builder.run' n = .ok t) :
    ∃ m, Allotted n m t.marks := by
  have hn := h n
  rw [StateT.run'] at ht
  cases hrun : builder n with
  | error e =>
    rw [hrun] at ht
    cases ht
  | ok p =>
    rw [hrun] at hn ht
    cases ht
    cases plain with
    | error e' => exact hn.elim
    | ok s => exact ⟨p.2, hn.marks⟩

end Arena

/-- Parsing gives the tree that the fragments of a text denote, or the error of the first offence
among them, or that of the grammar. -/
theorem parse_eq (source : String) :
    parse source = match Grammar.Rule.program.read source.toList with
      | .ok fragments => Build.program fragments
      | .error log => .error (.ofAttempts source.toList log) := by
  unfold parse parseNodes
  cases Grammar.Rule.program.read source.toList with
  | error log => rfl
  | ok fs => exact (Arena.builds_program fs).map_unmarked 0

/-- What is known of a tree that the parser allocated. -/
theorem parseNodes_allotted {source : String} {root : Tree Mark}
    (h : parseNodes source = .ok root) : ∃ m, Arena.Allotted 0 m root.marks := by
  unfold parseNodes at h
  split at h
  · next fs _ => exact (Arena.builds_program fs).allotted h
  · cases h

/-- The nodes of a parsed tree have identities of their own. -/
theorem parseNodes_nodup {source : String} {root : Tree Mark} (h : parseNodes source = .ok root) :
    (root.nodes.map Tree.id).Nodup := by
  obtain ⟨m, hmarks⟩ := parseNodes_allotted h
  exact hmarks.nodup

/-- No node of a parsed tree is used in two places. -/
theorem parseNodes_unshared {source : String} {root : Tree Mark}
    (h : parseNodes source = .ok root) : root.Unshared :=
  Tree.unshared_of_nodup (parseNodes_nodup h)

/-- All nodes of a parsed tree have spans. -/
theorem parseNodes_isLocated {source : String} {root : Tree Mark}
    (h : parseNodes source = .ok root) : root.IsLocated := by
  obtain ⟨m, hmarks⟩ := parseNodes_allotted h
  exact hmarks.isLocated

/-- Where there is a parsed tree, it was allocated. -/
theorem exists_parseNodes {source : String} {t : Tree Span} (h : parse source = .ok t) :
    ∃ root, parseNodes source = .ok root ∧ root.unmarked = t := by
  unfold parse at h
  cases hnodes : parseNodes source with
  | error e =>
    rw [hnodes] at h
    cases h
  | ok root =>
    rw [hnodes] at h
    cases h
    exact ⟨root, rfl, rfl⟩

end IntScript
