import IntScript.Proofs.Eval.Keeping

/-!
# Which nodes yield values

Whether a node yields a value can be read off the tree. Blocks, branches and loops yield none, and a
sequence yields what its last part yields. All other nodes yield a value whenever they are evaluated
with success.

A node that yields none may stand where a value is needed. This is the only way in which a value can
be missing, so the fault that reports it is about such a node.
-/

namespace IntScript

/-- A node yields no value. -/
inductive Tree.IsValueless {α : Type} : Tree α → Prop
  | block {a : α} {ts : List (Tree α)} : IsValueless (.block a ts)
  | ifElse {a : α} {c t : Tree α} {e : Option (Tree α)} : IsValueless (.ifElse a c t e)
  | whileLoop {a : α} {c b : Tree α} : IsValueless (.whileLoop a c b)
  /-- Nothing follows a part that yields none. -/
  | last {a : α} {c : Tree α} (h : c.IsValueless) : IsValueless (.sequence a c none)
  /-- What follows yields none. -/
  | rest {a : α} {c r : Tree α} (h : r.IsValueless) : IsValueless (.sequence a c (some r))

/-- The children of a node whose values are needed: operands of operators that do not write, values
that are assigned or printed, and conditions. -/
def Tree.needed {α : Type} : Tree α → List (Tree α)
  | .binary _ _ l r => [l, r]
  | .unary _ op t => if op.mutates then [] else [t]
  | .assign _ _ v => [v]
  | .condition _ t | .print _ t => [t]
  | .ifElse _ c _ _ | .whileLoop _ c _ => [c]
  | .literal .. | .input _ | .var .. | .sequence .. | .block .. => []

namespace Eval

open Exec (Keeps)

/-- If a fault is about a missing value, it is the fault of a node of the tree that yields none and
stands where a value is needed. -/
def Explained (ctx : Context) (root : Tree Mark) (f : Fault) : Prop :=
  ∀ kind, f.cause = .missingValue kind → ∃ q ∈ root.nodes, ∃ s ∈ q.needed,
    s.IsValueless ∧ s.kind = kind ∧ f = faultAt ctx s (.missingValue kind)

/-- An execution all of whose faults about missing values are explained. -/
abbrev Explains (ctx : Context) (root : Tree Mark) {α : Type} (x : Exec α) : Prop :=
  Keeps (fun _ => True) (Explained ctx root) (fun _ => True) x

/-- An execution that in addition yields none exactly if a node is one that yields none. -/
abbrev Yields (ctx : Context) (root t : Tree Mark) (x : Exec (Option Value)) : Prop :=
  Keeps (fun _ => True) (Explained ctx root) (fun o => o = none ↔ t.IsValueless) x

section Steps

variable {ctx : Context} {root t : Tree Mark} {α : Type} {results : α → Prop}

/-- A node may be blamed for all other causes. -/
theorem keeps_blame_other {cause : Fault.Cause} (h : ∀ kind, cause ≠ .missingValue kind) :
    Keeps (fun _ => True) (Explained ctx root) results (blame ctx t cause) :=
  .fail fun kind hkind => absurd hkind (h kind)

/-- An execution that changes the machine and then succeeds or blames a node for another cause. -/
theorem explains_of_step {x : Exec α}
    (h : ∀ m, (∃ a m', x m = (.done a, m')) ∨ ∃ cause m', x m = blame ctx t cause m' ∧
      ∀ kind, cause ≠ .missingValue kind) : Explains ctx root x := by
  intro m _
  rcases h m with ⟨a, m', hx⟩ | ⟨cause, m', hx, hcause⟩
  · rw [hx]
    exact ⟨trivial, trivial⟩
  · rw [hx]
    exact keeps_blame_other hcause m' trivial

/-- Reading a number. -/
theorem explains_readInput : Explains ctx root (readInput ctx t) := by
  refine explains_of_step (t := t) fun m => ?_
  unfold readInput
  split
  · exact .inl ⟨_, _, rfl⟩
  · next e input _ => exact .inr ⟨_, _, rfl, fun _ h => by cases e <;> cases h⟩

/-- Printing a line. -/
theorem explains_printLine (v : Value) : Explains ctx root (printLine ctx t v) := by
  refine explains_of_step (t := t) fun m => ?_
  unfold printLine
  split
  · exact .inl ⟨_, _, rfl⟩
  · exact .inr ⟨_, _, rfl, fun _ h => by cases h⟩

/-- Counting a loop body. -/
theorem explains_countIteration : Explains ctx root (countIteration ctx t) := by
  refine explains_of_step (t := t) fun m => ?_
  dsimp only [countIteration]
  split
  · split
    · exact .inr ⟨_, _, rfl, fun _ h => by cases h⟩
    · exact .inl ⟨_, _, rfl⟩
  · exact .inl ⟨_, _, rfl⟩

/-- Reading a slot. -/
theorem explains_readSlot (slot : Nat) : Explains ctx root (readSlot ctx t slot) := by
  refine explains_of_step (t := t) fun m => ?_
  unfold readSlot
  split
  · exact .inl ⟨_, _, rfl⟩
  · exact .inr ⟨_, _, rfl, fun _ h => by cases h⟩

/-- Writing a slot. -/
theorem explains_writeSlot (slot : Nat) (v : Value) :
    Explains ctx root (writeSlot ctx t slot v) := by
  refine explains_of_step (t := t) fun m => ?_
  unfold writeSlot
  split
  · exact .inl ⟨_, _, rfl⟩
  · exact .inr ⟨_, _, rfl, fun _ h => by cases h⟩

/-- Finding the slot of a variable. -/
theorem explains_slotOf (name : String) : Explains ctx root (slotOf ctx t name) := by
  unfold slotOf
  split
  · exact .pure trivial
  · exact keeps_blame_other fun _ h => by cases h

/-- Finding the slot that an operator writes to. -/
theorem explains_targetSlot (node : Tree Mark) (symbol : String) :
    Explains ctx root (targetSlot ctx node symbol t) := by
  unfold targetSlot
  split
  · exact explains_slotOf _
  · exact keeps_blame_other fun _ h => by cases h

/-- Applying an operator. -/
theorem explains_applyBinary (op : BinaryOp) (l r : Value) :
    Explains ctx root (applyBinary ctx t op l r) := by
  unfold applyBinary
  split
  · exact .pure trivial
  · exact keeps_blame_other fun _ h => by cases h

/-- Executing statements in order. -/
theorem explains_evalStatements {d : Nat} {ts : List (Tree Mark)}
    (hts : ∀ t ∈ ts, Explains ctx root (eval ctx d t)) :
    Explains ctx root (evalStatements ctx d ts) := by
  induction ts with
  | nil =>
    rw [evalStatements]
    exact .pure trivial
  | cons t ts ih =>
    rw [evalStatements]
    refine (hts t List.mem_cons_self).bind fun _ _ => ?_
    exact ih fun t ht => hts t (List.mem_cons_of_mem _ ht)

/-- Flushing the output. -/
theorem explains_finish : Explains ctx root (finish ctx t) := by
  refine explains_of_step (t := t) fun m => ?_
  unfold finish
  split
  · exact .inl ⟨_, _, rfl⟩
  · exact .inr ⟨_, _, rfl, fun _ h => by cases h⟩

/-- What is done at a node, unless it is nested too deeply. -/
theorem keeps_atDepth_explained {d : Nat} {x : Exec α}
    (h : Keeps (fun _ => True) (Explained ctx root) results x) :
    Keeps (fun _ => True) (Explained ctx root) results (atDepth ctx d t x) := by
  unfold atDepth
  split
  · exact keeps_blame_other fun _ h => by cases h
  · exact h

/-- A node that yields none where a value is needed explains why the value is missing. -/
theorem Yields.needValue {q : Tree Mark} (hq : q ∈ root.nodes) (ht : t ∈ q.needed)
    {x : Exec (Option Value)} (hx : Yields ctx root t x) :
    Explains ctx root (needValue ctx t x) := by
  refine hx.bind fun o ho => ?_
  cases o with
  | some v => exact .pure trivial
  | none =>
    refine .fail fun kind hkind => ?_
    cases hkind
    exact ⟨q, hq, t, ht, ho.1 rfl, rfl, rfl⟩

/-- Nothing is asked of a value that is thrown away. -/
theorem Yields.explains {x : Exec (Option Value)} (h : Yields ctx root t x) :
    Explains ctx root x :=
  h.weaken fun _ _ => trivial

/-- A node that yields a value is not one of those that yield none. -/
theorem Explains.yields_some {x : Exec α} (hx : Explains ctx root x) (f : α → Value)
    (ht : ¬t.IsValueless) : Yields ctx root t (x >>= fun a => pure (some (f a))) :=
  hx.bind fun _ _ => .pure (iff_of_false (fun h => by cases h) ht)

/-- A node that yields none is one of those that do. -/
theorem Explains.yields_none {x : Exec α} (hx : Explains ctx root x) (ht : t.IsValueless) :
    Yields ctx root t (x >>= fun _ => pure none) :=
  hx.bind fun _ _ => .pure ⟨fun _ => ht, fun _ => rfl⟩

end Steps

/-- Evaluating a node of a tree explains missing values, and yields none exactly if the node is one
that yields none. -/
theorem yields_eval {ctx : Context} {root t : Tree Mark} (ht : t ∈ root.nodes) (d : Nat) :
    Yields ctx root t (eval ctx d t) := by
  induction t using Tree.induction generalizing d with
  | literal a v =>
    rw [eval]
    exact keeps_atDepth_explained (.pure (iff_of_false (fun h => by cases h) fun h => by cases h))
  | input a =>
    rw [eval]
    exact keeps_atDepth_explained (explains_readInput.yields_some _ fun h => by cases h)
  | var a name =>
    rw [eval]
    refine keeps_atDepth_explained ((explains_slotOf name).bind fun slot _ => ?_)
    exact Explains.yields_some (explains_readSlot slot) _ fun h => by cases h
  | binary a op l r ihl ihr =>
    have hl := ihl (Tree.mem_nodes_trans ht (.head _)) (d + 1)
    have hr := ihr (Tree.mem_nodes_trans ht (.tail _ (.head _))) (d + 1)
    rw [eval]
    refine keeps_atDepth_explained ((hl.needValue ht (.head _)).bind fun x _ => ?_)
    refine (hr.needValue ht (.tail _ (.head _))).bind fun y _ => ?_
    exact Explains.yields_some (explains_applyBinary op x y) _ fun h => by cases h
  | unary a op t ih =>
    have hop := ih (Tree.mem_nodes_trans ht (.head _)) (d + 1)
    rw [eval]
    refine keeps_atDepth_explained ?_
    split
    · refine (explains_targetSlot _ _).bind fun slot _ => ?_
      refine (explains_readSlot slot).bind fun x _ => ?_
      exact Explains.yields_some (explains_writeSlot slot _) _ fun h => by cases h
    · next hmut =>
      have hneeded : t ∈ (Tree.unary a op t).needed := by
        rw [Tree.needed, if_neg hmut]
        exact List.mem_cons_self
      exact Explains.yields_some (hop.needValue ht hneeded) _ fun h => by cases h
  | assign a t v _ ihv =>
    have hv := ihv (Tree.mem_nodes_trans ht (.tail _ (.head _))) (d + 1)
    rw [eval]
    refine keeps_atDepth_explained ((explains_targetSlot _ _).bind fun slot _ => ?_)
    refine (hv.needValue ht (.head _)).bind fun x _ => ?_
    exact Explains.yields_some (explains_writeSlot slot x) _ fun h => by cases h
  | sequence a c rest ihc ihr =>
    cases rest with
    | none =>
      have hc := ihc (Tree.mem_nodes_trans ht (.head _)) (d + 1)
      rw [eval]
      refine keeps_atDepth_explained (hc.weaken fun o ho => ho.trans ⟨.last, fun h => ?_⟩)
      cases h with
      | last h => exact h
    | some r =>
      have hc := ihc (Tree.mem_nodes_trans ht (.head _)) (d + 1)
      have hr := ihr r rfl (Tree.mem_nodes_trans ht (.tail _ (.head _))) (d + 1)
      rw [eval]
      refine keeps_atDepth_explained (hc.bind fun _ _ => ?_)
      refine hr.weaken fun o ho => ho.trans ⟨.rest, fun h => ?_⟩
      cases h with
      | rest h => exact h
  | block a ts ih =>
    have hts : ∀ s ∈ ts, Explains ctx root (eval ctx (d + 1) s) := by
      intro s hs
      have hmem : s ∈ (Tree.block a ts).subtrees := by rwa [Tree.subtrees_block]
      exact (ih s hs (Tree.mem_nodes_trans ht hmem) (d + 1)).explains
    rw [eval]
    exact keeps_atDepth_explained (Explains.yields_none (explains_evalStatements hts) .block)
  | condition a t ih =>
    have hop := ih (Tree.mem_nodes_trans ht (.head _)) (d + 1)
    rw [eval]
    refine keeps_atDepth_explained (Explains.yields_some (hop.needValue ht (.head _)) _ ?_)
    exact fun h => by cases h
  | ifElse a c t e ihc iht ihe =>
    cases e with
    | none =>
      have hc := ihc (Tree.mem_nodes_trans ht (.head _)) (d + 1)
      have hy := iht (Tree.mem_nodes_trans ht (.tail _ (.head _))) (d + 1)
      rw [eval]
      refine keeps_atDepth_explained ((hc.needValue ht (.head _)).bind fun x _ => ?_)
      dsimp only
      split
      · exact Explains.yields_none hy.explains .ifElse
      · exact .pure ⟨fun _ => .ifElse, fun _ => rfl⟩
    | some e =>
      have hc := ihc (Tree.mem_nodes_trans ht (.head _)) (d + 1)
      have hy := iht (Tree.mem_nodes_trans ht (.tail _ (.head _))) (d + 1)
      have he := ihe e rfl (Tree.mem_nodes_trans ht (.tail _ (.tail _ (.head _)))) (d + 1)
      rw [eval]
      refine keeps_atDepth_explained ((hc.needValue ht (.head _)).bind fun x _ => ?_)
      dsimp only
      split
      · exact Explains.yields_none hy.explains .ifElse
      · exact Explains.yields_none he.explains .ifElse
  | whileLoop a c b ihc ihb =>
    have hc := ihc (Tree.mem_nodes_trans ht (.head _)) (d + 1)
    have hb := ihb (Tree.mem_nodes_trans ht (.tail _ (.head _))) (d + 1)
    have htest := (hc.needValue ht (.head _)).map Value.truthy
    have hcount : Explains ctx root (countIteration ctx (.whileLoop a c b)) :=
      explains_countIteration
    have hbody := hcount.bind fun _ _ => hb.explains.map fun _ => ()
    rw [eval]
    exact keeps_atDepth_explained (Explains.yields_none (htest.loop hbody ctx.patience) .whileLoop)
  | print a t ih =>
    have hop := ih (Tree.mem_nodes_trans ht (.head _)) (d + 1)
    rw [eval]
    refine keeps_atDepth_explained ((hop.needValue ht (.head _)).bind fun x _ => ?_)
    exact Explains.yields_some (explains_printLine x) _ fun h => by cases h

/-- Whatever the tree, the limits, the machine and the depth, an evaluation that succeeds yields
none exactly if its node is a block, a branch, a loop or a sequence whose last part yields none. An
evaluation that fails for want of a value names the kind of such a node, and that node stands in the
tree as the operand of an operator that does not write, as a value that is assigned or printed, or
as a condition. The same holds of whole runs. -/
theorem values_explained (ctx : Context) (t : Tree Mark) (d : Nat) (m : Machine) :
    (eval ctx d t m).1.Meets (Explained ctx t) (fun o => o = none ↔ t.IsValueless) ∧
      (run ctx t m).1.Meets (Explained ctx t) (fun o => o = none ↔ t.IsValueless) := by
  refine ⟨(yields_eval t.mem_nodes_self d m trivial).1, ?_⟩
  have hrun : Yields ctx t t (run ctx t) := by
    rw [run_eq_bind]
    refine (yields_eval t.mem_nodes_self 0).bind fun o ho => ?_
    exact explains_finish.bind fun _ _ => .pure ho
  exact (hrun m trivial).1

/-- A statement that prints what stands behind a number, which is a block. -/
def printedBlock : Tree Mark :=
  .print ⟨0, none⟩
    (.sequence ⟨1, none⟩ (.literal ⟨2, none⟩ 7) (some (.block ⟨3, none⟩ [.input ⟨4, none⟩])))

/-- The block reads its number, and then the sequence has no value that could be printed. -/
theorem values_explained_printedBlock :
    let ctx : Context := ⟨{}, .empty, false, 0⟩
    let m : Machine := ⟨.zeros 0, .ofBytes (Text.encode "5".toList) false, {}, 0⟩
    (run ctx printedBlock m).1 = .failed ⟨.missingValue .sequence, none⟩ ∧
      ∃ q ∈ printedBlock.nodes, ∃ s ∈ q.needed, s.IsValueless ∧ s.kind = .sequence := by
  intro ctx m
  have hrun : (run ctx printedBlock m).1 = .failed ⟨.missingValue .sequence, none⟩ := by rfl
  have hexplained := (values_explained ctx printedBlock 0 m).2
  rw [hrun] at hexplained
  obtain ⟨q, hq, s, hs, hvalueless, hkind, -⟩ := hexplained .sequence rfl
  exact ⟨hrun, q, hq, s, hs, hvalueless, hkind⟩

end Eval
end IntScript
