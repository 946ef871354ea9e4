import IntScript.Proofs.Tree.Shape
import Mathlib.Data.List.Perm.Basic

/-!
# The nodes of a tree

The tour of a tree meets its nodes in pre-order: the root comes first, then the nodes of each child
in turn. Every node but the root is met exactly once as a child of another one.
-/

namespace IntScript.Tree

variable {α : Type}

/-- Induction on trees with one hypothesis for all children. -/
theorem induction_on_children {motive : Tree α → Prop}
    (step : ∀ t : Tree α, (∀ p ∈ t.children, motive p.2) → motive t) (t : Tree α) : motive t := by
  induction t using Tree.induction with
  | literal a v => exact step _ (by simp [children])
  | input a => exact step _ (by simp [children])
  | var a name => exact step _ (by simp [children])
  | binary a op l r hl hr => exact step _ (by simp [children, hl, hr])
  | unary a op t ht => exact step _ (by simp [children, ht])
  | assign a t v ht hv => exact step _ (by simp [children, ht, hv])
  | sequence a c rest hc hr =>
    cases rest with
    | none => exact step _ (by simp [children, hc])
    | some r => exact step _ (by simp [children, hc, hr r rfl])
  | block a ts hts =>
    refine step _ fun p hp => ?_
    obtain ⟨⟨t, i⟩, hq, rfl⟩ := List.mem_map.1 hp
    exact hts t (List.fst_mem_of_mem_zipIdx hq)
  | condition a t ht => exact step _ (by simp [children, ht])
  | ifElse a c t e hc ht he =>
    cases e with
    | none => exact step _ (by simp [children, hc, ht])
    | some e => exact step _ (by simp [children, hc, ht, he e rfl])
  | whileLoop a c b hc hb => exact step _ (by simp [children, hc, hb])
  | print a t ht => exact step _ (by simp [children, ht])

/-- The node that a step of a tour enters. -/
def Step.entered? : Step α → Option (Tree α)
  | .enter _ node => some node
  | .leave _ => none

/-- The nodes are those that the tour enters. -/
theorem nodes_eq_entered (t : Tree α) : t.nodes = t.tour.filterMap Step.entered? := by
  rw [nodes, listing, List.map_filterMap]
  congr 1
  funext s
  cases s <;> rfl

/-- Where a tour comes from does not change the nodes that it enters. -/
theorem entered_tourFrom (parent : Option (Role × α)) (t : Tree α) :
    (t.tourFrom parent).filterMap Step.entered? = t.nodes := by
  rw [nodes_eq_entered, tour]
  cases t with
  | sequence a c rest => cases rest <;> rfl
  | ifElse a c t e => cases e <;> rfl
  | _ => rfl

/-- The nodes of the statements of a block. -/
theorem entered_tourStatements (a : α) (i : Nat) (ts : List (Tree α)) :
    (tourStatements a i ts).filterMap Step.entered? = ts.flatMap nodes := by
  induction ts generalizing i with
  | nil => rfl
  | cons t ts ih =>
    rw [tourStatements, List.filterMap_append, entered_tourFrom, ih, List.flatMap_cons]

/-- The children of a node without their roles. -/
def subtrees (t : Tree α) : List (Tree α) := t.children.map (·.2)

/-- The children of a block are its statements. -/
theorem subtrees_block (a : α) (ts : List (Tree α)) : (Tree.block a ts).subtrees = ts := by
  rw [subtrees, children, List.map_map]
  exact List.zipIdx_map_fst 0 ts

/-- The root is the first node, and the nodes of its children follow in turn. -/
theorem nodes_eq (t : Tree α) : t.nodes = t :: t.subtrees.flatMap nodes := by
  rw [nodes_eq_entered, tour]
  cases t with
  | sequence a c rest =>
    cases rest <;> simp [tourFrom, Step.entered?, entered_tourFrom, subtrees, children]
  | ifElse a c t e =>
    cases e <;> simp [tourFrom, Step.entered?, entered_tourFrom, subtrees, children]
  | block a ts =>
    rw [subtrees_block]
    simp [tourFrom, Step.entered?, entered_tourStatements]
  | _ => simp [tourFrom, Step.entered?, entered_tourFrom, subtrees, children]

/-- The root is a node. -/
theorem mem_nodes_self (t : Tree α) : t ∈ t.nodes := by
  rw [nodes_eq]
  exact List.mem_cons_self

/-- The nodes of a child are nodes. -/
theorem mem_nodes_of_subtree {t s n : Tree α} (hs : s ∈ t.subtrees) (hn : n ∈ s.nodes) :
    n ∈ t.nodes := by
  rw [nodes_eq]
  exact List.mem_cons_of_mem _ (List.mem_flatMap.2 ⟨s, hs, hn⟩)

/-- The nodes of a node are nodes of the tree. -/
theorem mem_nodes_of_mem {t n m : Tree α} (hn : n ∈ t.nodes) (hm : m ∈ n.nodes) : m ∈ t.nodes := by
  induction t using induction_on_children with
  | step t ih =>
    rw [nodes_eq] at hn
    rcases List.mem_cons.1 hn with rfl | hn
    · exact hm
    · obtain ⟨s, hs, hn⟩ := List.mem_flatMap.1 hn
      obtain ⟨p, hp, rfl⟩ := List.mem_map.1 hs
      exact mem_nodes_of_subtree hs (ih p hp hn)

/-- What holds of all nodes holds of the root and of all nodes of its children. -/
theorem forall_nodes_iff {P : Tree α → Prop} {t : Tree α} :
    (∀ n ∈ t.nodes, P n) ↔ P t ∧ ∀ s ∈ t.subtrees, ∀ n ∈ s.nodes, P n := by
  rw [nodes_eq, List.forall_mem_cons]
  refine and_congr_right fun _ => ?_
  constructor
  · intro h s hs n hn
    exact h n (List.mem_flatMap.2 ⟨s, hs, hn⟩)
  · intro h n hn
    obtain ⟨s, hs, hn⟩ := List.mem_flatMap.1 hn
    exact h s hs n hn

/-- All children of all nodes are the nodes without the root, in another order. -/
theorem subtrees_nodes_perm (t : Tree α) : (t.nodes.flatMap subtrees).Perm t.nodes.tail := by
  induction t using induction_on_children with
  | step t ih =>
    have hrest : (t.subtrees.flatMap fun s => s.nodes.flatMap subtrees).Perm
        (t.subtrees.flatMap fun s => s.nodes.tail) := by
      refine List.Perm.flatMap_left _ fun s hs => ?_
      obtain ⟨p, hp, rfl⟩ := List.mem_map.1 hs
      exact ih p hp
    have hnodes : (t.subtrees.flatMap fun s => s :: s.nodes.tail) = t.subtrees.flatMap nodes := by
      refine congrArg (List.flatMap · t.subtrees) (funext fun s => ?_)
      rw [nodes_eq s, List.tail_cons]
    have hsplit : t.nodes.flatMap subtrees =
        t.subtrees ++ t.subtrees.flatMap fun s => s.nodes.flatMap subtrees := by
      rw [nodes_eq, List.flatMap_cons, List.flatMap_assoc]
    have hjoin : (t.subtrees ++ t.subtrees.flatMap fun s => s.nodes.tail).Perm
        (t.subtrees.flatMap nodes) := by
      have hp := List.map_append_flatMap_perm t.subtrees (fun s => s) fun s => s.nodes.tail
      rwa [List.map_id', hnodes] at hp
    rw [hsplit, nodes_eq t, List.tail_cons]
    exact (hrest.append_left _).trans hjoin

/-- Every node but the root is a child of a node. -/
theorem exists_parent {t n : Tree α} (h : n ∈ t.nodes.tail) : ∃ q ∈ t.nodes, n ∈ q.subtrees :=
  List.mem_flatMap.1 ((subtrees_nodes_perm t).mem_iff.2 h)

/-- Other labels do not change what is a child of what. -/
theorem subtrees_relabel {β : Type} (f : α → β) (t : Tree α) :
    (t.relabel f).subtrees = t.subtrees.map (relabel f) := by
  cases t with
  | sequence a c rest => cases rest <;> rfl
  | ifElse a c t e => cases e <;> rfl
  | block a ts =>
    rw [relabel, subtrees_block, subtrees_block, relabelAll_eq_map]
  | _ => rfl

/-- Other labels do not change the nodes otherwise. -/
theorem nodes_relabel {β : Type} (f : α → β) (t : Tree α) :
    (t.relabel f).nodes = t.nodes.map (relabel f) := by
  induction t using induction_on_children with
  | step t ih =>
    have hsub : (t.subtrees.flatMap fun s => (s.relabel f).nodes) =
        t.subtrees.flatMap fun s => s.nodes.map (relabel f) := by
      refine List.flatMap_congr fun s hs => ?_
      obtain ⟨p, hp, rfl⟩ := List.mem_map.1 hs
      exact ih p hp
    rw [nodes_eq, subtrees_relabel, List.flatMap_map, hsub, nodes_eq t, List.map_cons,
      List.map_flatMap]

/-- Statements lose their numbers one by one. -/
theorem unmarked_numberStatements {ts : List (Tree Span)}
    (h : ∀ t ∈ ts, ∀ n, (t.numberFrom n).1.unmarked = t) (n : Nat) :
    relabelAll (fun m => m.span.getD ⟨0, 0⟩) (numberStatements n ts).1 = ts := by
  induction ts generalizing n with
  | nil => rfl
  | cons t ts ih =>
    have ht : (t.numberFrom n).1.relabel (fun m => m.span.getD ⟨0, 0⟩) = t :=
      h t List.mem_cons_self n
    rw [numberStatements]
    dsimp only
    rw [relabelAll, ht, ih fun t ht => h t (List.mem_cons_of_mem _ ht)]

/-- Numbering a tree only adds numbers. -/
theorem unmarked_numberFrom (t : Tree Span) (n : Nat) : (t.numberFrom n).1.unmarked = t := by
  induction t using Tree.induction generalizing n with
  | literal a v => rfl
  | input a => rfl
  | var a name => rfl
  | binary a op l r ihl ihr => exact congrArg₂ (Tree.binary a op) (ihl _) (ihr _)
  | unary a op t ih => exact congrArg (Tree.unary a op) (ih _)
  | assign a t v iht ihv => exact congrArg₂ (Tree.assign a) (iht _) (ihv _)
  | sequence a c rest ihc ihr =>
    cases rest with
    | none => exact congrArg (Tree.sequence a · none) (ihc _)
    | some r => exact congrArg₂ (fun c r => Tree.sequence a c (some r)) (ihc _) (ihr r rfl _)
  | block a ts ih => exact congrArg (Tree.block a) (unmarked_numberStatements ih _)
  | condition a t ih => exact congrArg (Tree.condition a) (ih _)
  | ifElse a c t e ihc iht ihe =>
    cases e with
    | none => exact congrArg₂ (Tree.ifElse a · · none) (ihc _) (iht _)
    | some e =>
      have hct := congrArg₂ (Tree.ifElse a) (ihc (n + 1)) (iht (c.numberFrom (n + 1)).2)
      exact congrArg₂ (fun k e => k (some e)) hct (ihe e rfl _)
  | whileLoop a c b ihc ihb => exact congrArg₂ (Tree.whileLoop a) (ihc _) (ihb _)
  | print a t ih => exact congrArg (Tree.print a) (ih _)

/-- Numbering gives the root its mark and goes on with the children. -/
theorem numberFrom_eq (n : Nat) (t : Tree Span) :
    (t.numberFrom n).1.label = ⟨n, some t.label⟩ ∧
      (t.numberFrom n).1.subtrees = (numberStatements (n + 1) t.subtrees).1 ∧
      (t.numberFrom n).2 = (numberStatements (n + 1) t.subtrees).2 := by
  cases t with
  | sequence a c rest => cases rest <;> exact ⟨rfl, rfl, rfl⟩
  | ifElse a c t e => cases e <;> exact ⟨rfl, rfl, rfl⟩
  | block a ts =>
    rw [subtrees_block]
    exact ⟨rfl, subtrees_block _ _, rfl⟩
  | _ => exact ⟨rfl, rfl, rfl⟩

/-- All nodes have spans. -/
def IsLocated (t : Tree Mark) : Prop := ∀ n ∈ t.nodes, n.span?.isSome = true

/-- A numbered tree has spans at all nodes. -/
theorem isLocated_numberFrom (t : Tree Span) (n : Nat) : (t.numberFrom n).1.IsLocated := by
  induction t using induction_on_children generalizing n with
  | step t ih =>
    obtain ⟨hlabel, hsub, -⟩ := numberFrom_eq n t
    have hall : ∀ c ∈ t.subtrees, ∀ n, (c.numberFrom n).1.IsLocated := by
      intro c hc
      obtain ⟨p, hp, rfl⟩ := List.mem_map.1 hc
      exact ih p hp
    intro s hs
    rw [nodes_eq, hsub] at hs
    rcases List.mem_cons.1 hs with rfl | hs
    · rw [span?, hlabel]
      rfl
    · obtain ⟨c, hc, hs⟩ := List.mem_flatMap.1 hs
      exact forall_numberStatements hall _ c hc s hs

end IntScript.Tree
