import IntScript.Proofs.Tree.Visits
import Mathlib.Logic.Relation

/-!
# Ancestors by two orders

In pre-order a node comes before the nodes of its children, and in post-order it comes behind them.
Either order alone says little about how nodes are nested, since nodes beside each other are ordered
as well. Both together say it all: in a tree without shared nodes a node is an ancestor of another
one exactly if it comes before it in pre-order and behind it in post-order.
-/

namespace IntScript.Tree

variable {α : Type}

mutual

/-- The nodes of a tree in post-order. -/
def postOrder : Tree α → List (Tree α)
  | .literal a v => [.literal a v]
  | .input a => [.input a]
  | .var a name => [.var a name]
  | .binary a op l r => postOrder l ++ postOrder r ++ [.binary a op l r]
  | .unary a op t => postOrder t ++ [.unary a op t]
  | .assign a t v => postOrder t ++ postOrder v ++ [.assign a t v]
  | .sequence a c none => postOrder c ++ [.sequence a c none]
  | .sequence a c (some r) => postOrder c ++ postOrder r ++ [.sequence a c (some r)]
  | .block a ts => postOrderIn ts ++ [.block a ts]
  | .condition a t => postOrder t ++ [.condition a t]
  | .ifElse a c t none => postOrder c ++ postOrder t ++ [.ifElse a c t none]
  | .ifElse a c t (some e) =>
    postOrder c ++ postOrder t ++ postOrder e ++ [.ifElse a c t (some e)]
  | .whileLoop a c b => postOrder c ++ postOrder b ++ [.whileLoop a c b]
  | .print a t => postOrder t ++ [.print a t]

/-- The nodes of the statements of a block in post-order. -/
def postOrderIn : List (Tree α) → List (Tree α)
  | [] => []
  | t :: ts => postOrder t ++ postOrderIn ts

end

/-- The statements of a block come one after the other in post-order. -/
theorem postOrderIn_eq (ts : List (Tree α)) : postOrderIn ts = ts.flatMap postOrder := by
  induction ts with
  | nil => rfl
  | cons t ts ih => rw [postOrderIn, ih, List.flatMap_cons]

/-- In post-order a node comes behind the nodes of its children. -/
theorem postOrder_eq (t : Tree α) : t.postOrder = t.subtrees.flatMap postOrder ++ [t] := by
  cases t with
  | sequence a c rest => cases rest <;> simp [postOrder, subtrees, children]
  | ifElse a c t e => cases e <;> simp [postOrder, subtrees, children]
  | block a ts => rw [subtrees_block, postOrder, postOrderIn_eq]
  | _ => simp [postOrder, subtrees, children]

/-- A tour leaves the nodes in post-order. -/
theorem left_eq_postOrder (parent : Option (Role × α)) (t : Tree α) :
    (t.tourFrom parent).filterMap Step.left? = t.postOrder := by
  induction t using induction_on_children generalizing parent with
  | step t ih =>
    rw [left_tourFrom, postOrder_eq, subtrees, List.flatMap_map]
    exact congrArg (· ++ [t]) (List.flatMap_congr fun c hc => ih c hc _)

/-- Both orders list the same nodes. -/
theorem postOrder_perm (t : Tree α) : t.postOrder.Perm t.nodes := by
  rw [← left_eq_postOrder none]
  exact left_perm_nodes none t

/-- A node is a proper ancestor of another one if a chain of children leads from it to that. -/
def IsAncestor (p q : Tree α) : Prop := Relation.TransGen (fun p q => q ∈ p.subtrees) p q

/-- The proper ancestors of a node are the other nodes that it is a node of. -/
theorem isAncestor_iff_mem {p q : Tree α} : p.IsAncestor q ↔ q ∈ p.nodes.tail := by
  have htail : ∀ {t n : Tree α}, n ∈ t.nodes.tail ↔ ∃ s ∈ t.subtrees, n ∈ s.nodes := by
    intro t n
    rw [nodes_eq, List.tail_cons, List.mem_flatMap]
  constructor
  · intro h
    induction h with
    | single hq => exact htail.2 ⟨_, hq, mem_nodes_self _⟩
    | tail _ hq ih =>
      obtain ⟨s, hs, hn⟩ := htail.1 ih
      exact htail.2 ⟨s, hs, mem_nodes_of_mem hn (mem_nodes_of_subtree hq (mem_nodes_self _))⟩
  · intro h
    induction p using induction_on_children with
    | step p ih =>
      obtain ⟨s, hs, hq⟩ := htail.1 h
      rw [nodes_eq] at hq
      rcases List.mem_cons.1 hq with rfl | hq
      · exact .single hs
      · obtain ⟨c, hc, rfl⟩ := List.mem_map.1 hs
        refine .head hs (ih c hc ?_)
        rwa [nodes_eq]

/-- Two things stand in order in two lists put together if they do so in one of them, or if the
first one is in the first list and the second one in the second list. -/
theorem pair_sublist_append {β : Type} {x y : β} {xs ys : List β} :
    [x, y].Sublist (xs ++ ys) ↔
      [x, y].Sublist xs ∨ x ∈ xs ∧ y ∈ ys ∨ [x, y].Sublist ys := by
  constructor
  · intro h
    obtain ⟨us, vs, heq, hus, hvs⟩ := List.sublist_append_iff.1 h
    cases us with
    | nil => exact .inr (.inr (heq ▸ hvs))
    | cons u us =>
      cases us with
      | nil =>
        cases heq
        exact .inr (.inl ⟨List.singleton_sublist.1 hus, List.singleton_sublist.1 hvs⟩)
      | cons u' us =>
        cases us with
        | nil =>
          cases heq
          exact .inl hus
        | cons => cases heq
  · rintro (h | ⟨hx, hy⟩ | h)
    · exact h.trans (List.sublist_append_left xs ys)
    · exact (List.singleton_sublist.2 hx).append (List.singleton_sublist.2 hy)
    · exact h.trans (List.sublist_append_right xs ys)

/-- What is listed for a child is listed for all children one after the other. -/
theorem subtree_sublist (order : Tree α → List (Tree α)) {t s : Tree α} (hs : s ∈ t.subtrees) :
    (order s).Sublist (t.subtrees.flatMap order) := by
  rw [List.flatMap_def]
  exact List.sublist_flatten_of_mem (List.mem_map_of_mem hs)

/-- An order that goes through the children one after the other lists the nodes of every node in
their own order. -/
theorem order_sublist {order : Tree α → List (Tree α)}
    (hchildren : ∀ t : Tree α, (t.subtrees.flatMap order).Sublist (order t)) {t n : Tree α}
    (hn : n ∈ t.nodes) : (order n).Sublist (order t) := by
  induction t using induction_on_children with
  | step t ih =>
    rw [nodes_eq] at hn
    rcases List.mem_cons.1 hn with rfl | hn
    · exact .refl _
    · obtain ⟨s, hs, hn⟩ := List.mem_flatMap.1 hn
      have hchild := subtree_sublist order hs
      obtain ⟨c, hc, rfl⟩ := List.mem_map.1 hs
      exact (ih c hc hn).trans (hchild.trans (hchildren t))

/-- Two nodes that stand in opposite orders among the nodes of some trees do so in one of them. -/
theorem exists_of_orders {ts : List (Tree α)} {p q : Tree α} (hnodup : (ts.flatMap nodes).Nodup)
    (hpre : [p, q].Sublist (ts.flatMap nodes)) (hpost : [q, p].Sublist (ts.flatMap postOrder)) :
    ∃ t ∈ ts, [p, q].Sublist t.nodes ∧ [q, p].Sublist t.postOrder := by
  have hmem : ∀ {ts : List (Tree α)} {n : Tree α},
      n ∈ ts.flatMap postOrder → n ∈ ts.flatMap nodes := by
    intro ts n hn
    obtain ⟨t, ht, hn⟩ := List.mem_flatMap.1 hn
    exact List.mem_flatMap.2 ⟨t, ht, t.postOrder_perm.mem_iff.1 hn⟩
  induction ts with
  | nil => cases hpre
  | cons t ts ih =>
    rw [List.flatMap_cons] at hnodup hpre hpost
    obtain ⟨-, hrest, hapart⟩ := List.nodup_append.1 hnodup
    have hnot : ∀ n, n ∈ t.nodes → n ∉ ts.flatMap nodes := fun n hn hn' => hapart n hn n hn' rfl
    -- if the second node comes behind the first tree, then both are left behind it
    have hbehind : q ∈ ts.flatMap nodes → [q, p].Sublist (ts.flatMap postOrder) := by
      intro hq
      have hqt : q ∉ t.postOrder := fun hqt => hnot q (t.postOrder_perm.mem_iff.1 hqt) hq
      rcases pair_sublist_append.1 hpost with hqp | ⟨hq', -⟩ | hqp
      · exact absurd (hqp.subset List.mem_cons_self) hqt
      · exact absurd hq' hqt
      · exact hqp
    rcases pair_sublist_append.1 hpre with hpq | ⟨hp, hq⟩ | hpq
    · -- both are nodes of the first tree, so they are not left in the other ones
      have hp := hnot p (hpq.subset List.mem_cons_self)
      rcases pair_sublist_append.1 hpost with hqp | ⟨-, hp'⟩ | hqp
      · exact ⟨t, List.mem_cons_self, hpq, hqp⟩
      · exact absurd (hmem hp') hp
      · exact absurd (hmem (hqp.subset (List.mem_cons_of_mem _ List.mem_cons_self))) hp
    · have hp' := (hbehind hq).subset (List.mem_cons_of_mem _ List.mem_cons_self)
      exact absurd (hmem hp') (hnot p hp)
    · have hq := hpq.subset (List.mem_cons_of_mem _ List.mem_cons_self)
      obtain ⟨s, hs, hboth⟩ := ih hrest hpq (hbehind hq)
      exact ⟨s, List.mem_cons_of_mem _ hs, hboth⟩

/-- In a tree without shared nodes a node is an ancestor of another one exactly if it comes before
it in pre-order and behind it in post-order. -/
theorem isAncestor_iff_orders {t p q : Tree α} (hnodup : t.nodes.Nodup) (hp : p ∈ t.nodes) :
    p.IsAncestor q ↔ [p, q].Sublist t.nodes ∧ [q, p].Sublist t.postOrder := by
  rw [isAncestor_iff_mem]
  constructor
  · intro hq
    rw [nodes_eq, List.tail_cons] at hq
    have hq' : q ∈ p.subtrees.flatMap postOrder := by
      obtain ⟨s, hs, hq⟩ := List.mem_flatMap.1 hq
      exact List.mem_flatMap.2 ⟨s, hs, s.postOrder_perm.mem_iff.2 hq⟩
    have hpre : [p, q].Sublist p.nodes := by
      rw [nodes_eq]
      exact (List.singleton_sublist.2 hq).cons_cons p
    have hpost : [q, p].Sublist p.postOrder := by
      rw [postOrder_eq, pair_sublist_append]
      exact .inr (.inl ⟨hq', List.mem_singleton_self p⟩)
    constructor
    · refine hpre.trans (order_sublist (fun t => ?_) hp)
      rw [nodes_eq t]
      exact List.sublist_cons_self _ _
    · refine hpost.trans (order_sublist (fun t => ?_) hp)
      rw [postOrder_eq t]
      exact List.sublist_append_left _ _
  · rintro ⟨hpre, hpost⟩
    clear hp
    induction t using induction_on_children with
    | step t ih =>
      rw [nodes_eq] at hnodup hpre
      rw [postOrder_eq] at hpost
      obtain ⟨hroot, hnodup⟩ := List.nodup_cons.1 hnodup
      rcases List.sublist_cons_iff.1 hpre with hpre | ⟨rest, heq, hrest⟩
      · -- neither of the two is the root, so both are below one child
        have hpt : p ≠ t := fun hpt => hroot (hpt ▸ hpre.subset List.mem_cons_self)
        rcases pair_sublist_append.1 hpost with hpost | ⟨-, hp⟩ | hpost
        · obtain ⟨s, hs, hpre, hpost⟩ := exists_of_orders hnodup hpre hpost
          have hsub := subtree_sublist nodes hs
          obtain ⟨c, hc, rfl⟩ := List.mem_map.1 hs
          exact ih c hc (hnodup.sublist hsub) hpre hpost
        · exact absurd (List.mem_singleton.1 hp) hpt
        · exact absurd hpost.length_le (by simp)
      · cases heq
        rw [nodes_eq, List.tail_cons]
        exact List.singleton_sublist.1 hrest

end IntScript.Tree
