import IntScript.Proofs.Tree.Nodes
import Mathlib.Data.List.Nodup
import Mathlib.Logic.ExistsUnique

/-!
# Identities of nodes

The nodes of a numbered tree carry consecutive numbers in pre-order. So they are told apart by
their numbers, and every node but the root is the child of one node only, in one role.
-/

namespace IntScript.Tree

/-- A tree that is numbered from `n` on uses the numbers up to the next free one, in pre-order. -/
def CountsUp (t : Tree Span) : Prop :=
  ∀ n, (t.numberFrom n).1.nodes.map id = List.range' n t.nodes.length ∧
    (t.numberFrom n).2 = n + t.nodes.length

/-- Trees that are numbered one after the other count up together. -/
theorem countsUp_statements {ts : List (Tree Span)} (h : ∀ t ∈ ts, t.CountsUp) (n : Nat) :
    (numberStatements n ts).1.flatMap (fun t => t.nodes.map id) =
        List.range' n (ts.flatMap nodes).length ∧
      (numberStatements n ts).2 = n + (ts.flatMap nodes).length := by
  induction ts generalizing n with
  | nil => exact ⟨rfl, rfl⟩
  | cons t ts ih =>
    obtain ⟨hids, hnext⟩ := h t List.mem_cons_self n
    obtain ⟨hids', hnext'⟩ := ih (fun t ht => h t (List.mem_cons_of_mem _ ht)) (t.numberFrom n).2
    rw [numberStatements, List.flatMap_cons, List.flatMap_cons, List.length_append]
    refine ⟨?_, ?_⟩
    · rw [hids, hids', hnext, List.range'_append_1]
    · rw [hnext', hnext, Nat.add_assoc]

/-- Every tree counts up. -/
theorem countsUp (t : Tree Span) : t.CountsUp := by
  induction t using induction_on_children with
  | step t ih =>
    intro n
    obtain ⟨hlabel, hsub, hnext⟩ := numberFrom_eq n t
    have hid : (t.numberFrom n).1.id = n := congrArg Mark.id hlabel
    have hall : ∀ s ∈ t.subtrees, s.CountsUp := by
      intro s hs
      obtain ⟨p, hp, rfl⟩ := List.mem_map.1 hs
      exact ih p hp
    obtain ⟨hids, hlast⟩ := countsUp_statements hall (n + 1)
    rw [nodes_eq (t.numberFrom n).1, nodes_eq t, List.map_cons, List.map_flatMap,
      List.length_cons, hid, hsub, hnext]
    refine ⟨?_, by rw [hlast]; omega⟩
    rw [hids, List.range'_succ]

/-- The nodes of a numbered tree have different numbers. -/
theorem number_nodup (t : Tree Span) : (t.number.nodes.map id).Nodup := by
  rw [number, (countsUp t 0).1]
  exact List.nodup_range'

/-- No node is shared: nodes differ by their identities, the root is nobody's child, and every
other node is the child of exactly one node, in exactly one role. -/
structure Unshared (root : Tree Mark) : Prop where
  /-- No identity is used twice. -/
  distinct : (root.nodes.map id).Nodup
  /-- The root is not a child. -/
  root_alone : ∀ q ∈ root.nodes, ∀ p ∈ q.children, p.2.id ≠ root.id
  /-- Every other node has one place. -/
  one_place : ∀ n ∈ root.nodes, n.id ≠ root.id →
    ∃! place : Nat × Role, ∃ q ∈ root.nodes, q.id = place.1 ∧
      ∃ child, (place.2, child) ∈ q.children ∧ child.id = n.id

/-- A child has one parent only. -/
theorem Unshared.eq_of_child {root q q' c : Tree Mark} {role role' : Role} (h : root.Unshared)
    (hq : q ∈ root.nodes) (hq' : q' ∈ root.nodes) (hc : (role, c) ∈ q.children)
    (hc' : (role', c) ∈ q'.children) : q = q' := by
  have hmem : c ∈ root.nodes :=
    mem_nodes_of_mem hq (mem_nodes_of_subtree (List.mem_map_of_mem hc) c.mem_nodes_self)
  obtain ⟨place, -, hunique⟩ := h.one_place c hmem (h.root_alone q hq _ hc)
  have hplace := hunique (q.id, role) ⟨q, hq, rfl, c, hc, rfl⟩
  have hplace' := hunique (q'.id, role') ⟨q', hq', rfl, c, hc', rfl⟩
  have hid : q.id = q'.id := congrArg Prod.fst (hplace.trans hplace'.symm)
  exact List.inj_on_of_nodup_map h.distinct hq hq' hid

/-- The edges of a tree: parent, role and child. -/
def edges (root : Tree Mark) : List (Nat × Role × Nat) :=
  root.nodes.flatMap fun q => q.children.map fun p => (q.id, p.1, p.2.id)

/-- An edge leads from a node to one of its children. -/
theorem mem_edges {root : Tree Mark} {e : Nat × Role × Nat} :
    e ∈ root.edges ↔ ∃ q ∈ root.nodes, q.id = e.1 ∧
      ∃ child, (e.2.1, child) ∈ q.children ∧ child.id = e.2.2 := by
  obtain ⟨parent, role, c⟩ := e
  simp only [edges, List.mem_flatMap, List.mem_map, Prod.mk.injEq]
  constructor
  · rintro ⟨q, hq, ⟨r, child⟩, hp, rfl, rfl, rfl⟩
    exact ⟨q, hq, rfl, child, hp, rfl⟩
  · rintro ⟨q, hq, rfl, child, hp, rfl⟩
    exact ⟨q, hq, (role, child), hp, rfl, rfl, rfl⟩

/-- The edges lead to the nodes without the root, in another order. -/
theorem edges_targets_perm (root : Tree Mark) :
    (root.edges.map (·.2.2)).Perm (root.nodes.tail.map id) := by
  have heq : root.edges.map (·.2.2) = (root.nodes.flatMap subtrees).map id := by
    simp only [edges, subtrees, List.map_flatMap, List.map_map]
    rfl
  rw [heq]
  exact (subtrees_nodes_perm root).map id

section Distinct

variable {root : Tree Mark} (h : (root.nodes.map id).Nodup)

include h

/-- If the nodes have different identities, then no two edges lead to the same node. -/
theorem edges_targets_nodup : (root.edges.map (·.2.2)).Nodup := by
  rw [nodes_eq, List.map_cons] at h
  refine (edges_targets_perm root).nodup_iff.2 ?_
  rw [nodes_eq, List.tail_cons]
  exact (List.nodup_cons.1 h).2

/-- If the nodes have different identities, then the edges lead to all nodes but the root. -/
theorem mem_edges_targets_iff {i : Nat} :
    i ∈ root.edges.map (·.2.2) ↔ i ∈ root.nodes.map id ∧ i ≠ root.id := by
  rw [nodes_eq, List.map_cons] at h
  rw [(edges_targets_perm root).mem_iff, nodes_eq, List.tail_cons, List.map_cons, List.mem_cons]
  constructor
  · intro hi
    refine ⟨.inr hi, ?_⟩
    rintro rfl
    exact (List.nodup_cons.1 h).1 hi
  · rintro ⟨hi, hne⟩
    exact hi.resolve_left hne

/-- A tree whose nodes have different identities has no shared nodes. -/
theorem unshared_of_nodup : root.Unshared := by
  refine ⟨h, fun q hq p hp heq => ?_, fun n hn hne => ?_⟩
  · have he : (q.id, p.1, p.2.id) ∈ root.edges := mem_edges.2 ⟨q, hq, rfl, p.2, hp, rfl⟩
    exact ((mem_edges_targets_iff h).1 (List.mem_map_of_mem he)).2 heq
  · obtain ⟨⟨parent, role, c⟩, he, hc⟩ :=
      List.mem_map.1 ((mem_edges_targets_iff h).2 ⟨List.mem_map_of_mem hn, hne⟩)
    subst hc
    refine ⟨(parent, role), mem_edges.1 he, ?_⟩
    rintro ⟨parent', role'⟩ hplace
    have he' : (parent', role', n.id) ∈ root.edges := mem_edges.2 hplace
    have heq := List.inj_on_of_nodup_map (edges_targets_nodup h) he' he rfl
    simp only [Prod.mk.injEq] at heq
    rw [heq.1, heq.2.1]

end Distinct

/-- A numbered tree has no shared nodes. -/
theorem number_unshared (t : Tree Span) : t.number.Unshared := unshared_of_nodup (number_nodup t)

end IntScript.Tree
