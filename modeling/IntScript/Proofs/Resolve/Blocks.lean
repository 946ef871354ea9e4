import IntScript.Proofs.Resolve.Tables
import IntScript.Proofs.Tree.Orders

/-!
# Blocks and parents

Resolution numbers the blocks of a tree twice: by their ids as they are entered and by their orders
as they are left. The id is given out when a block is entered and kept with the open blocks until
the block is left, so that what is written there depends on all that was walked through in between.
What one part of a walk does to the counters and to the open blocks is stated once; parts are put
together one behind the other and around the children of a node.

In a tree without shared nodes every node is written about once. Then the ids count the blocks in
pre-order and the orders count them in post-order, and ancestors can be told from the two numbers.
-/

namespace IntScript

open IntScript.Tree (Step)

namespace Tree

variable {α : Type}

/-- Whether a node is a block. -/
def isBlock (t : Tree α) : Bool := t.kind == .block

/-- The blocks of a tree in pre-order. -/
def blocks (t : Tree α) : List (Tree α) := t.nodes.filter isBlock

/-- The blocks of a tree in post-order. -/
def blocksLeft (t : Tree α) : List (Tree α) := t.postOrder.filter isBlock

/-- A block comes before the blocks of its children. -/
theorem blocks_eq (t : Tree α) :
    t.blocks = [t].filter isBlock ++ t.subtrees.flatMap blocks := by
  rw [blocks, nodes_eq, ← List.singleton_append, List.filter_append, List.filter_flatMap]
  rfl

/-- A block comes behind the blocks of its children. -/
theorem blocksLeft_eq (t : Tree α) :
    t.blocksLeft = t.subtrees.flatMap blocksLeft ++ [t].filter isBlock := by
  rw [blocksLeft, postOrder_eq, List.filter_append, List.filter_flatMap]
  rfl

/-- A tour enters every child from its parent. -/
theorem enter_mem_tourFrom {t q : Tree α} (hq : q ∈ t.nodes) {c : Role × Tree α}
    (hc : c ∈ q.children) (parent : Option (Role × α)) :
    .enter (some (c.1, q.label)) c.2 ∈ t.tourFrom parent := by
  induction t using induction_on_children generalizing parent with
  | step t ih =>
    have hinside : ∀ b ∈ t.children, .enter (some (c.1, q.label)) c.2 ∈
        b.2.tourFrom (some (b.1, t.label)) →
          .enter (some (c.1, q.label)) c.2 ∈ t.tourFrom parent := by
      intro b hb hmem
      rw [tourFrom_eq]
      refine List.mem_cons_of_mem _ (List.mem_append_left _ ?_)
      exact List.mem_flatMap.2 ⟨b, hb, hmem⟩
    rw [nodes_eq] at hq
    rcases List.mem_cons.1 hq with rfl | hq
    · refine hinside c hc ?_
      rw [tourFrom_eq]
      exact List.mem_cons_self
    · obtain ⟨s, hs, hq⟩ := List.mem_flatMap.1 hq
      obtain ⟨b, hb, rfl⟩ := List.mem_map.1 hs
      exact hinside b hb (ih b hb hq _)

end Tree

namespace Resolve

namespace Table

variable {β : Type} {T : Table β}

/-- What steps write one after the other. -/
theorem entries_append (T : Table β) (s : State) (steps steps' : List (Step Mark)) :
    T.entries s (steps ++ steps') =
      T.entries s steps ++ T.entries (steps.foldl State.visit s) steps' := by
  induction steps generalizing s with
  | nil => rfl
  | cons step steps ih =>
    rw [List.cons_append, entries, entries, ih, List.append_assoc]
    rfl

/-- If no node is shared, what is written about a node stays. -/
theorem IsWritten.look_of_mem_log (hT : T.IsWritten) {root : Tree Mark}
    (hnodup : (root.nodes.map Tree.id).Nodup) (ann : Annotations) {k : Nat} {x : Option β}
    (h : (k, x) ∈ T.log root) : T.look (resolve ann root).2 k = x := by
  have hkeys : ((T.log root).map Prod.fst).Nodup := by
    have hids := ((T.visited_perm root).map Tree.id).nodup_iff.2 hnodup
    rw [log, entries_keys]
    exact hids.sublist (List.filter_sublist.map Tree.id)
  obtain ⟨before, behind, hlog⟩ := List.append_of_mem h
  rw [hlog, List.map_append, List.map_cons] at hkeys
  have hlast : k ∉ behind.map Prod.fst := (List.nodup_cons.1 (List.nodup_append.1 hkeys).2.1).1
  rw [hT.look_resolve, hlog, foldl_put_append_cons hlast]

/-- The walk notes the parent of every node that it enters. -/
theorem mem_entries_parents {steps : List (Step Mark)} {parent : Option (Role × Mark)}
    {node : Tree Mark} (h : .enter parent node ∈ steps) (s : State) :
    (node.id, parent.map fun p => p.2.id) ∈ parents.entries s steps := by
  induction steps generalizing s with
  | nil => cases h
  | cons step steps ih =>
    rw [entries]
    rcases List.mem_cons.1 h with rfl | h
    · exact List.mem_append_left _ (List.mem_singleton_self _)
    · exact List.mem_append_right _ (ih h _)

end Table

/-- What a part of a walk does to the numbers of blocks. The blocks `entered` get ids one after the
other, the blocks `left` get orders one after the other, and the blocks that were open before stay
open. -/
structure State.Numbers (s : State) (steps : List (Step Mark)) (entered left : List (Tree Mark)) :
    Prop where
  /-- The open blocks are the same again. -/
  openBlocks : (steps.foldl State.visit s).openBlocks = s.openBlocks
  /-- The ids of the blocks are used up. -/
  nextBlock : (steps.foldl State.visit s).nextBlock = s.nextBlock + entered.length
  /-- The orders of the blocks are used up. -/
  finished : (steps.foldl State.visit s).finished = s.finished + left.length
  /-- The blocks that were entered have their ids. -/
  id : ∀ b i, (b, i) ∈ entered.zipIdx s.nextBlock →
    ∃ number : BlockNumber, number.id = i ∧ (b.id, some number) ∈ Table.blocks.entries s steps
  /-- The blocks that were left have their orders. -/
  order : ∀ b i, (b, i) ∈ left.zipIdx s.finished →
    ∃ number : BlockNumber, number.order = i ∧ (b.id, some number) ∈ Table.blocks.entries s steps

namespace State

variable {s : State} {steps steps' : List (Step Mark)}
  {entered entered' left left' : List (Tree Mark)}

/-- No steps number no blocks. -/
theorem Numbers.nil (s : State) : s.Numbers [] [] [] :=
  ⟨rfl, rfl, rfl, fun _ _ h => (List.not_mem_nil h).elim, fun _ _ h => (List.not_mem_nil h).elim⟩

/-- Parts of a walk number their blocks one part behind the other. -/
theorem Numbers.append (h : s.Numbers steps entered left)
    (h' : (steps.foldl State.visit s).Numbers steps' entered' left') :
    s.Numbers (steps ++ steps') (entered ++ entered') (left ++ left') := by
  have hnext := h'.nextBlock
  have hfinished := h'.finished
  refine ⟨?_, ?_, ?_, fun b i hb => ?_, fun b i hb => ?_⟩
  · rw [List.foldl_append, h'.openBlocks, h.openBlocks]
  · rw [List.foldl_append, hnext, h.nextBlock, List.length_append, Nat.add_assoc]
  · rw [List.foldl_append, hfinished, h.finished, List.length_append, Nat.add_assoc]
  · rw [List.zipIdx_append, ← h.nextBlock] at hb
    rw [Table.entries_append]
    rcases List.mem_append.1 hb with hb | hb
    · obtain ⟨number, hid, hmem⟩ := h.id b i hb
      exact ⟨number, hid, List.mem_append_left _ hmem⟩
    · obtain ⟨number, hid, hmem⟩ := h'.id b i hb
      exact ⟨number, hid, List.mem_append_right _ hmem⟩
  · rw [List.zipIdx_append, ← h.finished] at hb
    rw [Table.entries_append]
    rcases List.mem_append.1 hb with hb | hb
    · obtain ⟨number, horder, hmem⟩ := h.order b i hb
      exact ⟨number, horder, List.mem_append_left _ hmem⟩
    · obtain ⟨number, horder, hmem⟩ := h'.order b i hb
      exact ⟨number, horder, List.mem_append_right _ hmem⟩

/-- A step that enters a node uses up an id if the node is a block. -/
theorem counts_enter (s : State) (parent : Option (Role × Mark)) (node : Tree Mark) :
    (s.visit (.enter parent node)).nextBlock = s.nextBlock + ([node].filter Tree.isBlock).length ∧
      (s.visit (.enter parent node)).finished = s.finished := by
  cases node with
  | var m name =>
    simp only [State.visit, State.assignSlot]
    split <;> exact ⟨rfl, rfl⟩
  | _ => exact ⟨rfl, rfl⟩

/-- A step that leaves a node uses up an order if the node is a block. -/
theorem counts_leave {node : Tree Mark} (hready : s.Ready (.leave node)) :
    (s.visit (.leave node)).nextBlock = s.nextBlock ∧
      (s.visit (.leave node)).finished = s.finished + ([node].filter Tree.isBlock).length := by
  rw [visit_leave]
  by_cases hblock : node.kind = .block
  · obtain ⟨b, outer, hopen⟩ := List.exists_cons_of_ne_nil (hready hblock)
    rw [hopen]
    simp [hblock, Tree.isBlock]
  · split <;> simp [hblock, Tree.isBlock]

/-- The number of a block is written when it is left: the id is that of the innermost open block. -/
theorem entries_leave {node : Tree Mark} {id : Nat} {outer : List Nat}
    (hopen : node.kind = .block → s.openBlocks = id :: outer) :
    Table.blocks.entries s [.leave node] =
      ([node].filter Tree.isBlock).map fun b => (b.id, some ⟨id, s.finished⟩) := by
  by_cases hblock : node.kind = .block
  · simp [Table.entries, Table.entry, Table.visited?, Table.blocks, Step.left?, Tree.isBlock,
      hblock, hopen hblock]
  · simp [Table.entries, Table.entry, Table.visited?, Table.blocks, Step.left?, Tree.isBlock,
      hblock]

/-- A node that is alone among the blocks gets the first number. -/
theorem mem_zipIdx_own {node b : Tree Mark} {i n : Nat}
    (h : (b, i) ∈ ([node].filter Tree.isBlock).zipIdx n) :
    b ∈ [node].filter Tree.isBlock ∧ i = n := by
  by_cases hblock : node.isBlock = true
  · simpa [hblock] using h
  · simp [hblock] at h

/-- A node is numbered around its children: its id comes before theirs and its order behind
theirs. -/
theorem Numbers.around {node : Tree Mark} {parent : Option (Role × Mark)}
    (h : (s.visit (.enter parent node)).Numbers steps entered left) :
    s.Numbers (.enter parent node :: (steps ++ [.leave node]))
      ([node].filter Tree.isBlock ++ entered) (left ++ [node].filter Tree.isBlock) := by
  obtain ⟨hnext, hfinished⟩ := s.counts_enter parent node
  obtain ⟨hopen, hnext', hfinished', hid, horder⟩ := h
  have hrun : (Step.enter parent node :: (steps ++ [.leave node])).foldl State.visit s =
      (steps.foldl State.visit (s.visit (.enter parent node))).visit (.leave node) := by
    rw [List.foldl_cons, List.foldl_append]
    rfl
  have hentries : Table.blocks.entries s (.enter parent node :: (steps ++ [.leave node])) =
      Table.blocks.entries (s.visit (.enter parent node)) steps ++ Table.blocks.entries
        (steps.foldl State.visit (s.visit (.enter parent node))) [.leave node] := by
    rw [← Table.entries_append]
    rfl
  generalize steps.foldl State.visit (s.visit (.enter parent node)) = s' at *
  rw [openBlocks_enter] at hopen
  -- the id of a block is the innermost open one again when the block is left
  have hinner : node.kind = .block → s'.openBlocks = s.nextBlock :: s.openBlocks :=
    fun hblock => hopen.trans (if_pos hblock)
  have hready : s'.Ready (.leave node) := by
    intro hblock
    rw [hinner hblock]
    exact List.cons_ne_nil _ _
  obtain ⟨hnext'', hfinished''⟩ := counts_leave hready
  rw [entries_leave hinner] at hentries
  refine ⟨?_, ?_, ?_, fun b i hb => ?_, fun b i hb => ?_⟩
  · rw [hrun, openBlocks_leave, hopen]
    split <;> rfl
  · rw [hrun, hnext'', hnext', hnext, List.length_append, Nat.add_assoc]
  · rw [hrun, hfinished'', hfinished', hfinished, List.length_append, Nat.add_assoc]
  · rw [List.zipIdx_append, ← hnext] at hb
    rw [hentries]
    rcases List.mem_append.1 hb with hb | hb
    · obtain ⟨hown, rfl⟩ := mem_zipIdx_own hb
      exact ⟨⟨s.nextBlock, s'.finished⟩, rfl, List.mem_append_right _ (List.mem_map_of_mem hown)⟩
    · obtain ⟨number, hnumber, hmem⟩ := hid b i hb
      exact ⟨number, hnumber, List.mem_append_left _ hmem⟩
  · rw [List.zipIdx_append, ← hfinished, ← hfinished'] at hb
    rw [hentries]
    rcases List.mem_append.1 hb with hb | hb
    · obtain ⟨number, hnumber, hmem⟩ := horder b i hb
      exact ⟨number, hnumber, List.mem_append_left _ hmem⟩
    · obtain ⟨hown, rfl⟩ := mem_zipIdx_own hb
      exact ⟨⟨s.nextBlock, s'.finished⟩, rfl, List.mem_append_right _ (List.mem_map_of_mem hown)⟩

/-- A tour numbers the blocks of its tree. -/
theorem numbers_tourFrom (s : State) (parent : Option (Role × Mark)) (t : Tree Mark) :
    s.Numbers (t.tourFrom parent) t.blocks t.blocksLeft := by
  induction t using Tree.induction_on_children generalizing s parent with
  | step t ih =>
    have hchildren : ∀ cs : List (Role × Tree Mark), (∀ c ∈ cs, c ∈ t.children) → ∀ s : State,
        s.Numbers (cs.flatMap fun c => c.2.tourFrom (some (c.1, t.label)))
          (cs.flatMap fun c => c.2.blocks) (cs.flatMap fun c => c.2.blocksLeft) := by
      intro cs
      induction cs with
      | nil => exact fun _ s => .nil s
      | cons c cs ihcs =>
        intro hcs s
        have hfirst := ih c (hcs c List.mem_cons_self) s (some (c.1, t.label))
        exact hfirst.append (ihcs (fun c hc => hcs c (List.mem_cons_of_mem _ hc)) _)
    have hinside := (hchildren t.children (fun c hc => hc) (s.visit (.enter parent t))).around
    rw [Tree.tourFrom_eq, Tree.blocks_eq, Tree.blocksLeft_eq, Tree.subtrees, List.flatMap_map,
      List.flatMap_map]
    exact hinside

end State

end Resolve

/-- How the blocks of a tree are numbered. -/
structure Annotations.NumbersBlocks (ann : Annotations) (layout : Layout) (root : Tree Mark) :
    Prop where
  /-- All blocks are counted. -/
  count : layout.blockCount = root.blocks.length
  /-- The ids count the blocks in pre-order from one. -/
  ids : root.blocks.map (fun b => (ann.block? b).map BlockNumber.id) =
    (List.range' 1 layout.blockCount).map some
  /-- The orders count the blocks in post-order from zero. -/
  orders : root.blocksLeft.map (fun b => (ann.block? b).map BlockNumber.order) =
    (List.range' 0 layout.blockCount).map some
  /-- Ancestors have smaller ids and greater orders, and other blocks do not. -/
  ancestors : ∀ p ∈ root.blocks, ∀ q ∈ root.blocks, ∃ x y : BlockNumber,
    ann.block? p = some x ∧ ann.block? q = some y ∧
      (p.IsAncestor q ↔ x.id < y.id ∧ y.order < x.order)
  /-- A block at the root is entered first and left last. -/
  outermost : root.kind = .block → ann.block? root = some ⟨1, layout.blockCount - 1⟩

/-- How the nodes of a tree are linked to their parents. -/
structure Annotations.LinksParents (ann : Annotations) (root : Tree Mark) : Prop where
  /-- The root has no parent. -/
  orphan : ann.parent? root = none
  /-- Every other node has the only node as its parent that it is a child of. -/
  parent : ∀ n ∈ root.nodes, n ≠ root → ∃ q ∈ root.nodes,
    (∀ p ∈ root.nodes, n ∈ p.subtrees ↔ p = q) ∧ ann.parent? n = some q.id

namespace Resolve

variable {β : Type} {f : β → Option Nat} {l : List β} {n : Nat}

/-- A list whose members have their positions as numbers. -/
theorem map_eq_range' (h : ∀ b i, (b, i) ∈ l.zipIdx n → f b = some i) :
    l.map f = (List.range' n l.length).map some := by
  induction l generalizing n with
  | nil => rfl
  | cons b l ih =>
    have hfirst : f b = some n := h b n List.mem_cons_self
    have hrest := ih (n := n + 1) fun b i hb => h b i (List.mem_cons_of_mem _ hb)
    rw [List.map_cons, hfirst, hrest, List.length_cons, List.range'_succ, List.map_cons]

/-- In such a list the smaller number comes first. -/
theorem pair_sublist_iff_lt (h : l.map f = (List.range' n l.length).map some) {p q : β}
    (hp : p ∈ l) (hq : q ∈ l) {i j : Nat} (hi : f p = some i) (hj : f q = some j) :
    [p, q].Sublist l ↔ i < j := by
  have hlt : ∀ {a b : β}, [a, b].Sublist l → f a < f b := by
    have hpairs : (l.map f).Pairwise (· < ·) := by
      rw [h, List.pairwise_map]
      exact (List.pairwise_lt_range' (s := n)).imp Option.some_lt_some.2
    intro a b hab
    exact List.pairwise_iff_forall_sublist.1 (List.pairwise_map.1 hpairs) hab
  constructor
  · intro hpq
    have hnumbers := hlt hpq
    rw [hi, hj] at hnumbers
    exact Option.some_lt_some.1 hnumbers
  · intro hij
    obtain ⟨before, behind, rfl⟩ := List.append_of_mem hp
    rcases List.mem_append.1 hq with hbefore | hq
    · have hqp : [q, p].Sublist (before ++ p :: behind) :=
        Tree.pair_sublist_append.2 (.inr (.inl ⟨hbefore, List.mem_cons_self⟩))
      have hnumbers := hlt hqp
      rw [hi, hj] at hnumbers
      have hji := Option.some_lt_some.1 hnumbers
      omega
    · rcases List.mem_cons.1 hq with rfl | hbehind
      · have hsame : i = j := Option.some.inj (hi.symm.trans hj)
        omega
      · refine Tree.pair_sublist_append.2 (.inr (.inr ?_))
        exact (List.singleton_sublist.2 hbehind).cons_cons p

end Resolve

namespace Resolve

variable {root : Tree Mark} {ann : Annotations} {layout : Layout}

/-- Blocks stand in order among the blocks exactly if they stand in order among all nodes. -/
theorem pair_sublist_filter {l : List (Tree Mark)} {p q : Tree Mark} (hp : p.isBlock = true)
    (hq : q.isBlock = true) : [p, q].Sublist (l.filter Tree.isBlock) ↔ [p, q].Sublist l := by
  constructor
  · exact fun h => h.trans List.filter_sublist
  · intro h
    have hboth : [p, q].filter Tree.isBlock = [p, q] := by simp [hp, hq]
    rw [← hboth]
    exact h.filter Tree.isBlock

/-- Numbers by both orders tell ancestors. -/
theorem ancestors_of_orders (hnodup : (root.nodes.map Tree.id).Nodup)
    (hids : root.blocks.map (fun b => (ann.block? b).map BlockNumber.id) =
      (List.range' 1 root.blocks.length).map some)
    (horders : root.blocksLeft.map (fun b => (ann.block? b).map BlockNumber.order) =
      (List.range' 0 root.blocksLeft.length).map some)
    {p q : Tree Mark} (hp : p ∈ root.blocks) (hq : q ∈ root.blocks) {x y : BlockNumber}
    (hx : ann.block? p = some x) (hy : ann.block? q = some y) :
    p.IsAncestor q ↔ x.id < y.id ∧ y.order < x.order := by
  have hleft : ∀ b, b ∈ root.blocks → b ∈ root.blocksLeft := fun b hb =>
    (root.postOrder_perm.filter Tree.isBlock).mem_iff.2 hb
  obtain ⟨hpn, hpb⟩ := List.mem_filter.1 hp
  obtain ⟨-, hqb⟩ := List.mem_filter.1 hq
  rw [Tree.isAncestor_iff_orders hnodup.of_map hpn, ← pair_sublist_filter hpb hqb,
    ← pair_sublist_filter hqb hpb]
  refine and_congr (pair_sublist_iff_lt hids hp hq ?_ ?_)
    (pair_sublist_iff_lt horders (hleft q hq) (hleft p hp) ?_ ?_)
  · rw [hx]
    rfl
  · rw [hy]
    rfl
  · rw [hy]
    rfl
  · rw [hx]
    rfl

/-- The log of a resolution numbers all blocks. -/
theorem numbersBlocks_of_log (ann : Annotations) (hnodup : (root.nodes.map Tree.id).Nodup) :
    (resolve ann root).2.NumbersBlocks (resolve ann root).1 root := by
  have hnumbers := State.numbers_tourFrom (.initial .empty) none root
  have hlook : ∀ b x, (b.id, some x) ∈ Table.blocks.log root →
      (resolve ann root).2.block? b = some x :=
    fun b x hmem => Table.blocks_isWritten.look_of_mem_log hnodup ann hmem
  have hid : ∀ b i, (b, i) ∈ root.blocks.zipIdx 1 →
      ((resolve ann root).2.block? b).map BlockNumber.id = some i := by
    intro b i hb
    obtain ⟨x, rfl, hmem⟩ := hnumbers.id b i hb
    rw [hlook b x hmem]
    rfl
  have horder : ∀ b i, (b, i) ∈ root.blocksLeft.zipIdx 0 →
      ((resolve ann root).2.block? b).map BlockNumber.order = some i := by
    intro b i hb
    obtain ⟨x, rfl, hmem⟩ := hnumbers.order b i hb
    rw [hlook b x hmem]
    rfl
  have hlength : root.blocksLeft.length = root.blocks.length :=
    (root.postOrder_perm.filter Tree.isBlock).length_eq
  have hcount : (resolve ann root).1.blockCount = root.blocks.length := by
    have hfinished := (State.numbers_tourFrom (.initial ann) none root).finished
    rw [resolve_eq_tour, ← hlength, ← Nat.zero_add root.blocksLeft.length]
    exact hfinished
  have hids := map_eq_range' hid
  have horders := map_eq_range' horder
  have hknown : ∀ b ∈ root.blocks, ∃ x, (resolve ann root).2.block? b = some x := by
    intro b hb
    rw [← List.zipIdx_map_fst 1 root.blocks] at hb
    obtain ⟨⟨b, i⟩, hbi, rfl⟩ := List.mem_map.1 hb
    obtain ⟨x, hx, -⟩ := Option.map_eq_some_iff.1 (hid b i hbi)
    exact ⟨x, hx⟩
  refine ⟨hcount, ?_, ?_, fun p hp q hq => ?_, fun hroot => ?_⟩
  · rw [hids, hcount]
  · rw [horders, hcount, hlength]
  · obtain ⟨x, hx⟩ := hknown p hp
    obtain ⟨y, hy⟩ := hknown q hq
    exact ⟨x, y, hx, hy, ancestors_of_orders hnodup hids horders hp hq hx hy⟩
  · have hown : [root].filter Tree.isBlock = [root] := by simp [Tree.isBlock, hroot]
    have hfirst := Tree.blocks_eq root
    have hlast := Tree.blocksLeft_eq root
    rw [hown] at hfirst hlast
    obtain ⟨x, hx⟩ := hknown root (by rw [hfirst]; exact List.mem_cons_self)
    have hxid := hid root 1 (by rw [hfirst]; exact List.mem_cons_self)
    have hxorder := horder root (root.subtrees.flatMap Tree.blocksLeft).length (by
      rw [hlast, List.zipIdx_append, Nat.zero_add]
      exact List.mem_append_right _ List.mem_cons_self)
    rw [hx] at hxid hxorder ⊢
    have hsize : (resolve ann root).1.blockCount - 1 =
        (root.subtrees.flatMap Tree.blocksLeft).length := by
      rw [hcount, ← hlength, hlast, List.length_append]
      rfl
    rw [hsize, ← Option.some.inj hxorder, ← Option.some.inj hxid]

/-- The log of a resolution links all nodes to their parents. -/
theorem linksParents_of_log (ann : Annotations) (hnodup : (root.nodes.map Tree.id).Nodup) :
    (resolve ann root).2.LinksParents root := by
  have hlook : ∀ n parent, (n.id, parent) ∈ Table.parents.log root →
      (resolve ann root).2.parent? n = parent :=
    fun n parent hmem => Table.parents_isWritten.look_of_mem_log hnodup ann hmem
  have hparent : ∀ q ∈ root.nodes, ∀ n ∈ q.subtrees,
      (resolve ann root).2.parent? n = some q.id := by
    intro q hq n hn
    obtain ⟨c, hc, rfl⟩ := List.mem_map.1 hn
    exact hlook c.2 _ (Table.mem_entries_parents (Tree.enter_mem_tourFrom hq hc none) _)
  refine ⟨?_, fun n hn hne => ?_⟩
  · have hfirst : .enter none root ∈ root.tour := by
      rw [Tree.tour, Tree.tourFrom_eq]
      exact List.mem_cons_self
    exact hlook root _ (Table.mem_entries_parents hfirst _)
  · rw [Tree.nodes_eq] at hn
    have htail : n ∈ root.nodes.tail := by
      rw [Tree.nodes_eq]
      exact (List.mem_cons.1 hn).resolve_left hne
    obtain ⟨q, hq, hnq⟩ := Tree.exists_parent htail
    refine ⟨q, hq, fun p hp => ⟨fun hnp => ?_, ?_⟩, hparent q hq n hnq⟩
    · have hids : some p.id = some q.id := (hparent p hp n hnp).symm.trans (hparent q hq n hnq)
      exact Tree.eq_of_id_eq hnodup hp hq (Option.some.inj hids)
    · rintro rfl
      exact hnq

end Resolve

/-- Resolution numbers the blocks of every tree without shared nodes, whatever was known about its
nodes before: by their ids in pre-order and by their orders in post-order, so that ancestors can be
told from the numbers. It links every node but the root to the only node that it is a child of. -/
theorem resolve_numbers_and_links (ann : Annotations) {root : Tree Mark}
    (hnodup : (root.nodes.map Tree.id).Nodup) :
    (resolve ann root).2.NumbersBlocks (resolve ann root).1 root ∧
      (resolve ann root).2.LinksParents root :=
  ⟨Resolve.numbersBlocks_of_log ann hnodup, Resolve.linksParents_of_log ann hnodup⟩

/-- An empty block. -/
def emptyBlock : Tree Mark := .block ⟨8, none⟩ []

/-- A block that holds nothing but the empty one. -/
def bodyBlock : Tree Mark := .block ⟨7, none⟩ [emptyBlock]

/-- A block with another one in it, and behind that a loop with two blocks inside each other. -/
def nestedBlocks : Tree Mark :=
  .block ⟨0, none⟩
    [.block ⟨1, none⟩ [.print ⟨2, none⟩ (.var ⟨3, none⟩ "x")],
      .whileLoop ⟨4, none⟩ (.condition ⟨5, none⟩ (.input ⟨6, none⟩)) bodyBlock]

/-- The body of the loop is entered as the third block and left before the outermost one, and it is
the parent of the empty block. -/
theorem resolve_numbers_and_links_nested :
    (nestedBlocks.nodes.map Tree.id).Nodup ∧ (resolve .empty nestedBlocks).1.blockCount = 4 ∧
      nestedBlocks.blocks.map Tree.id = [0, 1, 7, 8] ∧
      nestedBlocks.blocks.map (fun b =>
        ((resolve .empty nestedBlocks).2.block? b).map BlockNumber.id) =
          [some 1, some 2, some 3, some 4] ∧
      nestedBlocks.blocksLeft.map Tree.id = [1, 8, 7, 0] ∧
      nestedBlocks.blocksLeft.map (fun b =>
        ((resolve .empty nestedBlocks).2.block? b).map BlockNumber.order) =
          [some 0, some 1, some 2, some 3] ∧
      (resolve .empty nestedBlocks).2.parent? emptyBlock = some bodyBlock.id := by
  have hnodup : (nestedBlocks.nodes.map Tree.id).Nodup := by decide
  obtain ⟨hnumbers, hlinks⟩ := resolve_numbers_and_links .empty hnodup
  have hcount : (resolve .empty nestedBlocks).1.blockCount = 4 := hnumbers.count
  have hids := hnumbers.ids
  have horders := hnumbers.orders
  rw [hcount] at hids horders
  have hempty : emptyBlock ∈ nestedBlocks.nodes := List.mem_iff_getElem?.2 ⟨8, rfl⟩
  have hbody : bodyBlock ∈ nestedBlocks.nodes := List.mem_iff_getElem?.2 ⟨7, rfl⟩
  obtain ⟨q, -, honly, hparent⟩ :=
    hlinks.parent emptyBlock hempty (by simp [emptyBlock, nestedBlocks])
  have hq : bodyBlock = q := (honly bodyBlock hbody).1 List.mem_cons_self
  exact ⟨hnodup, hcount, rfl, hids, rfl, horders, hq ▸ hparent⟩

end IntScript
