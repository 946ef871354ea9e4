import IntScript.Proofs.Resolve.Tables

/-!
# Resolution does not depend on history

The tables of annotations are written to by every resolution, and nodes can be shared by all the
trees that are resolved. Still a resolution gives the same result whatever was resolved before it:
the walk does not look at the tables, it writes an entry for every node that should have one, and no
other resolution writes an entry that a node should not have.

If nodes are shared inside the tree, the result is that of a walk through the unfolded tree. Every
node keeps what is written on its last visit: the log of the tree is that of the unfolded tree with
the identities of nodes in place of those of their visits.
-/

namespace IntScript

open IntScript.Tree (Coherent)

namespace Resolve

variable {β : Type} {T : Table β} {root n : Tree Mark}

/-- Walks through trees that differ in the identities of nodes only are alike. -/
theorem alike_tour {u : Tree Mark} {f : Nat → Nat} (h : u.Unfolds f root) :
    List.Forall₂ (Alike f) u.tour root.tour := by
  have htours : u.tour.map (Tree.Step.relabel fun m => f m.id) =
      root.tour.map (Tree.Step.relabel Mark.id) := by
    rw [← Tree.tour_relabel, h.folds, Tree.tour_relabel]
  rw [← List.forall₂_eq_eq_eq, List.forall₂_map_left_iff, List.forall₂_map_right_iff] at htours
  exact htours.imp fun _ _ => Alike.of_relabel

/-- The layout depends on neither the tables nor the identities of nodes. -/
theorem layout_alike {u : Tree Mark} {f : Nat → Nat}
    (h : List.Forall₂ (Alike f) u.tour root.tour) (ann ann' : Annotations) :
    (resolve ann u).1 = (resolve ann' root).1 := by
  have hfoldl : ∀ {steps steps' : List (Tree.Step Mark)}, List.Forall₂ (Alike f) steps steps' →
      ∀ {s s' : State}, s.bare = s'.bare →
        (steps.foldl State.visit s).bare = (steps'.foldl State.visit s').bare := by
    intro steps steps' hsteps
    induction hsteps with
    | nil => exact fun hs => hs
    | cons hstep _ ih => exact fun hs => ih (hstep.visit hs)
  have hinitial : (State.initial ann).bare = (State.initial ann').bare := rfl
  have hlayout := congrArg (fun s : State => (⟨s.names, s.finished⟩ : Layout)) (hfoldl h hinitial)
  rw [resolve_eq_tour, resolve_eq_tour]
  exact hlayout

/-- Whatever was known before, the layout is the same. -/
theorem layout_eq (ann ann' : Annotations) (root : Tree Mark) :
    (resolve ann root).1 = (resolve ann' root).1 :=
  layout_alike (List.forall₂_same.2 fun step _ => .refl step) ann ann'

namespace Table

/-- A resolution leaves the entries of nodes alone that should have none and of nodes that it does
not meet. -/
theorem IsWritten.look_resolve_of_ne (hT : T.IsWritten) (ann : Annotations) {k : Nat}
    (h : ∀ m ∈ root.nodes, m.id = k → T.applies m.kind = false) :
    T.look (resolve ann root).2 k = T.look ann k := by
  rw [hT.look_resolve]
  refine foldl_put_of_notMem (fun hk => ?_) _
  obtain ⟨m, hm, hkind, hid⟩ := mem_log.1 hk
  rw [h m hm hid] at hkind
  cases hkind

/-- The entry of a node that should have one does not depend on what was known before. -/
theorem IsWritten.look_resolve_of_applies (hT : T.IsWritten) (ann ann' : Annotations)
    (hn : n ∈ root.nodes) (hkind : T.applies n.kind = true) :
    T.look (resolve ann root).2 n.id = T.look (resolve ann' root).2 n.id := by
  rw [hT.look_resolve, hT.look_resolve]
  exact foldl_put_of_mem (mem_log.2 ⟨n, hn, hkind, rfl⟩) _ _

end Table

end Resolve

/-- What is known after some trees have been resolved one after the other. -/
def resolveAll (ann : Annotations) (roots : List (Tree Mark)) : Annotations :=
  roots.foldl (fun ann root => (resolve ann root).2) ann

namespace Resolve.Table

variable {β : Type} {T : Table β} {root n : Tree Mark}

/-- No resolution writes an entry for a node that should have none. -/
theorem IsWritten.look_resolveAll (hT : T.IsWritten) {roots : List (Tree Mark)} {k : Nat}
    (h : ∀ m ∈ roots.flatMap Tree.nodes, m.id = k → T.applies m.kind = false)
    (ann : Annotations) : T.look (resolveAll ann roots) k = T.look ann k := by
  induction roots generalizing ann with
  | nil => rfl
  | cons r roots ih =>
    rw [List.flatMap_cons] at h
    have hfirst := hT.look_resolve_of_ne ann fun m hm => h m (List.mem_append_left _ hm)
    exact (ih (fun m hm => h m (List.mem_append_right _ hm)) _).trans hfirst

/-- The entries of the nodes of a tree do not depend on what was resolved before. -/
theorem IsWritten.look_history (hT : T.IsWritten) {roots : List (Tree Mark)}
    (hcoherent : Coherent ((root :: roots).flatMap Tree.nodes)) (hn : n ∈ root.nodes) :
    T.look (resolve (resolveAll .empty roots) root).2 n.id =
      T.look (resolve .empty root).2 n.id := by
  rw [List.flatMap_cons] at hcoherent
  cases hkind : T.applies n.kind with
  | true => exact hT.look_resolve_of_applies _ _ hn hkind
  | false =>
    -- all nodes with this identity are this node, which no resolution writes an entry for
    have hnone : ∀ m ∈ root.nodes ++ roots.flatMap Tree.nodes, m.id = n.id →
        T.applies m.kind = false := by
      intro m hm hid
      rw [hcoherent m hm n (List.mem_append_left _ hn) hid]
      exact hkind
    have hroot : ∀ m ∈ root.nodes, m.id = n.id → T.applies m.kind = false :=
      fun m hm => hnone m (List.mem_append_left _ hm)
    rw [hT.look_resolve_of_ne _ hroot, hT.look_resolve_of_ne _ hroot]
    exact hT.look_resolveAll (fun m hm => hnone m (List.mem_append_right _ hm)) .empty

/-- Resolving a tree again changes nothing. -/
theorem IsWritten.look_resolve_resolve (hT : T.IsWritten) (ann : Annotations) (root : Tree Mark) :
    T.look (resolve (resolve ann root).2 root).2 = T.look (resolve ann root).2 := by
  funext k
  by_cases hk : k ∈ (T.log root).map Prod.fst
  · rw [hT.look_resolve, hT.look_resolve]
    exact foldl_put_of_mem hk _ _
  · rw [hT.look_resolve (resolve ann root).2]
    exact foldl_put_of_notMem hk _

section LastVisit

variable {u v : Tree Mark} {f : Nat → Nat}

/-- Visits of a node are written about in the order in which they are entered. -/
theorem visited_filter (T : Table β) (hu : u.Unfolds f root) (hroot : Coherent root.nodes)
    (hn : n ∈ root.nodes) :
    (u.tour.filterMap T.visited?).filter (fun w => f w.id = n.id) =
      u.nodes.filter fun w => f w.id = n.id := by
  unfold visited?
  cases T.leaving with
  | true =>
    refine Tree.left_filter (fun w hw hwn x hx => ?_) none
    have hxu : x ∈ u.nodes := Tree.mem_nodes_of_mem hw (List.mem_of_mem_tail hx)
    refine decide_eq_false fun hxn => ?_
    exact hu.not_inside hroot hn hw hxu (of_decide_eq_true hwn) hxn hx
  | false =>
    rw [Tree.nodes_eq_entered]
    rfl

/-- Visits have the kinds of the nodes that are visited. -/
theorem kind_of_visit (hu : u.Unfolds f root) (hroot : Coherent root.nodes) (hn : n ∈ root.nodes)
    (hv : v ∈ u.nodes) (hid : f v.id = n.id) : v.kind = n.kind := by
  rw [← Tree.kind_relabel fun m => f m.id, hu.relabel_eq hroot hn hv hid, Tree.kind_relabel]

/-- The entry for the last visit of a node comes behind those for its other visits. -/
theorem log_lastVisit (T : Table β) (hu : u.Unfolds f root) (hroot : Coherent root.nodes)
    (hn : n ∈ root.nodes) (hv : u.IsLastVisit f n v) (hkind : T.applies n.kind = true) :
    ∃ before x behind, T.log u = before ++ (v.id, x) :: behind ∧ ∀ e ∈ behind, f e.1 ≠ n.id := by
  obtain ⟨before, behind, hnodes, hid, hbehind⟩ := hv
  have happlies : ∀ w ∈ u.nodes.filter (fun w => f w.id = n.id), T.applies w.kind = true := by
    intro w hw
    obtain ⟨hwu, hwn⟩ := List.mem_filter.1 hw
    rw [kind_of_visit hu hroot hn hwu (of_decide_eq_true hwn)]
    exact hkind
  have hlast : u.nodes.filter (fun w => f w.id = n.id) =
      before.filter (fun w => f w.id = n.id) ++ [v] := by
    have hnone : behind.filter (fun w => f w.id = n.id) = [] :=
      List.filter_eq_nil_iff.2 fun w hw => by simpa using hbehind w hw
    rw [hnodes, List.filter_append, List.filter_cons, if_pos (decide_eq_true hid), hnone]
  have hvisits : ((u.tour.filterMap T.visited?).filter (T.applies ·.kind)).filter
      (fun w => f w.id = n.id) = before.filter (fun w => f w.id = n.id) ++ [v] := by
    rw [List.filter_comm, visited_filter T hu hroot hn, List.filter_eq_self.2 happlies, hlast]
  -- behind the last visit there are only visits of other nodes
  obtain ⟨pre, rest, hsplit, -, hrest⟩ := List.filter_eq_append_iff.1 hvisits
  obtain ⟨skipped, post, rfl, -, -, hpost⟩ := List.filter_eq_cons_iff.1 hrest
  have hkeys := entries_keys T (.initial .empty) u.tour
  rw [hsplit, List.map_append, List.map_append, List.map_cons, ← List.append_assoc] at hkeys
  obtain ⟨log, log', hlog, -, hlog'⟩ := List.map_eq_append_iff.1 hkeys
  obtain ⟨⟨i, x⟩, log'', rfl, hi, hlog''⟩ := List.map_eq_cons_iff.1 hlog'
  cases hi
  refine ⟨log, x, log'', hlog, fun e he => ?_⟩
  have hmem : e.1 ∈ post.map Tree.id := by
    rw [← hlog'']
    exact List.mem_map_of_mem he
  obtain ⟨w, hw, hwe⟩ := List.mem_map.1 hmem
  rw [← hwe]
  simpa using List.filter_eq_nil_iff.1 hpost w hw

/-- A node has the entry of its last visit. -/
theorem IsWritten.look_lastVisit (hT : T.IsWritten) (hu : u.Unfolds f root)
    (hroot : Coherent root.nodes) (hn : n ∈ root.nodes) (hv : u.IsLastVisit f n v) :
    T.look (resolve .empty root).2 n.id =
      (T.look (resolve .empty u).2 v.id).map (T.carry f) := by
  have hvu : v ∈ u.nodes := by
    obtain ⟨before, behind, hnodes, -, -⟩ := hv
    rw [hnodes]
    exact List.mem_append_right _ List.mem_cons_self
  have hid : f v.id = n.id := by
    obtain ⟨_, _, -, hid, -⟩ := hv
    exact hid
  cases hkind : T.applies n.kind with
  | false =>
    have hnone : ∀ m ∈ root.nodes, m.id = n.id → T.applies m.kind = false := by
      intro m hm hmn
      rw [hroot m hm n hn hmn]
      exact hkind
    have hnone' : ∀ w ∈ u.nodes, w.id = v.id → T.applies w.kind = false := by
      intro w hw hwv
      rw [Tree.eq_of_id_eq hu.distinct hw hvu hwv, kind_of_visit hu hroot hn hvu hid]
      exact hkind
    rw [hT.look_resolve_of_ne _ hnone, hT.look_resolve_of_ne _ hnone', hT.look_empty,
      hT.look_empty]
    rfl
  | true =>
    obtain ⟨before, x, behind, hlog, hbehind⟩ := log_lastVisit T hu hroot hn hv hkind
    have hinitial : (State.initial .empty).bare = (State.initial .empty).bare := rfl
    have hlogs : T.log root = (T.log u).map fun e => (f e.1, e.2.map (T.carry f)) :=
      hT.entries_alike (alike_tour hu) hinitial
    have hvisit : v.id ∉ behind.map Prod.fst := by
      intro hmem
      obtain ⟨e, he, hev⟩ := List.mem_map.1 hmem
      exact hbehind e he (by rw [hev, hid])
    have hnode : n.id ∉ (behind.map fun e => (f e.1, e.2.map (T.carry f))).map Prod.fst := by
      intro hmem
      rw [List.map_map] at hmem
      obtain ⟨e, he, hen⟩ := List.mem_map.1 hmem
      exact hbehind e he hen
    rw [hT.look_resolve, hT.look_resolve, hlogs, hlog, foldl_put_append_cons hvisit,
      List.map_append, List.map_cons, hid, foldl_put_append_cons hnode]

end LastVisit

end Resolve.Table

/-- Everything that is known about a node. -/
def Annotations.known (ann : Annotations) (t : Tree Mark) :
    Option Nat × Option Nat × Option BlockNumber :=
  (ann.slot? t, ann.parent? t, ann.block? t)

/-- Nodes are known alike if they have the same entries in all tables. -/
theorem Annotations.known_eq {ann ann' : Annotations} {n : Tree Mark}
    (h : ∀ {β : Type} {T : Resolve.Table β}, T.IsWritten → T.look ann n.id = T.look ann' n.id) :
    ann.known n = ann'.known n := by
  have hslot : ann.slot? n = ann'.slot? n := h Resolve.Table.slots_isWritten
  have hparent : ann.parent? n = ann'.parent? n := h Resolve.Table.parents_isWritten
  have hblock : ann.block? n = ann'.block? n := h Resolve.Table.blocks_isWritten
  rw [known, known, hslot, hparent, hblock]

/-- Resolution is independent of history. Nodes may be shared in any way, as long as nodes with one
identity are one node. Whatever trees were resolved before, a resolution gives the same layout and
leaves its nodes with the same slots, parents and block numbers as if none of them had ever been
resolved, and it leaves all other nodes as they were. To resolve the tree again changes nothing. The
result is that of a walk through the unfolded tree, where every node keeps the slot, the parent and
the block number of its last visit. -/
theorem resolve_independent_of_history (roots : List (Tree Mark)) (root : Tree Mark)
    (hcoherent : Coherent ((root :: roots).flatMap Tree.nodes)) :
    let before := resolveAll .empty roots
    let after := resolve before root
    let fresh := resolve .empty root
    after.1 = fresh.1 ∧ (∀ n ∈ root.nodes, after.2.known n = fresh.2.known n) ∧
      (∀ n : Tree Mark, n.id ∉ root.nodes.map Tree.id → after.2.known n = before.known n) ∧
      ((resolve after.2 root).1 = after.1 ∧
        ∀ n, (resolve after.2 root).2.known n = after.2.known n) ∧
      (∃ (u : Tree Mark) (f : Nat → Nat), u.Unfolds f root) ∧
      ∀ (u : Tree Mark) (f : Nat → Nat), u.Unfolds f root →
        after.1 = (resolve .empty u).1 ∧ ∀ n ∈ root.nodes, ∃ v, u.IsLastVisit f n v ∧
          after.2.slot? n = (resolve .empty u).2.slot? v ∧
          after.2.parent? n = ((resolve .empty u).2.parent? v).map f ∧
          after.2.block? n = (resolve .empty u).2.block? v := by
  intro before after fresh
  have hroot : Coherent root.nodes := by
    rw [List.flatMap_cons] at hcoherent
    exact fun n hn m hm => hcoherent n (List.mem_append_left _ hn) m (List.mem_append_left _ hm)
  have hknown : ∀ n ∈ root.nodes, after.2.known n = fresh.2.known n := fun n hn =>
    Annotations.known_eq fun hT => hT.look_history hcoherent hn
  have hlayout : ∀ ann, (resolve ann root).1 = fresh.1 := fun ann =>
    Resolve.layout_eq ann .empty root
  refine ⟨hlayout before, hknown, fun n hn => ?_,
    ⟨(hlayout after.2).trans (hlayout before).symm, fun n => ?_⟩, root.exists_unfolds,
    fun u f hu => ⟨?_, fun n hn => ?_⟩⟩
  · refine Annotations.known_eq fun hT => hT.look_resolve_of_ne before fun m hm hid => ?_
    rw [← hid] at hn
    exact absurd (List.mem_map_of_mem hm) hn
  · exact Annotations.known_eq fun hT => congrFun (hT.look_resolve_resolve before root) n.id
  · exact (Resolve.layout_alike (Resolve.alike_tour hu) .empty before).symm
  · obtain ⟨v, hv⟩ := hu.exists_lastVisit hn
    have hlook : ∀ {β : Type} {T : Resolve.Table β}, T.IsWritten →
        T.look after.2 n.id = (T.look (resolve .empty u).2 v.id).map (T.carry f) :=
      fun hT => (hT.look_history hcoherent hn).trans (hT.look_lastVisit hu hroot hn hv)
    have hslot := hlook Resolve.Table.slots_isWritten
    have hblock := hlook Resolve.Table.blocks_isWritten
    exact ⟨v, hv, hslot.trans Option.map_id', hlook Resolve.Table.parents_isWritten,
      hblock.trans Option.map_id'⟩

/-- A block with one statement. -/
def sharedBlock : Tree Mark := .block ⟨1, none⟩ [.print ⟨2, none⟩ (.var ⟨3, none⟩ "x")]

/-- A block that ends with the shared one. -/
def innerBlock : Tree Mark :=
  .block ⟨4, none⟩ [.print ⟨5, none⟩ (.var ⟨6, none⟩ "y"), sharedBlock]

/-- A block that has the shared one as a statement and inside another statement. -/
def outerBlock : Tree Mark := .block ⟨0, none⟩ [sharedBlock, innerBlock]

/-- After the inner blocks have been resolved on their own, the outer one is resolved as if they had
not been. The shared block keeps the parent and the number of its second visit. -/
theorem resolve_independent_of_history_shared :
    Coherent ((outerBlock :: [innerBlock, sharedBlock]).flatMap Tree.nodes) ∧
      (resolve (resolveAll .empty [innerBlock, sharedBlock]) outerBlock).1 = ⟨#["x", "y"], 4⟩ ∧
      (resolve (resolveAll .empty [innerBlock, sharedBlock]) outerBlock).2.known sharedBlock =
        (none, some 4, some ⟨4, 1⟩) := by
  -- the nodes are found in the outer block by their identities
  have hfound : ∀ n ∈ (outerBlock :: [innerBlock, sharedBlock]).flatMap Tree.nodes,
      outerBlock.nodes[n.id]? = some n := by
    refine List.forall_iff_forall_mem.1 ?_
    repeat' apply And.intro
    all_goals rfl
  have hcoherent : Coherent ((outerBlock :: [innerBlock, sharedBlock]).flatMap Tree.nodes) := by
    intro n hn m hm hid
    have hnode := hfound n hn
    rw [hid, hfound m hm] at hnode
    exact (Option.some.inj hnode).symm
  obtain ⟨hlayout, hknown, -⟩ :=
    resolve_independent_of_history [innerBlock, sharedBlock] outerBlock hcoherent
  have hmem : sharedBlock ∈ outerBlock.nodes := List.mem_iff_getElem?.2 ⟨1, rfl⟩
  refine ⟨hcoherent, ?_, ?_⟩
  · rw [hlayout]
    cbv
  · rw [hknown sharedBlock hmem]
    cbv

end IntScript
