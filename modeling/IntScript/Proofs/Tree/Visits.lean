import IntScript.Proofs.Tree.Identity
import Mathlib.Data.List.Permutation

/-!
# Visits of shared nodes

A tree in which nodes are shared can be unfolded into one without shared nodes, where each visit of
a node is a node of its own. A tour goes through both trees in the same way. Visits of one node are
never inside each other, so that the visits of a node are left in the order in which they are
entered, and the last one in either order is the same.
-/

namespace IntScript.Tree

variable {α β γ : Type}

/-- Other labels do not change the parts that children play. -/
theorem children_relabel (f : α → β) (t : Tree α) :
    (t.relabel f).children = t.children.map fun c => (c.1, c.2.relabel f) := by
  cases t with
  | sequence a c rest => cases rest <;> rfl
  | ifElse a c t e => cases e <;> rfl
  | block a ts =>
    rw [relabel, relabelAll_eq_map, children, children, List.zipIdx_map, List.map_map,
      List.map_map]
    rfl
  | _ => rfl

/-- Other labels do not change the name of a variable. -/
theorem name?_relabel (f : α → β) (t : Tree α) : (t.relabel f).name? = t.name? := by
  cases t with
  | sequence a c rest => cases rest <;> rfl
  | ifElse a c t e => cases e <;> rfl
  | _ => rfl

/-- Labels can be changed in one go. -/
theorem relabel_relabel (f : α → β) (g : β → γ) (t : Tree α) :
    (t.relabel f).relabel g = t.relabel fun a => g (f a) := by
  induction t using Tree.induction with
  | sequence a c rest hc hr => cases rest <;> simp_all [relabel]
  | ifElse a c t e hc ht he => cases e <;> simp_all [relabel]
  | block a ts hts =>
    simp only [relabel, relabelAll_eq_map, List.map_map, block.injEq, true_and]
    exact List.map_congr_left hts
  | _ => simp_all [relabel]

/-- The root and its children get their labels apart from each other. -/
theorem relabel_congr_children {f g : α → β} {t : Tree α} (hlabel : f t.label = g t.label)
    (hsubtrees : ∀ s ∈ t.subtrees, s.relabel f = s.relabel g) : t.relabel f = t.relabel g := by
  cases t with
  | sequence a c rest => cases rest <;> simp_all [relabel, subtrees, children, label]
  | ifElse a c t e => cases e <;> simp_all [relabel, subtrees, children, label]
  | block a ts =>
    rw [subtrees_block] at hsubtrees
    simp only [relabel, relabelAll_eq_map, block.injEq]
    exact ⟨hlabel, List.map_congr_left hsubtrees⟩
  | _ => simp_all [relabel, subtrees, children, label]

/-- Only the labels of the nodes matter for other labels. -/
theorem relabel_congr {f g : α → β} {t : Tree α} (h : ∀ n ∈ t.nodes, f n.label = g n.label) :
    t.relabel f = t.relabel g := by
  induction t using induction_on_children with
  | step t ih =>
    obtain ⟨hlabel, hsubtrees⟩ := forall_nodes_iff.1 h
    refine relabel_congr_children hlabel fun s hs => ?_
    obtain ⟨p, hp, rfl⟩ := List.mem_map.1 hs
    exact ih p hp (hsubtrees p.2 hs)

/-- A step of a tour with other labels. -/
def Step.relabel (f : α → β) : Step α → Step β
  | .enter parent node => .enter (parent.map fun p => (p.1, f p.2)) (node.relabel f)
  | .leave node => .leave (node.relabel f)

/-- A tour enters a node, tours its children and leaves it. -/
theorem tourFrom_eq (parent : Option (Role × α)) (t : Tree α) :
    t.tourFrom parent = .enter parent t ::
      ((t.children.flatMap fun c => c.2.tourFrom (some (c.1, t.label))) ++ [.leave t]) := by
  have htour := (Step.enter parent t).tour_eq
  rw [Step.tour, Step.opens, List.flatMap_append, List.flatMap_map] at htour
  exact htour

/-- A tour goes through a tree with other labels in the same way. -/
theorem tourFrom_relabel (f : α → β) (parent : Option (Role × α)) (t : Tree α) :
    (t.relabel f).tourFrom (parent.map fun p => (p.1, f p.2)) =
      (t.tourFrom parent).map (Step.relabel f) := by
  induction t using induction_on_children generalizing parent with
  | step t ih =>
    have hchildren : (t.children.flatMap fun c =>
          (c.2.relabel f).tourFrom (some (c.1, f t.label))) =
        t.children.flatMap fun c =>
          (c.2.tourFrom (some (c.1, t.label))).map (Step.relabel f) :=
      List.flatMap_congr fun c hc => ih c hc (some (c.1, t.label))
    rw [tourFrom_eq, children_relabel, List.flatMap_map, label_relabel, hchildren, tourFrom_eq,
      List.map_cons, List.map_append, List.map_flatMap]
    rfl

/-- A tour goes through a tree with other labels in the same way. -/
theorem tour_relabel (f : α → β) (t : Tree α) :
    (t.relabel f).tour = t.tour.map (Step.relabel f) :=
  tourFrom_relabel f none t

/-- The node that a step of a tour leaves. -/
def Step.left? : Step α → Option (Tree α)
  | .enter _ _ => none
  | .leave node => some node

/-- A node is left behind the nodes of its children. -/
theorem left_tourFrom (parent : Option (Role × α)) (t : Tree α) :
    (t.tourFrom parent).filterMap Step.left? =
      (t.children.flatMap fun c =>
        (c.2.tourFrom (some (c.1, t.label))).filterMap Step.left?) ++ [t] := by
  rw [tourFrom_eq, List.filterMap_cons, Step.left?, List.filterMap_append,
    List.filterMap_flatMap]
  rfl

/-- All nodes are left, in another order. -/
theorem left_perm_nodes (parent : Option (Role × α)) (t : Tree α) :
    ((t.tourFrom parent).filterMap Step.left?).Perm t.nodes := by
  induction t using induction_on_children generalizing parent with
  | step t ih =>
    have hchildren : (t.children.flatMap fun c =>
          (c.2.tourFrom (some (c.1, t.label))).filterMap Step.left?).Perm
        (t.children.flatMap fun c => c.2.nodes) :=
      List.Perm.flatMap_left _ fun c hc => ih c hc _
    rw [left_tourFrom, nodes_eq, subtrees, List.flatMap_map]
    exact (hchildren.append_right _).trans (List.perm_append_singleton _ _)

/-- Nodes of a kind that are not inside each other are left in the order in which they are
entered. -/
theorem left_filter {t : Tree α} {q : Tree α → Bool}
    (h : ∀ n ∈ t.nodes, q n = true → ∀ m ∈ n.nodes.tail, q m = false)
    (parent : Option (Role × α)) :
    ((t.tourFrom parent).filterMap Step.left?).filter q = t.nodes.filter q := by
  induction t using induction_on_children generalizing parent with
  | step t ih =>
    have hchildren : ((t.children.flatMap fun c =>
          (c.2.tourFrom (some (c.1, t.label))).filterMap Step.left?).filter q) =
        (t.subtrees.flatMap nodes).filter q := by
      rw [subtrees, List.flatMap_map, List.filter_flatMap, List.filter_flatMap]
      refine List.flatMap_congr fun c hc => ih c hc (fun n hn => h n ?_) _
      exact mem_nodes_of_subtree (List.mem_map_of_mem hc) hn
    rw [left_tourFrom, List.filter_append, hchildren, nodes_eq t]
    cases hq : q t with
    | false => simp [hq]
    | true =>
      have hnone : (t.subtrees.flatMap nodes).filter q = [] := by
        have hinside := h t (mem_nodes_self t) hq
        rw [nodes_eq, List.tail_cons] at hinside
        rw [List.filter_eq_nil_iff]
        intro m hm
        rw [hinside m hm]
        exact Bool.false_ne_true
      simp [hq, hnone]

/-- A node inside another one has fewer nodes. -/
theorem length_nodes_lt {t n : Tree α} (h : n ∈ t.nodes.tail) :
    n.nodes.length < t.nodes.length := by
  induction t using induction_on_children with
  | step t ih =>
    rw [nodes_eq, List.tail_cons] at h
    obtain ⟨s, hs, hn⟩ := List.mem_flatMap.1 h
    have hle : n.nodes.length ≤ s.nodes.length := by
      rw [nodes_eq s] at hn
      rcases List.mem_cons.1 hn with rfl | hn
      · exact Nat.le_refl _
      · obtain ⟨p, hp, rfl⟩ := List.mem_map.1 hs
        refine Nat.le_of_lt (ih p hp ?_)
        rw [nodes_eq, List.tail_cons]
        exact hn
    have hsub : s.nodes.Sublist (t.subtrees.flatMap nodes) := by
      rw [List.flatMap_def]
      exact List.sublist_flatten_of_mem (List.mem_map_of_mem hs)
    have hlength := hsub.length_le
    rw [nodes_eq t, List.length_cons]
    omega

/-- Nodes with one identity are one node. -/
def Coherent (nodes : List (Tree Mark)) : Prop :=
  ∀ n ∈ nodes, ∀ m ∈ nodes, n.id = m.id → n = m

/-- A tree without shared nodes whose nodes are the visits of the nodes of another tree: `f` gives
the identity of the node that is visited. Where the nodes come from in a text does not matter. -/
structure Unfolds (u : Tree Mark) (f : Nat → Nat) (root : Tree Mark) : Prop where
  /-- Each visit is a node of its own. -/
  distinct : (u.nodes.map id).Nodup
  /-- Visits of the same nodes make up the other tree. -/
  folds : (u.relabel fun m => f m.id) = root.relabel Mark.id

/-- The last visit of a node in pre-order. -/
def IsLastVisit (u : Tree Mark) (f : Nat → Nat) (n v : Tree Mark) : Prop :=
  ∃ before behind, u.nodes = before ++ v :: behind ∧ f v.id = n.id ∧
    ∀ w ∈ behind, f w.id ≠ n.id

/-- Nodes with different identities are found by their identities. -/
theorem eq_of_id_eq {nodes : List (Tree Mark)} (h : (nodes.map id).Nodup) {n m : Tree Mark}
    (hn : n ∈ nodes) (hm : m ∈ nodes) (hid : n.id = m.id) : n = m :=
  List.inj_on_of_nodup_map h hn hm hid

/-- Every tree can be unfolded. -/
theorem exists_unfolds (root : Tree Mark) :
    ∃ (u : Tree Mark) (f : Nat → Nat), u.Unfolds f root := by
  -- the visits are numbered, and the identities of the nodes are kept in the place of spans
  let visits : Tree Span := root.relabel fun m => ⟨m.id, 0⟩
  let visited (m : Mark) : Nat := (m.span.getD ⟨0, 0⟩).start
  let f (i : Nat) : Nat :=
    ((visits.number.nodes.find? (·.id = i)).map fun v => visited v.label).getD 0
  have hvisited : ∀ v ∈ visits.number.nodes, f v.label.id = visited v.label := by
    intro v hv
    have hfound : (visits.number.nodes.find? (·.id = v.id)).isSome = true :=
      List.find?_isSome.2 ⟨v, hv, decide_eq_true rfl⟩
    obtain ⟨w, hw⟩ := Option.isSome_iff_exists.1 hfound
    have hid : w.id = v.id := by simpa using List.find?_some hw
    have hsame : w = v := eq_of_id_eq visits.number_nodup (List.mem_of_find?_eq_some hw) hv hid
    change ((visits.number.nodes.find? (·.id = v.id)).map fun v => visited v.label).getD 0 = _
    rw [hw, hsame]
    rfl
  refine ⟨visits.number, f, visits.number_nodup, ?_⟩
  calc (visits.number.relabel fun m => f m.id)
      = visits.number.relabel visited := relabel_congr hvisited
    _ = visits.number.unmarked.relabel Span.start := (relabel_relabel _ _ _).symm
    _ = visits.relabel Span.start := by rw [number, unmarked_numberFrom]
    _ = root.relabel Mark.id := relabel_relabel _ _ _

section Unfolded

variable {u root n : Tree Mark} {f : Nat → Nat}

/-- The visits visit the nodes in pre-order. -/
theorem Unfolds.ids (h : u.Unfolds f root) : u.nodes.map (fun v => f v.id) = root.nodes.map id := by
  have hlabels : ∀ (g : Mark → Nat) (t : Tree Mark),
      (t.relabel g).nodes.map label = t.nodes.map fun n => g n.label := by
    intro g t
    rw [nodes_relabel, List.map_map]
    exact List.map_congr_left fun n _ => label_relabel g n
  calc u.nodes.map (fun v => f v.id)
      = (u.relabel fun m => f m.id).nodes.map label :=
        (hlabels (fun m => f m.id) u).symm
    _ = (root.relabel Mark.id).nodes.map label := by rw [h.folds]
    _ = root.nodes.map id := hlabels Mark.id root

/-- A visit has the shape of the node that is visited. -/
theorem Unfolds.relabel_eq (h : u.Unfolds f root) (hroot : Coherent root.nodes)
    (hn : n ∈ root.nodes) {v : Tree Mark} (hv : v ∈ u.nodes) (hid : f v.id = n.id) :
    (v.relabel fun m => f m.id) = n.relabel Mark.id := by
  have hmem : (v.relabel fun m => f m.id) ∈ root.nodes.map (Tree.relabel Mark.id) := by
    rw [← nodes_relabel, ← h.folds, nodes_relabel]
    exact List.mem_map_of_mem hv
  obtain ⟨m, hm, heq⟩ := List.mem_map.1 hmem
  have hm' : m.id = n.id := by
    have hlabel := congrArg label heq
    rw [label_relabel, label_relabel] at hlabel
    exact hlabel.trans hid
  rw [← heq, hroot m hm n hn hm']

/-- Visits of one node are not inside each other. -/
theorem Unfolds.not_inside (h : u.Unfolds f root) (hroot : Coherent root.nodes)
    (hn : n ∈ root.nodes) {v w : Tree Mark} (hv : v ∈ u.nodes) (hw : w ∈ u.nodes)
    (hvn : f v.id = n.id) (hwn : f w.id = n.id) : w ∉ v.nodes.tail := by
  intro hinside
  have hsame : (v.relabel fun m => f m.id) = w.relabel fun m => f m.id :=
    (h.relabel_eq hroot hn hv hvn).trans (h.relabel_eq hroot hn hw hwn).symm
  have hlength := congrArg (fun t => t.nodes.length) hsame
  simp only [nodes_relabel, List.length_map] at hlength
  have hlt := length_nodes_lt hinside
  omega

/-- Every node has a last visit. -/
theorem Unfolds.exists_lastVisit (h : u.Unfolds f root) (hn : n ∈ root.nodes) :
    ∃ v, u.IsLastVisit f n v := by
  have hvisit : n.id ∈ u.nodes.map fun v => f v.id := by
    rw [h.ids]
    exact List.mem_map_of_mem hn
  obtain ⟨v, hv, hid⟩ := List.mem_map.1 hvisit
  -- the last visit is the first one from behind
  have hfound : (u.nodes.reverse.find? (f ·.id = n.id)).isSome = true :=
    List.find?_isSome.2 ⟨v, List.mem_reverse.2 hv, decide_eq_true hid⟩
  obtain ⟨w, hw⟩ := Option.isSome_iff_exists.1 hfound
  obtain ⟨hwn, behind, before, hnodes, hbehind⟩ := List.find?_eq_some_iff_append.1 hw
  refine ⟨w, before.reverse, behind.reverse, ?_, of_decide_eq_true hwn, fun x hx => ?_⟩
  · have hreverse := congrArg List.reverse hnodes
    simpa using hreverse
  · simpa using hbehind x (List.mem_reverse.1 hx)

end Unfolded

end IntScript.Tree
