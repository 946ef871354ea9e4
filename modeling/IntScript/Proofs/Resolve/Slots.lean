import IntScript.Proofs.Tree.Nodes
import IntScript.Resolve

/-!
# Slots of names

Resolution keeps two tables, from names to slots and from slots to names, which are inverse to each
other at every step of the walk. Every variable that has been met carries the slot of its name, and
every name in the tables is that of a variable that has been met. So the final layout gives equal
names equal slots and different names different slots, wherever they stand in the tree.
-/

namespace IntScript

namespace Resolve

/-- The two tables of a walk are inverse to each other. -/
def State.IsTidy (s : State) : Prop :=
  ∀ (name : String) (slot : Nat), s.slots[name]? = some slot ↔ s.names[slot]? = some name

/-- The variables among some nodes carry the slots of their names, and no other names have
slots. -/
structure State.Covers (s : State) (seen : List (Tree Mark)) : Prop where
  /-- Variables carry the slots of their names. -/
  slot : ∀ (m : Mark) (name : String), .var m name ∈ seen →
    ∃ slot, s.annotations.slots[m.id]? = some slot ∧ s.slots[name]? = some slot
  /-- Names with slots are those of variables. -/
  name : ∀ (name : String) (slot : Nat), s.slots[name]? = some slot → ∃ m, .var m name ∈ seen

/-- Nodes with one identity have one name. -/
def NamesAgree (nodes : List (Tree Mark)) : Prop :=
  ∀ n ∈ nodes, ∀ n' ∈ nodes, n.id = n'.id → n.name? = n'.name?

/-- The walk notes the parent of a node as soon as it enters it. -/
def State.withParent (s : State) (parent : Option (Role × Mark)) (node : Tree Mark) : State :=
  { s with annotations := s.annotations.setParent node (parent.map fun p => p.2.id) }

/-- Parents are kept apart from slots. -/
theorem State.withParent_slots (s : State) (parent : Option (Role × Mark)) (node : Tree Mark) :
    (s.withParent parent node).annotations.slots = s.annotations.slots := by
  cases parent <;> rfl

/-- A new name keeps the tables inverse to each other. -/
theorem State.IsTidy.push {s : State} (h : s.IsTidy) {name : String}
    (hname : s.slots[name]? = none) (x : String) (i : Nat) :
    (s.slots.insert name s.names.size)[x]? = some i ↔ (s.names.push name)[i]? = some x := by
  have hx := h x i
  rw [Std.HashMap.getElem?_insert, Array.getElem?_push]
  by_cases hxn : name = x
  · subst hxn
    rw [hname] at hx
    by_cases hi : i = s.names.size
    · simp [hi]
    · have hne : s.names[i]? ≠ some name := fun hs => nomatch hx.2 hs
      simp only [beq_self_eq_true, if_true, Option.some.injEq, if_neg hi]
      exact ⟨fun he => absurd he.symm hi, fun hs => absurd hs hne⟩
  · by_cases hi : i = s.names.size
    · subst hi
      have hout : s.names[s.names.size]? = none := by simp
      rw [hout] at hx
      simp [hxn, hx]
    · simp [hxn, hi, hx]

/-- Every step of the walk keeps the tables inverse to each other. -/
theorem State.IsTidy.visit {s : State} (h : s.IsTidy) (step : Tree.Step Mark) :
    (s.visit step).IsTidy := by
  cases step with
  | enter parent node =>
    cases node with
    | var m name =>
      intro x i
      simp only [State.visit, State.assignSlot]
      split
      · exact h x i
      · next hname => exact h.push hname x i
    | _ => exact h
  | leave node =>
    simp only [State.visit]
    split <;> exact h

/-- The slot that a variable gets. -/
theorem State.assignSlot_slot (s : State) (t : Tree Mark) (name : String) :
    ∃ slot, (s.assignSlot t name).annotations.slots = s.annotations.slots.insert t.id slot ∧
      (s.assignSlot t name).slots[name]? = some slot := by
  unfold State.assignSlot
  split
  · next slot hslot => exact ⟨slot, rfl, hslot⟩
  · exact ⟨s.names.size, rfl, by simp⟩

/-- Names keep their slots, and only the new name can get one. -/
theorem State.assignSlot_slots (s : State) (t : Tree Mark) (name x : String) (slot : Nat) :
    (s.slots[x]? = some slot → (s.assignSlot t name).slots[x]? = some slot) ∧
      ((s.assignSlot t name).slots[x]? = some slot → x = name ∨ s.slots[x]? = some slot) := by
  unfold State.assignSlot
  split
  · exact ⟨fun h => h, fun h => .inr h⟩
  · next hname =>
    simp only [Std.HashMap.getElem?_insert, beq_iff_eq]
    refine ⟨fun h => ?_, fun h => ?_⟩
    · rw [if_neg]
      · exact h
      · intro he
        rw [← he, hname] at h
        cases h
    · by_cases he : name = x
      · exact .inl he.symm
      · rw [if_neg he] at h
        exact .inr h

/-- One more variable is covered when it gets its slot, provided that no variable with another
name has its identity. -/
theorem State.Covers.assignSlot {s : State} {seen : List (Tree Mark)} (h : s.Covers seen)
    {m : Mark} {name : String} (hagree : NamesAgree (.var m name :: seen)) :
    (s.assignSlot (.var m name) name).Covers (.var m name :: seen) := by
  obtain ⟨new, hann, hnew⟩ := s.assignSlot_slot (.var m name) name
  refine ⟨fun m' x hx => ?_, fun x slot hx => ?_⟩
  · rw [hann, Std.HashMap.getElem?_insert]
    by_cases hid : m.id = m'.id
    · have hname := hagree _ List.mem_cons_self _ hx hid
      simp only [Tree.name?, Option.some.injEq] at hname
      subst hname
      exact ⟨new, by simp [Tree.id, Tree.label, hid], hnew⟩
    · have hmem : Tree.var m' x ∈ seen := by
        rcases List.mem_cons.1 hx with he | hx
        · cases he
          exact absurd rfl hid
        · exact hx
      obtain ⟨slot, hslot, hx'⟩ := h.slot m' x hmem
      refine ⟨slot, ?_, (s.assignSlot_slots _ name x slot).1 hx'⟩
      rw [if_neg (by simpa [Tree.id, Tree.label] using hid)]
      exact hslot
  · rcases (s.assignSlot_slots _ name x slot).2 hx with rfl | hx
    · exact ⟨m, List.mem_cons_self⟩
    · obtain ⟨m', hm'⟩ := h.name x slot hx
      exact ⟨m', List.mem_cons_of_mem _ hm'⟩

/-- A node that is not a variable needs no slot. -/
theorem State.Covers.cons {s : State} {seen : List (Tree Mark)} (h : s.Covers seen)
    {node : Tree Mark} (hnode : node.name? = none) : s.Covers (node :: seen) := by
  refine ⟨fun m name hm => ?_, fun name slot hslot => ?_⟩
  · rcases List.mem_cons.1 hm with rfl | hm
    · cases hnode
    · exact h.slot m name hm
  · obtain ⟨m, hm⟩ := h.name name slot hslot
    exact ⟨m, List.mem_cons_of_mem _ hm⟩

/-- Parents and block numbers do not matter for slots. -/
theorem State.Covers.congr {s s' : State} {seen : List (Tree Mark)} (h : s.Covers seen)
    (hann : s'.annotations.slots = s.annotations.slots) (hslots : s'.slots = s.slots) :
    s'.Covers seen := by
  refine ⟨fun m name hm => ?_, fun name slot hslot => ?_⟩
  · rw [hann, hslots]
    exact h.slot m name hm
  · rw [hslots] at hslot
    exact h.name name slot hslot

/-- Every step of the walk covers the node that it enters. -/
theorem State.Covers.visit {s : State} {seen : List (Tree Mark)} (h : s.Covers seen)
    (step : Tree.Step Mark) (hagree : NamesAgree (step.entered?.toList ++ seen)) :
    (s.visit step).Covers (step.entered?.toList ++ seen) := by
  cases step with
  | enter parent node =>
    have hs : State.Covers { s with
        annotations := s.annotations.setParent node (parent.map fun p => p.2.id) } seen := by
      refine h.congr ?_ rfl
      cases parent <;> rfl
    cases node with
    | var m name => exact hs.assignSlot hagree
    | block a ts => exact (hs.cons rfl).congr rfl rfl
    | _ => exact hs.cons rfl
  | leave node =>
    simp only [State.visit]
    split
    · exact h.congr rfl rfl
    · exact h

/-- The whole walk covers all nodes that it enters. -/
theorem State.Covers.foldl {s : State} {seen : List (Tree Mark)} (h : s.Covers seen)
    (steps : List (Tree.Step Mark))
    (hagree : NamesAgree ((steps.filterMap Tree.Step.entered?).reverse ++ seen)) :
    (steps.foldl State.visit s).Covers
      ((steps.filterMap Tree.Step.entered?).reverse ++ seen) := by
  induction steps generalizing s seen with
  | nil => exact h
  | cons step steps ih =>
    have hsplit : ((step :: steps).filterMap Tree.Step.entered?).reverse ++ seen =
        (steps.filterMap Tree.Step.entered?).reverse ++ (step.entered?.toList ++ seen) := by
      cases hstep : step.entered? with
      | none => simp [hstep]
      | some node => simp [hstep]
    rw [hsplit] at hagree ⊢
    refine ih (h.visit step ?_) hagree
    exact fun n hn n' hn' => hagree n (List.mem_append_right _ hn) n' (List.mem_append_right _ hn')

/-- The whole walk keeps the tables inverse to each other. -/
theorem State.IsTidy.foldl {s : State} (h : s.IsTidy) (steps : List (Tree.Step Mark)) :
    (steps.foldl State.visit s).IsTidy := by
  induction steps generalizing s with
  | nil => exact h
  | cons step steps ih => exact ih (h.visit step)

/-- The pending steps are made in the order of the tours that they stand for. -/
theorem State.walk_eq_foldl (s : State) (pending : List (Tree.Step Mark)) :
    s.walk pending = (pending.flatMap Tree.Step.tour).foldl State.visit s := by
  fun_induction State.walk s pending with
  | case1 s => rfl
  | case2 s step pending ih =>
    rw [ih, List.flatMap_append, List.flatMap_cons, step.tour_eq, List.cons_append,
      List.foldl_cons]

end Resolve

/-- Resolution makes the steps of the tour of the tree. -/
theorem resolve_eq_tour (ann : Annotations) (root : Tree Mark) :
    resolve ann root =
      let s := root.tour.foldl Resolve.State.visit (Resolve.State.initial ann)
      (⟨s.names, s.finished⟩, s.annotations) := by
  rw [resolve, Resolve.State.walk_eq_foldl, List.flatMap_singleton]
  rfl

/-- Slots are looked up in the list of names as they are in the table of the walk. -/
theorem Layout.slotOf?_of_isTidy {s : Resolve.State} (h : s.IsTidy) (count : Nat)
    (name : String) : Layout.slotOf? ⟨s.names, count⟩ name = s.slots[name]? := by
  cases hslot : s.slots[name]? with
  | none =>
    rw [slotOf?, List.findIdx?_eq_none_iff]
    intro x hx
    obtain ⟨i, hi⟩ := List.mem_iff_getElem?.1 hx
    rw [Array.getElem?_toList] at hi
    have hsome := (h x i).2 hi
    rw [beq_eq_false_iff_ne]
    rintro rfl
    rw [hslot] at hsome
    cases hsome
  | some i =>
    obtain ⟨hlt, hi⟩ := Array.getElem?_eq_some_iff.1 ((h name i).1 hslot)
    rw [slotOf?, List.findIdx?_eq_some_iff_getElem]
    refine ⟨hlt, by simpa using hi, fun j hj hname => ?_⟩
    have hjlt : j < s.names.size := Nat.lt_trans hj hlt
    have hjn : s.names[j]? = some name := by
      rw [Array.getElem?_eq_getElem hjlt]
      simpa using hname
    have hjslot := (h name j).2 hjn
    rw [hslot] at hjslot
    cases hjslot
    omega

/-- Slots and names are inverse to each other. -/
def Layout.OneToOne (layout : Layout) : Prop :=
  ∀ name slot, layout.slotOf? name = some slot ↔ layout.nameOf? slot = some name

/-- The slots that resolution gives to the names of a tree. -/
structure Layout.Fits (layout : Layout) (ann : Annotations) (root : Tree Mark) : Prop where
  /-- Slots and names are inverse to each other. -/
  oneToOne : layout.OneToOne
  /-- Variables carry the slots of their names. -/
  slot : ∀ m name, .var m name ∈ root.nodes →
    ∃ slot, ann.slot? (.var m name) = some slot ∧ layout.slotOf? name = some slot
  /-- Names with slots are those of variables of the tree. -/
  name : ∀ name slot, layout.slotOf? name = some slot → ∃ m, .var m name ∈ root.nodes

/-- Resolution lays out the names of every tree in which nodes with one identity have one name. -/
theorem resolve_fits (ann : Annotations) {root : Tree Mark}
    (hagree : Resolve.NamesAgree root.nodes) :
    (resolve ann root).1.Fits (resolve ann root).2 root := by
  have htidy : (Resolve.State.initial ann).IsTidy := by
    intro name slot
    simp [Resolve.State.initial]
  have hcovers : (Resolve.State.initial ann).Covers [] := by
    refine ⟨fun m name hm => (List.not_mem_nil hm).elim, fun name slot hslot => ?_⟩
    simp [Resolve.State.initial] at hslot
  have hmem : ∀ n, n ∈ (root.tour.filterMap Tree.Step.entered?).reverse ++ [] ↔ n ∈ root.nodes := by
    intro n
    rw [List.append_nil, List.mem_reverse, Tree.nodes_eq_entered]
  have hcovers' := hcovers.foldl root.tour
    fun n hn n' hn' => hagree n ((hmem n).1 hn) n' ((hmem n').1 hn')
  have htidy' := htidy.foldl root.tour
  refine ⟨fun name slot => ?_, fun m name hm => ?_, fun name slot hslot => ?_⟩
  · rw [resolve_eq_tour, Layout.slotOf?_of_isTidy htidy']
    exact htidy' name slot
  · rw [resolve_eq_tour, Layout.slotOf?_of_isTidy htidy']
    exact hcovers'.slot m name ((hmem _).2 hm)
  · rw [resolve_eq_tour, Layout.slotOf?_of_isTidy htidy'] at hslot
    obtain ⟨m, hm⟩ := hcovers'.name name slot hslot
    exact ⟨m, (hmem _).1 hm⟩

end IntScript
