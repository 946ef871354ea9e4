import IntScript.Proofs.Resolve.Slots
import Mathlib.Data.Finset.Card

/-!
# The layout by first occurrence

Reading a tree from left to right, with a node before its children, gives the names of its
variables in a certain order, as often as they occur. Resolution lays out the names in the order of
their first occurrence there: every step of the walk keeps the names laid out so far in step with
the occurrences met so far. With the tables of slots and names inverse to each other this settles
the whole layout.
-/

namespace IntScript

namespace Tree

variable {α : Type}

mutual

/-- The names of the variables of a tree from left to right, as often as they occur. -/
def occurrences : Tree α → List String
  | .literal .. | .input .. => []
  | .var _ name => [name]
  | .binary _ _ l r => occurrences l ++ occurrences r
  | .unary _ _ t => occurrences t
  | .assign _ t v => occurrences t ++ occurrences v
  | .sequence _ c none => occurrences c
  | .sequence _ c (some r) => occurrences c ++ occurrences r
  | .block _ ts => occurrencesIn ts
  | .condition _ t => occurrences t
  | .ifElse _ c t none => occurrences c ++ occurrences t
  | .ifElse _ c t (some e) => occurrences c ++ occurrences t ++ occurrences e
  | .whileLoop _ c b => occurrences c ++ occurrences b
  | .print _ t => occurrences t

/-- The names of the variables of the statements of a block. -/
def occurrencesIn : List (Tree α) → List String
  | [] => []
  | t :: ts => occurrences t ++ occurrencesIn ts

end

/-- The occurrences in statements are those in each of them in turn. -/
theorem occurrencesIn_eq (ts : List (Tree α)) : occurrencesIn ts = ts.flatMap occurrences := by
  induction ts with
  | nil => rfl
  | cons t ts ih => rw [occurrencesIn, ih, List.flatMap_cons]

/-- The name of a node comes before those in its children. -/
theorem occurrences_eq (t : Tree α) :
    t.occurrences = t.name?.toList ++ t.subtrees.flatMap occurrences := by
  cases t with
  | sequence a c rest => cases rest <;> simp [occurrences, name?, subtrees, children]
  | ifElse a c t e => cases e <;> simp [occurrences, name?, subtrees, children]
  | block a ts =>
    rw [subtrees_block, occurrences, occurrencesIn_eq]
    rfl
  | _ => simp [occurrences, name?, subtrees, children]

/-- The occurrences are the names of the nodes in pre-order. -/
theorem filterMap_name?_nodes (t : Tree α) : t.nodes.filterMap name? = t.occurrences := by
  induction t using induction_on_children with
  | step t ih =>
    have hsub : t.subtrees.flatMap (fun s => s.nodes.filterMap name?) =
        t.subtrees.flatMap occurrences := by
      refine List.flatMap_congr fun s hs => ?_
      obtain ⟨p, hp, rfl⟩ := List.mem_map.1 hs
      exact ih p hp
    have hroot : [t].filterMap name? = t.name?.toList := by
      cases h : t.name? <;> simp [h]
    calc t.nodes.filterMap name?
        = [t].filterMap name? ++ (t.subtrees.flatMap nodes).filterMap name? := by
          rw [nodes_eq t, ← List.filterMap_append, List.singleton_append]
      _ = t.name?.toList ++ t.subtrees.flatMap occurrences := by
          rw [hroot, List.filterMap_flatMap, hsub]
      _ = t.occurrences := (occurrences_eq t).symm

end Tree

namespace Resolve

/-- The name of the variable that a step enters. -/
def metName? (step : Tree.Step Mark) : Option String := step.entered?.bind Tree.name?

/-- The names that a tour meets are the occurrences in the tree. -/
theorem filterMap_metName?_tour (t : Tree Mark) : t.tour.filterMap metName? = t.occurrences := by
  have hsplit : t.tour.filterMap metName? =
      (t.tour.filterMap Tree.Step.entered?).filterMap Tree.name? := by
    rw [List.filterMap_filterMap]
    rfl
  rw [hsplit, ← Tree.nodes_eq_entered, Tree.filterMap_name?_nodes]

/-- The names that were met are laid out in the order of their first occurrence, and the two tables
are inverse to each other. -/
structure State.LaysOut (s : State) (met : List String) : Prop where
  /-- The tables are inverse to each other. -/
  tidy : s.IsTidy
  /-- The names are laid out by first occurrence. -/
  names : s.names.toList = met.eraseDups

/-- A name has a slot exactly if it is in the list of names. -/
theorem State.IsTidy.mem_names_iff {s : State} (h : s.IsTidy) (name : String) :
    name ∈ s.names.toList ↔ ∃ slot, s.slots[name]? = some slot := by
  constructor
  · intro hname
    obtain ⟨slot, hslot⟩ := List.mem_iff_getElem?.1 hname
    rw [Array.getElem?_toList] at hslot
    exact ⟨slot, (h name slot).2 hslot⟩
  · rintro ⟨slot, hslot⟩
    have hname := (h name slot).1 hslot
    rw [← Array.getElem?_toList] at hname
    exact List.mem_iff_getElem?.2 ⟨slot, hname⟩

/-- No name is listed twice. -/
theorem State.IsTidy.nodup_names {s : State} (h : s.IsTidy) : s.names.toList.Nodup := by
  rw [List.nodup_iff_getElem?_ne_getElem?]
  intro i j hij hj hsame
  have hname : s.names.toList[i]? = some s.names.toList[i] :=
    List.getElem?_eq_getElem (Nat.lt_trans hij hj)
  have hi := (h _ i).2 (Array.getElem?_toList ▸ hname)
  have hj' := (h _ j).2 (Array.getElem?_toList ▸ hsame ▸ hname)
  have hslots : i = j := Option.some.inj (hi.symm.trans hj')
  omega

/-- One more occurrence adds its name unless the name was met before. -/
theorem eraseDups_append_singleton (met : List String) (name : String) :
    (met ++ [name]).eraseDups = met.eraseDups ++ if name ∈ met then [] else [name] := by
  rw [List.eraseDups_append]
  by_cases hmet : name ∈ met
  · have hgone : [name].removeAll met = [] := by simp [List.removeAll, hmet]
    rw [hgone, if_pos hmet, List.eraseDups_nil]
  · have hkept : [name].removeAll met = [name] := by simp [List.removeAll, hmet]
    rw [hkept, if_neg hmet]
    rfl

/-- A variable that gets its slot has its name laid out. -/
theorem State.LaysOut.assignSlot_names {s : State} {met : List String} (h : s.LaysOut met)
    (t : Tree Mark) (name : String) :
    (s.assignSlot t name).names.toList = (met ++ [name]).eraseDups := by
  have hmet : name ∈ met ↔ ∃ slot, s.slots[name]? = some slot := by
    rw [← List.mem_eraseDups, ← h.names]
    exact h.tidy.mem_names_iff name
  rw [eraseDups_append_singleton, ← h.names]
  cases hslot : s.slots[name]? with
  | some slot =>
    have hin : name ∈ met := hmet.2 ⟨slot, hslot⟩
    rw [if_pos hin, List.append_nil, State.assignSlot, hslot]
  | none =>
    have hout : name ∉ met := by
      intro hin
      obtain ⟨slot, hs⟩ := hmet.1 hin
      rw [hslot] at hs
      cases hs
    rw [if_neg hout, State.assignSlot, hslot, Array.toList_push]

/-- Every step of the walk lays out the name that it meets. -/
theorem State.LaysOut.visit {s : State} {met : List String} (h : s.LaysOut met)
    (step : Tree.Step Mark) : (s.visit step).LaysOut (met ++ (metName? step).toList) := by
  refine ⟨h.tidy.visit step, ?_⟩
  have hsame : s.names.toList = (met ++ []).eraseDups := by rw [List.append_nil, h.names]
  cases step with
  | enter parent node =>
    cases node with
    | var m name =>
      have h' : State.LaysOut { s with
          annotations := s.annotations.setParent (.var m name) (parent.map fun p => p.2.id) } met :=
        ⟨h.tidy, h.names⟩
      exact h'.assignSlot_names (.var m name) name
    | _ => exact hsame
  | leave node =>
    simp only [State.visit]
    split <;> exact hsame

/-- The whole walk lays out the names that it meets. -/
theorem State.LaysOut.foldl {s : State} {met : List String} (h : s.LaysOut met)
    (steps : List (Tree.Step Mark)) :
    (steps.foldl State.visit s).LaysOut (met ++ steps.filterMap metName?) := by
  induction steps generalizing s met with
  | nil =>
    rw [List.filterMap_nil, List.append_nil]
    exact h
  | cons step steps ih =>
    have hsplit : (step :: steps).filterMap metName? =
        (metName? step).toList ++ steps.filterMap metName? := by
      cases hstep : metName? step <;> simp [hstep]
    rw [List.foldl_cons, hsplit, ← List.append_assoc]
    exact ih (h.visit step)

/-- The walk through a tree lays out its names. -/
theorem State.walk_laysOut (ann : Annotations) (root : Tree Mark) :
    ((State.initial ann).walk [.enter none root]).LaysOut root.occurrences := by
  have hinitial : (State.initial ann).LaysOut [] := by
    refine ⟨fun name slot => ?_, rfl⟩
    simp [State.initial]
  have hwalk := hinitial.foldl root.tour
  rw [List.nil_append, filterMap_metName?_tour] at hwalk
  rw [State.walk_eq_foldl, List.flatMap_singleton]
  exact hwalk

end Resolve

/-- A layout that lists the names of a tree by first occurrence, with slots that the variables of
the tree carry. -/
structure Layout.IsFirstSeen (layout : Layout) (ann : Annotations) (root : Tree Mark) : Prop where
  /-- The names are listed in the order of their first occurrence, without repetition. -/
  names : layout.names.toList = root.occurrences.eraseDups
  /-- No name is listed twice. -/
  nodup : layout.names.toList.Nodup
  /-- There are as many slots as different names. -/
  count : layout.slotCount = root.occurrences.toFinset.card
  /-- The slot of a name and the name of a slot are inverse to each other. -/
  inverse : ∀ name slot, layout.slotOf? name = some slot ↔ layout.nameOf? slot = some name
  /-- The names that occur have slots, and no others do. -/
  slot_isSome : ∀ name, (layout.slotOf? name).isSome = true ↔ name ∈ root.occurrences
  /-- The slots below the count have names, and no others do. -/
  name_isSome : ∀ slot, (layout.nameOf? slot).isSome = true ↔ slot < layout.slotCount
  /-- Every variable carries the slot of its name. -/
  carried : ∀ m name, .var m name ∈ root.nodes →
    ann.slot? (.var m name) = layout.slotOf? name

/-- Resolution lays out the names of every tree by first occurrence, and the table of slots that
the walk builds says the same as the list of names. Nodes with one identity are one node, so that
they have one name; nothing else is asked of the tree. -/
theorem resolve_isFirstSeen (ann : Annotations) {root : Tree Mark}
    (hagree : Resolve.NamesAgree root.nodes) :
    (resolve ann root).1.IsFirstSeen (resolve ann root).2 root ∧
      ∀ name, ((Resolve.State.initial ann).walk [.enter none root]).slots[name]? =
        (resolve ann root).1.slotOf? name := by
  have hwalk := Resolve.State.walk_laysOut ann root
  have hfits := resolve_fits ann hagree
  have hnames : (resolve ann root).1.names.toList = root.occurrences.eraseDups := hwalk.names
  have hmem : ∀ name, name ∈ (resolve ann root).1.names.toList ↔ name ∈ root.occurrences := by
    intro name
    rw [hnames, List.mem_eraseDups]
  have hnodup : (resolve ann root).1.names.toList.Nodup := hwalk.tidy.nodup_names
  have htable : ∀ name, (resolve ann root).1.slotOf? name =
      ((Resolve.State.initial ann).walk [.enter none root]).slots[name]? :=
    Layout.slotOf?_of_isTidy hwalk.tidy _
  refine ⟨⟨hnames, hnodup, ?_, hfits.oneToOne, fun name => ?_, fun slot => ?_, ?_⟩,
    fun name => (htable name).symm⟩
  · have hset : root.occurrences.toFinset = (resolve ann root).1.names.toList.toFinset := by
      ext name
      rw [List.mem_toFinset, List.mem_toFinset, hmem]
    rw [hset, List.toFinset_card_of_nodup hnodup]
    rfl
  · have hslot := hwalk.tidy.mem_names_iff name
    rw [htable, Option.isSome_iff_exists, ← hmem name]
    exact hslot.symm
  · simp [Layout.nameOf?, Layout.slotCount]
  · intro m name hm
    obtain ⟨slot, hann, hslot⟩ := hfits.slot m name hm
    rw [hann, hslot]

/-- A block in which a name is met first inside another block; the variable of that name is one
node that stands in both blocks. -/
def lateAndEarly : Tree Mark :=
  .block ⟨0, none⟩
    [.block ⟨1, none⟩
      [.sequence ⟨2, none⟩ (.assign ⟨3, none⟩ (.var ⟨4, none⟩ "late") (.input ⟨5, none⟩)) none],
      .sequence ⟨6, none⟩
        (.assign ⟨7, none⟩ (.var ⟨8, none⟩ "early") (.var ⟨4, none⟩ "late")) none]

/-- The name that is met first in the inner block gets the first slot, and both variables carry the
slots of their names. -/
theorem resolve_isFirstSeen_shared :
    Resolve.NamesAgree lateAndEarly.nodes ∧
      (resolve .empty lateAndEarly).1.names.toList = ["late", "early"] ∧
      (resolve .empty lateAndEarly).2.slot? (.var ⟨4, none⟩ "late") = some 0 ∧
      (resolve .empty lateAndEarly).2.slot? (.var ⟨8, none⟩ "early") = some 1 := by
  have hagree : Resolve.NamesAgree lateAndEarly.nodes := by
    unfold Resolve.NamesAgree
    decide
  have hseen := (resolve_isFirstSeen .empty hagree).1
  have hnames : (resolve .empty lateAndEarly).1.names.toList = ["late", "early"] := by
    rw [hseen.names]
    decide
  have hslot : ∀ (slot : Nat) (name : String), ["late", "early"][slot]? = some name →
      (resolve .empty lateAndEarly).1.slotOf? name = some slot := by
    intro slot name hname
    rw [hseen.inverse, Layout.nameOf?, ← Array.getElem?_toList, hnames, hname]
  have hlate : .var ⟨4, none⟩ "late" ∈ lateAndEarly.nodes := List.mem_iff_getElem?.2 ⟨4, rfl⟩
  have hearly : .var ⟨8, none⟩ "early" ∈ lateAndEarly.nodes := List.mem_iff_getElem?.2 ⟨8, rfl⟩
  refine ⟨hagree, hnames, ?_, ?_⟩
  · rw [hseen.carried _ _ hlate, hslot 0 "late" rfl]
  · rw [hseen.carried _ _ hearly, hslot 1 "early" rfl]

end IntScript
