import IntScript.Proofs.Resolve.Slots
import IntScript.Proofs.Tree.Visits
import Mathlib.Logic.Function.Basic

/-!
# What resolution writes

The walk of a resolution writes to three tables of annotations. It never looks at them: what it
writes depends on the kinds, names and identities of the nodes that it meets. A table is written to
when nodes of some kinds are entered, or when they are left. The log of a resolution lists the
entries of a table in the order in which they are written, so that the last entry for a node wins
and nodes without an entry keep what was known about them.
-/

namespace IntScript

open IntScript.Tree (Step)

namespace Resolve

/-- The state of a walk without what is known about nodes. -/
def State.bare (s : State) : State := { s with annotations := .empty }

/-- The slot that a variable with the given name gets. -/
def State.slotFor (s : State) (name : String) : Nat := s.slots[name]?.getD s.names.size

/-- A block can be left if it has been entered. -/
def State.Ready (s : State) : Step Mark → Prop
  | .enter _ _ => True
  | .leave node => node.kind = .block → s.openBlocks ≠ []

/-- Steps none of which leaves a block that has not been entered. -/
def State.Proceeds (s : State) : List (Step Mark) → Prop
  | [] => True
  | step :: steps => s.Ready step ∧ (s.visit step).Proceeds steps

/-- Two steps do the same with nodes of the same kinds and names, where `f` takes the identities of
the nodes of the first one to those of the second one. -/
inductive Alike (f : Nat → Nat) : Step Mark → Step Mark → Prop
  | enter {parent parent' : Option (Role × Mark)} {node node' : Tree Mark}
      (hparent : parent'.map (fun p => p.2.id) = (parent.map fun p => p.2.id).map f)
      (hid : node'.id = f node.id) (hkind : node'.kind = node.kind)
      (hname : node'.name? = node.name?) : Alike f (.enter parent node) (.enter parent' node')
  | leave {node node' : Tree Mark} (hid : node'.id = f node.id) (hkind : node'.kind = node.kind) :
      Alike f (.leave node) (.leave node')

/-- What a step does when it enters a node. -/
theorem State.visit_enter (s : State) (parent : Option (Role × Mark)) (node : Tree Mark) :
    s.visit (.enter parent node) =
      match node.name? with
      | some name => (s.withParent parent node).assignSlot node name
      | none =>
        if node.kind = .block then
          { s.withParent parent node with
            openBlocks := s.nextBlock :: s.openBlocks, nextBlock := s.nextBlock + 1 }
        else s.withParent parent node := by
  cases node <;> rfl

/-- What a step does when it leaves a node. -/
theorem State.visit_leave (s : State) (node : Tree Mark) :
    s.visit (.leave node) =
      match s.openBlocks with
      | [] => s
      | id :: outer =>
        if node.kind = .block then
          { s with
            annotations := { s.annotations with
              blocks := s.annotations.blocks.insert node.id ⟨id, s.finished⟩ }
            openBlocks := outer
            finished := s.finished + 1 }
        else s := by
  cases hopen : s.openBlocks <;> cases node <;> simp [State.visit, Tree.kind, hopen]

/-- A variable gets the slot of its name. -/
theorem State.assignSlot_eq (s : State) (t : Tree Mark) (name : String) :
    (s.assignSlot t name).annotations =
      { s.annotations with slots := s.annotations.slots.insert t.id (s.slotFor name) } := by
  unfold assignSlot slotFor
  cases s.slots[name]? <;> rfl

/-- Steps that do the same keep walks in the same state, but for what is known about nodes. -/
theorem Alike.visit {f : Nat → Nat} {step step' : Step Mark} (h : Alike f step step')
    {s s' : State} (hs : s.bare = s'.bare) : (s.visit step).bare = (s'.visit step').bare := by
  obtain ⟨ann, slots, names, openBlocks, nextBlock, finished⟩ := s
  obtain ⟨ann', slots', names', openBlocks', nextBlock', finished'⟩ := s'
  cases hs
  cases h with
  | enter _ _ hkind hname =>
    rw [State.visit_enter, State.visit_enter, hname, hkind]
    split
    · simp only [State.assignSlot, State.withParent]
      split <;> rfl
    · split <;> rfl
  | leave _ hkind =>
    rw [State.visit_leave, State.visit_leave, hkind]
    dsimp only
    split
    · rfl
    · split <;> rfl

/-- A step does the same as itself. -/
theorem Alike.refl (step : Step Mark) : Alike (fun i => i) step step := by
  cases step with
  | enter parent node => exact .enter Option.map_id'.symm rfl rfl rfl
  | leave node => exact .leave rfl rfl

/-- Steps that differ in the identities of nodes only do the same. -/
theorem Alike.of_relabel {f : Nat → Nat} {step step' : Step Mark}
    (h : (step.relabel fun m => f m.id) = step'.relabel Mark.id) : Alike f step step' := by
  have hnode : ∀ {node node' : Tree Mark}, (node.relabel fun m => f m.id) = node'.relabel Mark.id →
      node'.id = f node.id ∧ node'.kind = node.kind ∧ node'.name? = node.name? := by
    intro node node' heq
    refine ⟨?_, ?_, ?_⟩
    · have hlabel := congrArg Tree.label heq
      rw [Tree.label_relabel, Tree.label_relabel] at hlabel
      exact hlabel.symm
    · rw [← Tree.kind_relabel Mark.id, ← heq, Tree.kind_relabel]
    · rw [← Tree.name?_relabel Mark.id, ← heq, Tree.name?_relabel]
  cases step with
  | enter parent node =>
    cases step' with
    | leave node' => cases h
    | enter parent' node' =>
      simp only [Tree.Step.relabel, Tree.Step.enter.injEq] at h
      obtain ⟨hid, hkind, hname⟩ := hnode h.2
      refine .enter ?_ hid hkind hname
      have hparent := congrArg (Option.map Prod.snd) h.1
      simp only [Option.map_map] at hparent ⊢
      exact hparent.symm
  | leave node =>
    cases step' with
    | enter parent' node' => cases h
    | leave node' =>
      simp only [Tree.Step.relabel, Tree.Step.leave.injEq] at h
      obtain ⟨hid, hkind, -⟩ := hnode h
      exact .leave hid hkind

/-- Steps one after the other. -/
theorem State.proceeds_append {s : State} {steps steps' : List (Step Mark)} :
    s.Proceeds (steps ++ steps') ↔
      s.Proceeds steps ∧ (steps.foldl State.visit s).Proceeds steps' := by
  induction steps generalizing s with
  | nil => simp [State.Proceeds]
  | cons step steps ih =>
    rw [List.cons_append, Proceeds, Proceeds, ih, and_assoc]
    rfl

/-- A block is open from when it is entered. -/
theorem State.openBlocks_enter (s : State) (parent : Option (Role × Mark)) (node : Tree Mark) :
    (s.visit (.enter parent node)).openBlocks =
      if node.kind = .block then s.nextBlock :: s.openBlocks else s.openBlocks := by
  cases node with
  | var m name =>
    simp only [State.visit, State.assignSlot]
    split <;> rfl
  | _ => rfl

/-- The innermost block is open up to when it is left. -/
theorem State.openBlocks_leave (s : State) (node : Tree Mark) :
    (s.visit (.leave node)).openBlocks =
      if node.kind = .block then s.openBlocks.tail else s.openBlocks := by
  rw [State.visit_leave]
  cases hopen : s.openBlocks with
  | nil =>
    dsimp only
    rw [hopen, List.tail_nil, ite_self]
  | cons b outer =>
    dsimp only
    split
    · rfl
    · exact hopen

/-- A tour leaves the blocks that it enters, and no others. -/
theorem State.proceeds_tourFrom (s : State) (parent : Option (Role × Mark)) (t : Tree Mark) :
    s.Proceeds (t.tourFrom parent) ∧
      ((t.tourFrom parent).foldl State.visit s).openBlocks = s.openBlocks := by
  induction t using Tree.induction_on_children generalizing s parent with
  | step t ih =>
    have hchildren : ∀ (cs : List (Role × Tree Mark)), (∀ c ∈ cs, c ∈ t.children) → ∀ s : State,
        s.Proceeds (cs.flatMap fun c => c.2.tourFrom (some (c.1, t.label))) ∧
          ((cs.flatMap fun c => c.2.tourFrom (some (c.1, t.label))).foldl
            State.visit s).openBlocks = s.openBlocks := by
      intro cs
      induction cs with
      | nil => exact fun _ s => ⟨trivial, rfl⟩
      | cons c cs ihcs =>
        intro hcs s
        obtain ⟨hfirst, hopen⟩ := ih c (hcs c List.mem_cons_self) s (some (c.1, t.label))
        obtain ⟨hrest, hopen'⟩ := ihcs (fun c hc => hcs c (List.mem_cons_of_mem _ hc))
          ((c.2.tourFrom (some (c.1, t.label))).foldl State.visit s)
        rw [List.flatMap_cons, State.proceeds_append, List.foldl_append]
        exact ⟨⟨hfirst, hrest⟩, hopen'.trans hopen⟩
    obtain ⟨hinside, hopen⟩ := hchildren t.children (fun c hc => hc) (s.visit (.enter parent t))
    rw [Tree.tourFrom_eq, List.foldl_cons, List.foldl_append, State.Proceeds,
      State.proceeds_append]
    rw [State.openBlocks_enter] at hopen
    refine ⟨⟨trivial, hinside, fun hblock => ?_, trivial⟩, ?_⟩
    · rw [hopen, if_pos hblock]
      exact List.cons_ne_nil _ _
    · rw [List.foldl_cons, List.foldl_nil, State.openBlocks_leave, hopen]
      split <;> rfl

/-- A table of annotations as the walk writes it. -/
structure Table (β : Type) where
  /-- The table as a function of identities. -/
  look : Annotations → Nat → Option β
  /-- Whether the walk writes to the table when it leaves nodes, rather than when it enters them. -/
  leaving : Bool
  /-- The kinds of nodes that have entries in the table. -/
  applies : Kind → Bool
  /-- What a step writes into the table, where nothing stands for no entry. -/
  value : State → Step Mark → Option β
  /-- How entries change with the identities of nodes. -/
  carry : (Nat → Nat) → β → β

namespace Table

variable {β : Type} (T : Table β)

/-- The node that a step may write an entry for. -/
def visited? (step : Step Mark) : Option (Tree Mark) :=
  if T.leaving then step.left? else step.entered?

/-- The entry that a step writes. -/
def entry (s : State) (step : Step Mark) : Option (Nat × Option β) :=
  ((T.visited? step).filter (T.applies ·.kind)).map fun node => (node.id, T.value s step)

/-- The entries that steps write one after the other. -/
def entries (s : State) : List (Step Mark) → List (Nat × Option β)
  | [] => []
  | step :: steps => (T.entry s step).toList ++ entries (s.visit step) steps

/-- A table with one more entry. -/
def put (table : Nat → Option β) (entry : Nat × Option β) : Nat → Option β :=
  Function.update table entry.1 entry.2

/-- The walk writes to the table what it should, and what it writes depends neither on the tables
nor on anything of the nodes but their kinds, names and identities. -/
structure IsWritten : Prop where
  /-- There are no entries at first. -/
  look_empty : ∀ k, T.look .empty k = none
  /-- Every step writes its entry. -/
  look_visit : ∀ s step, s.Ready step →
    T.look (s.visit step).annotations = (T.entry s step).toList.foldl put (T.look s.annotations)
  /-- Steps that do the same write the same. -/
  value_alike : ∀ f step step', Alike f step step' → ∀ s s' : State, s.bare = s'.bare →
    T.value s' step' = (T.value s step).map (T.carry f)
  /-- Entries only change with identities. -/
  carry_same : T.carry (fun i => i) = fun x => x

end Table

/-- The table of parents. -/
def Table.parents : Table Nat where
  look ann k := ann.parents[k]?
  leaving := false
  applies _ := true
  value
    | _, .enter parent _ => parent.map fun p => p.2.id
    | _, .leave _ => none
  carry f := f

/-- The table of slots. -/
def Table.slots : Table Nat where
  look ann k := ann.slots[k]?
  leaving := false
  applies kind := kind == .var
  value
    | s, .enter _ node => node.name?.map s.slotFor
    | _, .leave _ => none
  carry _ slot := slot

/-- The table of block numbers. -/
def Table.blocks : Table BlockNumber where
  look ann k := ann.blocks[k]?
  leaving := true
  applies kind := kind == .block
  value s _ := some ⟨s.openBlocks.headD 0, s.finished⟩
  carry _ number := number

namespace Table

/-- A new entry of a map replaces the one with its key. -/
theorem look_insert {β : Type} (map : Std.HashMap Nat β) (i : Nat) (x : β) :
    (fun k => (map.insert i x)[k]?) = Function.update (fun k => map[k]?) i (some x) := by
  funext k
  rw [Std.HashMap.getElem?_insert, Function.update_apply]
  by_cases h : k = i
  · simp [h]
  · simp [h, Ne.symm h]

/-- A map without a key has no entry for it. -/
theorem look_erase {β : Type} (map : Std.HashMap Nat β) (i : Nat) :
    (fun k => (map.erase i)[k]?) = Function.update (fun k => map[k]?) i none := by
  funext k
  rw [Std.HashMap.getElem?_erase, Function.update_apply]
  by_cases h : k = i
  · simp [h]
  · simp [h, Ne.symm h]

/-- A step that enters a node notes its parent, and the slot of a variable. -/
theorem annotations_enter (s : State) (parent : Option (Role × Mark)) (node : Tree Mark) :
    (s.visit (.enter parent node)).annotations =
      { s.annotations.setParent node (parent.map fun p => p.2.id) with
        slots := match node.name? with
          | some name => s.annotations.slots.insert node.id (s.slotFor name)
          | none => s.annotations.slots } := by
  rw [State.visit_enter]
  cases node.name? with
  | some name =>
    dsimp only
    rw [State.assignSlot_eq, State.withParent_slots]
    rfl
  | none =>
    dsimp only
    rw [← s.withParent_slots parent node]
    split <;> rfl

/-- A step that leaves a node writes to the table of block numbers only. -/
theorem annotations_leave (s : State) (node : Tree Mark) :
    (s.visit (.leave node)).annotations =
      { s.annotations with blocks := (s.visit (.leave node)).annotations.blocks } := by
  rw [State.visit_leave]
  split
  · rfl
  · split <;> rfl

/-- The table of parents is written when nodes are entered. -/
theorem parents_isWritten : parents.IsWritten where
  look_empty k := by simp [parents, Annotations.empty]
  look_visit s step _ := by
    cases step with
    | enter parent node =>
      change (fun k => (s.visit (.enter parent node)).annotations.parents[k]?) =
        Function.update (fun k => s.annotations.parents[k]?) node.id (parent.map fun p => p.2.id)
      rw [annotations_enter]
      cases parent with
      | some p => exact look_insert _ _ _
      | none => exact look_erase _ _
    | leave node =>
      change (fun k => (s.visit (.leave node)).annotations.parents[k]?) =
        fun k => s.annotations.parents[k]?
      rw [annotations_leave]
  value_alike f step step' h s s' _ := by
    cases h with
    | enter hparent _ _ _ => exact hparent
    | leave _ _ => rfl
  carry_same := rfl

/-- The table of slots is written when variables are entered. -/
theorem slots_isWritten : slots.IsWritten where
  look_empty k := by simp [slots, Annotations.empty]
  look_visit s step _ := by
    cases step with
    | enter parent node =>
      have hslots := congrArg Annotations.slots (annotations_enter s parent node)
      change (fun k => (s.visit (.enter parent node)).annotations.slots[k]?) =
        (slots.entry s (.enter parent node)).toList.foldl put fun k => s.annotations.slots[k]?
      rw [hslots]
      cases node with
      | var m name => exact look_insert _ _ _
      | _ => rfl
    | leave node =>
      change (fun k => (s.visit (.leave node)).annotations.slots[k]?) =
        fun k => s.annotations.slots[k]?
      rw [annotations_leave]
  value_alike f step step' h s s' hs := by
    have hslotFor : s'.slotFor = s.slotFor := by
      change s'.bare.slotFor = s.bare.slotFor
      rw [hs]
    cases h with
    | @enter _ _ node node' _ _ _ hname =>
      change node'.name?.map s'.slotFor = (node.name?.map s.slotFor).map fun slot => slot
      rw [hname, hslotFor, Option.map_id']
    | leave _ _ => rfl
  carry_same := rfl

/-- The table of block numbers is written when blocks are left. -/
theorem blocks_isWritten : blocks.IsWritten where
  look_empty k := by simp [blocks, Annotations.empty]
  look_visit s step hready := by
    cases step with
    | enter parent node =>
      have hblocks := congrArg Annotations.blocks (annotations_enter s parent node)
      change (fun k => (s.visit (.enter parent node)).annotations.blocks[k]?) =
        fun k => s.annotations.blocks[k]?
      rw [hblocks]
      cases parent <;> rfl
    | leave node =>
      change (fun k => (s.visit (.leave node)).annotations.blocks[k]?) =
        (blocks.entry s (.leave node)).toList.foldl put fun k => s.annotations.blocks[k]?
      rw [State.visit_leave]
      by_cases hblock : node.kind = .block
      · obtain ⟨b, outer, hopen⟩ := List.exists_cons_of_ne_nil (hready hblock)
        have hentry : blocks.entry s (.leave node) = some (node.id, some ⟨b, s.finished⟩) := by
          simp [entry, visited?, blocks, Tree.Step.left?, hblock, hopen]
        rw [hentry, hopen]
        dsimp only
        rw [if_pos hblock]
        exact look_insert _ _ _
      · have hentry : blocks.entry s (.leave node) = none := by
          simp [entry, visited?, blocks, Tree.Step.left?, hblock]
        rw [hentry]
        split
        · rfl
        · rw [if_neg hblock]
          rfl
  value_alike f step step' _ s s' hs := by
    change blocks.value s'.bare step' = (blocks.value s.bare step).map fun number => number
    rw [hs]
    rfl
  carry_same := rfl

variable {β : Type} {T : Table β}

/-- The identities of the entries that steps write. -/
theorem entries_keys (T : Table β) (s : State) (steps : List (Step Mark)) :
    (T.entries s steps).map Prod.fst =
      ((steps.filterMap T.visited?).filter (T.applies ·.kind)).map Tree.id := by
  induction steps generalizing s with
  | nil => rfl
  | cons step steps ih =>
    rw [entries, List.map_append, ih, entry]
    cases hstep : T.visited? step with
    | none => simp [hstep]
    | some node =>
      rw [List.filterMap_cons_some hstep]
      cases hkind : T.applies node.kind <;> simp [Option.filter_some, hkind]

/-- The table after some steps. -/
theorem IsWritten.look_foldl (hT : T.IsWritten) {s : State} {steps : List (Step Mark)}
    (h : s.Proceeds steps) :
    T.look (steps.foldl State.visit s).annotations =
      (T.entries s steps).foldl put (T.look s.annotations) := by
  induction steps generalizing s with
  | nil => rfl
  | cons step steps ih =>
    rw [List.foldl_cons, ih h.2, entries, List.foldl_append, hT.look_visit s step h.1]

/-- Steps that do the same write the same entry. -/
theorem IsWritten.entry_alike (hT : T.IsWritten) {f : Nat → Nat} {step step' : Step Mark}
    (h : Alike f step step') {s s' : State} (hs : s.bare = s'.bare) :
    T.entry s' step' = (T.entry s step).map fun e => (f e.1, e.2.map (T.carry f)) := by
  have hvalue := hT.value_alike f step step' h s s' hs
  have hentry : ∀ {node node' : Tree Mark}, node'.id = f node.id → node'.kind = node.kind →
      ((some node').filter (T.applies ·.kind)).map (fun node => (node.id, T.value s' step')) =
        (((some node).filter (T.applies ·.kind)).map
          fun node => (node.id, T.value s step)).map fun e => (f e.1, e.2.map (T.carry f)) := by
    intro node node' hid hkind
    rw [Option.filter_some, Option.filter_some, hkind, hvalue]
    cases T.applies node.kind <;> simp [hid]
  unfold entry visited?
  cases h with
  | enter _ hid hkind _ =>
    cases T.leaving with
    | true => rfl
    | false => exact hentry hid hkind
  | leave hid hkind =>
    cases T.leaving with
    | true => exact hentry hid hkind
    | false => rfl

/-- Steps that do the same write the same entries one after the other. -/
theorem IsWritten.entries_alike (hT : T.IsWritten) {f : Nat → Nat} {steps steps' : List (Step Mark)}
    (h : List.Forall₂ (Alike f) steps steps') {s s' : State} (hs : s.bare = s'.bare) :
    T.entries s' steps' =
      (T.entries s steps).map fun e => (f e.1, e.2.map (T.carry f)) := by
  induction h generalizing s s' with
  | nil => rfl
  | @cons step step' steps steps' hstep _ ih =>
    rw [entries, entries, List.map_append, ih (hstep.visit hs), hT.entry_alike hstep hs]
    cases T.entry s step <;> rfl

/-- Entries for other nodes leave the entry of a node as it is. -/
theorem foldl_put_of_notMem {log : List (Nat × Option β)} {k : Nat} (h : k ∉ log.map Prod.fst)
    (table : Nat → Option β) : log.foldl put table k = table k := by
  induction log generalizing table with
  | nil => rfl
  | cons e log ih =>
    rw [List.map_cons, List.mem_cons, not_or] at h
    rw [List.foldl_cons, ih h.2, put, Function.update_of_ne h.1]

/-- The last entry for a node wins. -/
theorem foldl_put_append_cons {log log' : List (Nat × Option β)} {k : Nat} {x : Option β}
    (h : k ∉ log'.map Prod.fst) (table : Nat → Option β) :
    (log ++ (k, x) :: log').foldl put table k = x := by
  rw [List.foldl_append, List.foldl_cons, foldl_put_of_notMem h, put, Function.update_self]

/-- Where there is an entry for a node, it does not matter what was known before. -/
theorem foldl_put_of_mem {log : List (Nat × Option β)} {k : Nat} (h : k ∈ log.map Prod.fst)
    (table table' : Nat → Option β) : log.foldl put table k = log.foldl put table' k := by
  induction log generalizing table table' with
  | nil => cases h
  | cons e log ih =>
    by_cases hlater : k ∈ log.map Prod.fst
    · exact ih hlater _ _
    · have hk : k = e.1 := (List.mem_cons.1 h).resolve_right hlater
      rw [List.foldl_cons, List.foldl_cons, foldl_put_of_notMem hlater, foldl_put_of_notMem hlater,
        put, put, hk, Function.update_self, Function.update_self]

/-- What a resolution writes, from the first entry to the last one. -/
def log (T : Table β) (root : Tree Mark) : List (Nat × Option β) :=
  T.entries (.initial .empty) root.tour

/-- A resolution writes its log, whatever was known before. -/
theorem IsWritten.look_resolve (hT : T.IsWritten) (ann : Annotations) (root : Tree Mark) :
    T.look (resolve ann root).2 = (T.log root).foldl put (T.look ann) := by
  have hsame : T.entries (.initial ann) root.tour = T.log root := by
    have halike : List.Forall₂ (Alike fun i => i) root.tour root.tour :=
      List.forall₂_same.2 fun step _ => .refl step
    have hbare : (State.initial .empty).bare = (State.initial ann).bare := rfl
    rw [hT.entries_alike halike hbare, hT.carry_same]
    simp [log]
  have hproceeds : (State.initial ann).Proceeds root.tour :=
    (State.proceeds_tourFrom _ none root).1
  rw [resolve_eq_tour, ← hsame]
  exact hT.look_foldl hproceeds

/-- The walk comes to every node when it writes to a table. -/
theorem visited_perm (T : Table β) (root : Tree Mark) :
    (root.tour.filterMap T.visited?).Perm root.nodes := by
  unfold visited?
  cases T.leaving with
  | true => exact Tree.left_perm_nodes none root
  | false =>
    rw [Tree.nodes_eq_entered]
    exact .refl _

/-- The nodes that have entries in a log. -/
theorem mem_log {root : Tree Mark} {k : Nat} :
    k ∈ (T.log root).map Prod.fst ↔ ∃ n ∈ root.nodes, T.applies n.kind = true ∧ n.id = k := by
  have hmem : ∀ n, n ∈ root.tour.filterMap T.visited? ↔ n ∈ root.nodes :=
    fun n => (T.visited_perm root).mem_iff
  rw [log, entries_keys]
  simp only [List.mem_map, List.mem_filter, hmem, and_assoc]

end Table

end Resolve
end IntScript
