import IntScript.Proofs.Eval.Keeping
import IntScript.Proofs.Resolve.Slots

/-!
# Resolution covers evaluation

Resolution walks through all children of all nodes and evaluation goes its own way through them.
Wherever evaluation goes, the variables that it meets have been given slots, and all slots that
have been given are on a stack of the size that resolution asks for. This needs no condition on the
tree: nodes may be shared, and the tree may be one that no program denotes.
-/

namespace IntScript

namespace Resolve

/-- The variable with the given identity has a slot, and the slot is one of those given to names. -/
def State.Seats (s : State) (id : Nat) : Prop :=
  ∃ slot, s.annotations.slots[id]? = some slot ∧ slot < s.names.size

variable {s : State}

/-- A variable has a slot once it has been given one. -/
theorem State.IsTidy.seats_assignSlot (h : s.IsTidy) (t : Tree Mark) (name : String) :
    (s.assignSlot t name).Seats t.id := by
  unfold assignSlot
  split
  · next slot hslot =>
    obtain ⟨hlt, -⟩ := Array.getElem?_eq_some_iff.1 ((h name slot).1 hslot)
    exact ⟨slot, by simp, hlt⟩
  · exact ⟨s.names.size, by simp, by simp⟩

/-- No slot is taken away when names get slots. -/
theorem State.names_size_le_assignSlot (s : State) (t : Tree Mark) (name : String) :
    s.names.size ≤ (s.assignSlot t name).names.size := by
  unfold assignSlot
  split
  · exact Nat.le_refl _
  · simp

/-- A variable keeps having a slot when another one gets its slot. -/
theorem State.Seats.assignSlot {id : Nat} (hid : s.Seats id) (h : s.IsTidy) (t : Tree Mark)
    (name : String) : (s.assignSlot t name).Seats id := by
  by_cases heq : t.id = id
  · rw [← heq]
    exact h.seats_assignSlot t name
  · obtain ⟨slot, hslot, hlt⟩ := hid
    obtain ⟨new, hann, -⟩ := s.assignSlot_slot t name
    refine ⟨slot, ?_, Nat.lt_of_lt_of_le hlt (s.names_size_le_assignSlot t name)⟩
    rw [hann, Std.HashMap.getElem?_insert, if_neg (by simpa using heq)]
    exact hslot

/-- Parents and block numbers do not matter for slots. -/
theorem State.Seats.congr {s' : State} {id : Nat} (hid : s.Seats id)
    (hann : s'.annotations.slots = s.annotations.slots) (hnames : s'.names = s.names) :
    s'.Seats id := by
  obtain ⟨slot, hslot, hlt⟩ := hid
  exact ⟨slot, by rw [hann]; exact hslot, by rw [hnames]; exact hlt⟩

/-- Every step of the walk leaves variables their slots. -/
theorem State.Seats.visit {id : Nat} (hid : s.Seats id) (h : s.IsTidy) (step : Tree.Step Mark) :
    (s.visit step).Seats id := by
  cases step with
  | enter parent node =>
    have hparent : (s.withParent parent node).Seats id :=
      hid.congr (s.withParent_slots parent node) rfl
    cases node with
    | var m name => exact hparent.assignSlot h (.var m name) name
    | block a ts => exact hparent.congr rfl rfl
    | _ => exact hparent
  | leave node =>
    simp only [State.visit]
    split
    · exact hid.congr rfl rfl
    · exact hid

/-- The rest of the walk leaves variables their slots. -/
theorem State.Seats.foldl {id : Nat} (hid : s.Seats id) (h : s.IsTidy)
    (steps : List (Tree.Step Mark)) : (steps.foldl State.visit s).Seats id := by
  induction steps generalizing s with
  | nil => exact hid
  | cons step steps ih => exact ih (hid.visit h step) (h.visit step)

/-- The walk gives a slot to every variable that it enters. -/
theorem State.IsTidy.seats_foldl (h : s.IsTidy) {steps : List (Tree.Step Mark)} {m : Mark}
    {name : String} (hmem : .var m name ∈ steps.filterMap Tree.Step.entered?) :
    (steps.foldl State.visit s).Seats m.id := by
  induction steps generalizing s with
  | nil => cases hmem
  | cons step steps ih =>
    have hnext : (s.visit step).IsTidy := h.visit step
    rw [List.filterMap_cons] at hmem
    cases hstep : step.entered? with
    | none =>
      rw [hstep] at hmem
      exact ih hnext hmem
    | some node =>
      rw [hstep] at hmem
      rcases List.mem_cons.1 hmem with rfl | hmem
      · -- the variable is the node that is entered here, and no later step takes its slot away
        cases step with
        | leave node => cases hstep
        | enter parent node =>
          cases hstep
          have hparent : (s.withParent parent (.var m name)).IsTidy := h
          have hseat : (s.visit (.enter parent (.var m name))).Seats m.id :=
            hparent.seats_assignSlot (.var m name) name
          exact hseat.foldl hnext steps
      · exact ih hnext hmem

end Resolve

/-- Resolution gives every variable of a tree a slot that is counted. -/
theorem resolve_slot_lt (ann : Annotations) {root t : Tree Mark} (ht : t ∈ root.nodes)
    (hvar : t.name?.isSome = true) :
    ∃ slot, (resolve ann root).2.slot? t = some slot ∧ slot < (resolve ann root).1.slotCount := by
  have htidy : (Resolve.State.initial ann).IsTidy := by
    intro name slot
    simp [Resolve.State.initial]
  cases t with
  | var m name =>
    rw [Tree.nodes_eq_entered] at ht
    rw [resolve_eq_tour]
    exact htidy.seats_foldl ht
  | _ => cases hvar

namespace Stack

/-- A slot of a stack can be read. -/
theorem read_ne_error {s : Stack} {slot : Nat} (h : slot < s.size) (e : OutOfBounds) :
    s.read slot ≠ .error e := by
  rw [read, Array.getElem?_eq_getElem h]
  nofun

/-- A slot of a stack can be written. -/
theorem write_of_lt {s : Stack} {slot : Nat} (h : slot < s.size) (v : Value) :
    s.write slot v = .ok ⟨s.values.setIfInBounds slot v⟩ := by
  rw [write, if_pos h]

/-- Writing does not change the number of slots. -/
theorem size_of_write {s s' : Stack} {slot : Nat} {v : Value} (h : s.write slot v = .ok s') :
    s'.size = s.size := by
  unfold write at h
  split at h
  · cases h
    exact Array.size_setIfInBounds
  · cases h

end Stack

namespace Eval

/-- The nodes of a resolved tree have nothing to do with faults of slots, as long as the stack has
the size that resolution asks for. -/
theorem discipline_resolve (ann : Annotations) (root : Tree Mark) (limits : Limits)
    (located : Bool) (patience : Nat) :
    Discipline ⟨limits, (resolve ann root).2, located, patience⟩ root
      (fun m => m.stack.size = (resolve ann root).1.slotCount)
      (fun f => f.cause.isAccess = false) where
  stack := by
    intro m m' hstack hm
    rw [hstack]
    exact hm
  blame := fun t _ cause hcause => hcause
  slot := by
    intro t ht name hname hnone
    obtain ⟨slot, hslot, -⟩ := resolve_slot_lt ann ht (by rw [hname]; rfl)
    rw [hslot] at hnone
    cases hnone
  read := by
    intro t ht hvar slot hslot m hm e he
    obtain ⟨slot', hslot', hlt⟩ := resolve_slot_lt ann ht hvar
    rw [hslot] at hslot'
    cases hslot'
    exact absurd he (Stack.read_ne_error (by omega) e)
  write := by
    intro n hn t htarget hvar slot hslot m hm v
    have ht : t ∈ root.nodes := Tree.mem_nodes_of_target hn htarget
    obtain ⟨slot', hslot', hlt⟩ := resolve_slot_lt ann ht hvar
    rw [hslot] at hslot'
    cases hslot'
    refine ⟨fun stack hstack => (Stack.size_of_write hstack).trans hm, fun e he => ?_⟩
    rw [Stack.write_of_lt (by omega)] at he
    cases he

/-- Resolution covers everything that evaluation can touch. After a tree has been resolved, whatever
was known about its nodes before, a run from any of its nodes on a stack of the resolved size never
fails for want of a slot, neither because a variable has none nor because its slot is not on the
stack; and it leaves a stack of the same size. -/
theorem run_covered (ann : Annotations) {root node : Tree Mark} (hnode : node ∈ root.nodes)
    (limits : Limits) (located : Bool) (patience : Nat) {m : Machine}
    (hm : m.stack.size = (resolve ann root).1.slotCount) :
    let r := run ⟨limits, (resolve ann root).2, located, patience⟩ node m
    (∀ f name, r.1 = .failed f → f.cause ≠ .unresolved name) ∧
      (∀ f e, r.1 = .failed f → f.cause ≠ .outOfBounds e) ∧
      r.2.stack.size = (resolve ann root).1.slotCount := by
  intro r
  obtain ⟨hmeets, hsize⟩ :=
    (discipline_resolve ann root limits located patience).keeps_run hnode m hm
  have haccess : ∀ f, r.1 = .failed f → f.cause.isAccess = false := by
    intro f hf
    have hfault : r.1.Meets (fun f => f.cause.isAccess = false) (fun _ => True) := hmeets
    rw [hf] at hfault
    exact hfault
  refine ⟨fun f name hf hcause => ?_, fun f e hf hcause => ?_, hsize⟩
  · have hplain := haccess f hf
    rw [hcause] at hplain
    cases hplain
  · have hplain := haccess f hf
    rw [hcause] at hplain
    cases hplain

/-- A loop over a variable that is one node in three places. -/
def countToThree : Tree Mark :=
  .whileLoop ⟨4, none⟩ (.binary ⟨5, none⟩ .lt (.var ⟨1, none⟩ "x") (.literal ⟨6, none⟩ 3))
    (.assign ⟨7, none⟩ (.var ⟨1, none⟩ "x") (.unary ⟨8, none⟩ .increment (.var ⟨1, none⟩ "x")))

/-- The loop behind an assignment to a number, which no program denotes. -/
def afterNonsense : Tree Mark :=
  .block ⟨0, none⟩
    [.assign ⟨2, none⟩ (.literal ⟨3, none⟩ 5) (.var ⟨1, none⟩ "x"), countToThree]

/-- Both the loop on its own and the whole tree run on a fresh stack without a fault of slots; the
whole tree does fail, for another cause. -/
theorem run_covered_afterNonsense :
    let fresh : Machine :=
      ⟨.zeros (resolve .empty afterNonsense).1.slotCount, ⟨[], [], false⟩, {}, 0⟩
    let ctx : Context := ⟨{}, (resolve .empty afterNonsense).2, false, 10⟩
    countToThree ∈ afterNonsense.nodes ∧ afterNonsense ∈ afterNonsense.nodes ∧
      (∀ f name, (run ctx countToThree fresh).1 = .failed f → f.cause ≠ .unresolved name) ∧
      (∀ f e, (run ctx countToThree fresh).1 = .failed f → f.cause ≠ .outOfBounds e) ∧
      (∀ f name, (run ctx afterNonsense fresh).1 = .failed f → f.cause ≠ .unresolved name) ∧
      (run ctx afterNonsense fresh).1 = .failed ⟨.notAVariable "=", none⟩ := by
  intro fresh ctx
  have hloop : countToThree ∈ afterNonsense.nodes :=
    Tree.mem_nodes_trans (Tree.mem_nodes_self _) (by simp [afterNonsense, Tree.subtrees_block])
  have hsize : fresh.stack.size = (resolve .empty afterNonsense).1.slotCount := by
    simp [fresh, Stack.size, Stack.zeros]
  obtain ⟨hslot, hbounds, -⟩ := run_covered .empty hloop {} false 10 hsize
  obtain ⟨hslot', -, -⟩ := run_covered .empty (Tree.mem_nodes_self afterNonsense) {} false 10 hsize
  exact ⟨hloop, Tree.mem_nodes_self _, hslot, hbounds, hslot', rfl⟩

end Eval
end IntScript
