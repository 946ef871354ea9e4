import IntScript.Proofs.Resolve.Coverage
import Mathlib.Data.List.Permutation

/-!
# What an evaluation leaves alone

An evaluation writes to the slots of the targets in its tree and to no others. This holds for every
tree, also for one that no program denotes, and for every end of the evaluation: a fault in the
middle of an expression has touched nothing but the targets that were written before it.
-/

namespace IntScript

/-- The slots of the variables of a tree that are targets of assignments or operands of `++` or
`--`. -/
def Tree.writtenSlots (ann : Annotations) (t : Tree Mark) : List Nat :=
  t.nodes.filterMap fun n => (n.target?.filter (·.name?.isSome)).bind ann.slot?

/-- The slot of a target is among those that a tree writes to. -/
theorem Tree.mem_writtenSlots {ann : Annotations} {root n t : Tree Mark} {slot : Nat}
    (hn : n ∈ root.nodes) (ht : n.target? = some t) (hvar : t.name?.isSome = true)
    (hslot : ann.slot? t = some slot) : slot ∈ root.writtenSlots ann := by
  refine List.mem_filterMap.2 ⟨n, hn, ?_⟩
  rw [ht, Option.filter_some, if_pos hvar]
  exact hslot

/-- Writing a slot leaves the other ones alone. -/
theorem Stack.read_of_write {s s' : Stack} {slot other : Nat} {v : Value}
    (h : s.write slot v = .ok s') (hne : slot ≠ other) : s'.read other = s.read other := by
  have hsize := Stack.size_of_write h
  unfold write at h
  split at h
  · cases h
    rw [read, read, hsize, Array.getElem?_setIfInBounds_ne hne]
  · cases h

namespace Eval

/-- The nodes of a tree write to the slots of its targets only. -/
theorem discipline_frame (ctx : Context) (root : Tree Mark) (start : Stack) :
    Discipline ctx root
      (fun m => m.stack.size = start.size ∧
        ∀ slot, slot ∉ root.writtenSlots ctx.annotations → m.stack.read slot = start.read slot)
      (fun _ => True) where
  stack := by
    intro m m' hstack hm
    rw [hstack]
    exact hm
  blame := fun _ _ _ _ => trivial
  slot := fun _ _ _ _ _ => trivial
  read := fun _ _ _ _ _ _ _ _ _ => trivial
  write := by
    rintro n hn t htarget hvar slot hslot m ⟨hsize, hread⟩ v
    refine ⟨fun stack hstack => ⟨?_, fun other hother => ?_⟩, fun _ _ => trivial⟩
    · exact (Stack.size_of_write hstack).trans hsize
    · have hne : slot ≠ other := by
        rintro rfl
        exact hother (Tree.mem_writtenSlots hn htarget hvar hslot)
      exact (Stack.read_of_write hstack hne).trans (hread other hother)

/-- An evaluation changes only what it writes to. Whatever the tree, the limits and the devices, and
however it ends, it leaves the number of slots as it was, and every slot that is not the slot of a
variable in the tree which is assigned to, incremented or decremented. -/
theorem run_frames (ctx : Context) (root : Tree Mark) (m : Machine) :
    (run ctx root m).2.stack.size = m.stack.size ∧
      ∀ slot, slot ∉ root.writtenSlots ctx.annotations →
        (run ctx root m).2.stack.read slot = m.stack.read slot :=
  ((discipline_frame ctx root m.stack).keeps_run root.mem_nodes_self m ⟨rfl, fun _ _ => rfl⟩).2

/-- An assignment to one variable and then, in the middle of an assignment to another one, an
increment of the first and a division by zero. -/
def faultyUpdate : Tree Mark :=
  .block ⟨0, none⟩
    [.assign ⟨1, none⟩ (.var ⟨2, none⟩ "x") (.var ⟨3, none⟩ "z"),
      .assign ⟨4, none⟩ (.var ⟨5, none⟩ "y")
        (.binary ⟨6, none⟩ .div (.unary ⟨7, none⟩ .increment (.var ⟨8, none⟩ "x"))
          (.literal ⟨9, none⟩ 0))]

/-- The context in which the slots of that tree are known. -/
def faultyContext : Context := ⟨{}, (resolve .empty faultyUpdate).2, false, 0⟩

/-- A machine with one slot more than that tree has variables. -/
def faultyStart : Machine := ⟨⟨#[4, 5, 6, 7]⟩, ⟨[], [], false⟩, {}, 0⟩

/-- The division fails after `x` has been written twice and before `y` is written. The variable `z`
and the slot behind the variables of the tree keep their values. -/
theorem run_frames_faultyUpdate :
    faultyUpdate.writtenSlots faultyContext.annotations = [0, 2, 0] ∧
      (run faultyContext faultyUpdate faultyStart).1 =
        .failed ⟨.arithmetic .divisionByZero, none⟩ ∧
      (run faultyContext faultyUpdate faultyStart).2.stack.values = #[6, 5, 6, 7] ∧
      (run faultyContext faultyUpdate faultyStart).2.stack.read 1 = faultyStart.stack.read 1 ∧
      (run faultyContext faultyUpdate faultyStart).2.stack.read 3 = faultyStart.stack.read 3 := by
  have hwritten : faultyUpdate.writtenSlots faultyContext.annotations = [0, 2, 0] := by cbv
  have hframe := (run_frames faultyContext faultyUpdate faultyStart).2
  rw [hwritten] at hframe
  exact ⟨hwritten, by cbv, by cbv, hframe 1 (by decide), hframe 3 (by decide)⟩

end Eval
end IntScript
