import IntScript.Tree.Numbered
import Std.Data.HashMap

/-!
# Resolution of names

Resolution walks through a tree once, with a list of pending steps in place of a recursion. It
gives every variable name a slot in the order in which names are first met, tells every node its
parent, and numbers the blocks: the id of a block counts the blocks as they are entered, from one,
and its order counts them as they are left, from zero.

What is found out about the nodes is kept in tables by node identity. A later resolution writes
over the entries of the nodes that it visits, and a node that is visited twice keeps what the last
visit says.
-/

namespace IntScript

/-- The numbering of a block. -/
structure BlockNumber where
  /-- The position of the block among the blocks as they are entered, from one. -/
  id : Nat
  /-- The position of the block among the blocks as they are left, from zero. -/
  order : Nat
deriving DecidableEq

/-- What is known about the nodes of a tree. -/
structure Annotations where
  /-- The slots of variables. -/
  slots : Std.HashMap Nat Nat
  /-- The parents of nodes. -/
  parents : Std.HashMap Nat Nat
  /-- The numbers of blocks. -/
  blocks : Std.HashMap Nat BlockNumber

namespace Annotations

/-- Nothing is known about any node. -/
def empty : Annotations := ⟨∅, ∅, ∅⟩

/-- The slot of a variable. -/
def slot? (ann : Annotations) (t : Tree Mark) : Option Nat := ann.slots[t.id]?

/-- The identity of the parent of a node. -/
def parent? (ann : Annotations) (t : Tree Mark) : Option Nat := ann.parents[t.id]?

/-- The number of a block. -/
def block? (ann : Annotations) (t : Tree Mark) : Option BlockNumber := ann.blocks[t.id]?

/-- The annotations with the parent of a node, or without it if the node is a root. -/
def setParent (ann : Annotations) (t : Tree Mark) (parent : Option Nat) : Annotations :=
  match parent with
  | some p => { ann with parents := ann.parents.insert t.id p }
  | none => { ann with parents := ann.parents.erase t.id }

end Annotations

/-- The slot layout of a resolved tree. -/
structure Layout where
  /-- The variable names in the order of their slots. -/
  names : Array String
  /-- The number of blocks. -/
  blockCount : Nat
deriving DecidableEq

namespace Layout

/-- The number of slots that a run needs. -/
def slotCount (layout : Layout) : Nat := layout.names.size

/-- The slot of a name. -/
def slotOf? (layout : Layout) (name : String) : Option Nat :=
  layout.names.toList.findIdx? (· == name)

/-- The name of a slot. -/
def nameOf? (layout : Layout) (slot : Nat) : Option String := layout.names[slot]?

end Layout

namespace Resolve

/-- The state of the walk. -/
structure State where
  /-- What is known about the nodes so far. -/
  annotations : Annotations
  /-- The slots of the names met so far. -/
  slots : Std.HashMap String Nat
  /-- The names met so far, by slot. -/
  names : Array String
  /-- The ids of the blocks that have been entered and not left, the innermost first. -/
  openBlocks : List Nat
  /-- The id of the next block. -/
  nextBlock : Nat
  /-- The number of blocks that have been left. -/
  finished : Nat

/-- The state before the first step. -/
def State.initial (ann : Annotations) : State := ⟨ann, ∅, #[], [], 1, 0⟩

/-- Gives a variable the slot of its name, which is the next free one for a new name. -/
def State.assignSlot (s : State) (t : Tree Mark) (name : String) : State :=
  match s.slots[name]? with
  | some slot =>
    { s with annotations := { s.annotations with
        slots := s.annotations.slots.insert t.id slot } }
  | none =>
    { s with
      annotations := { s.annotations with
        slots := s.annotations.slots.insert t.id s.names.size }
      slots := s.slots.insert name s.names.size
      names := s.names.push name }

/-- One step of the walk. -/
def State.visit (s : State) : Tree.Step Mark → State
  | .enter parent node =>
    let s := { s with
      annotations := s.annotations.setParent node (parent.map fun p => p.2.id) }
    match node with
    | .var _ name => s.assignSlot node name
    | .block .. =>
      { s with openBlocks := s.nextBlock :: s.openBlocks, nextBlock := s.nextBlock + 1 }
    | _ => s
  | .leave node =>
    match node, s.openBlocks with
    | .block .., id :: outer =>
      { s with
        annotations := { s.annotations with
          blocks := s.annotations.blocks.insert node.id ⟨id, s.finished⟩ }
        openBlocks := outer
        finished := s.finished + 1 }
    | _, _ => s

/-- Makes the pending steps. What a step opens comes before the steps that were pending. -/
def State.walk (s : State) : List (Tree.Step Mark) → State
  | [] => s
  | step :: pending => (s.visit step).walk (step.opens ++ pending)
termination_by pending => (pending.flatMap Tree.Step.tour).length
decreasing_by
  rw [List.flatMap_append, List.flatMap_cons, step.tour_eq]
  simp

end Resolve

/-- Resolves a tree: the annotations of its nodes are written over the given ones. -/
def resolve (ann : Annotations) (root : Tree Mark) : Layout × Annotations :=
  let s := (Resolve.State.initial ann).walk [.enter none root]
  (⟨s.names, s.finished⟩, s.annotations)

end IntScript
