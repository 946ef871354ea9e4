import IntScript.Proofs.Tree.Nodes
import IntScript.Resolve

/-!
# The structure of resolved trees

Two trees have the same structure if they differ only in the marks of their nodes. For a resolved
tree, what is known about a node belongs to its structure as well: the slot of a variable and the
number of a block. So the structure of a resolved tree is that tree with this knowledge in the place
of its marks, and trees have the same structure if these are equal.
-/

namespace IntScript

/-- What is known about a node of a resolved tree. -/
structure Note where
  /-- The slot, if the node is a variable that has one. -/
  slot : Option Nat
  /-- The number, if the node is a block that has one. -/
  number : Option BlockNumber
deriving DecidableEq

namespace Tree

variable {α β : Type}

mutual

/-- The tree whose nodes are labelled by a function of the whole node. -/
@[simp]
def annotate (f : Tree α → β) : Tree α → Tree β
  | .literal a v => .literal (f (.literal a v)) v
  | .input a => .input (f (.input a))
  | .var a name => .var (f (.var a name)) name
  | .binary a op l r => .binary (f (.binary a op l r)) op (annotate f l) (annotate f r)
  | .unary a op t => .unary (f (.unary a op t)) op (annotate f t)
  | .assign a t v => .assign (f (.assign a t v)) (annotate f t) (annotate f v)
  | .sequence a c none => .sequence (f (.sequence a c none)) (annotate f c) none
  | .sequence a c (some r) =>
    .sequence (f (.sequence a c (some r))) (annotate f c) (some (annotate f r))
  | .block a ts => .block (f (.block a ts)) (annotateAll f ts)
  | .condition a t => .condition (f (.condition a t)) (annotate f t)
  | .ifElse a c t none => .ifElse (f (.ifElse a c t none)) (annotate f c) (annotate f t) none
  | .ifElse a c t (some e) =>
    .ifElse (f (.ifElse a c t (some e))) (annotate f c) (annotate f t) (some (annotate f e))
  | .whileLoop a c b => .whileLoop (f (.whileLoop a c b)) (annotate f c) (annotate f b)
  | .print a t => .print (f (.print a t)) (annotate f t)

/-- The statements of a block with their nodes labelled. -/
@[simp]
def annotateAll (f : Tree α → β) : List (Tree α) → List (Tree β)
  | [] => []
  | t :: ts => annotate f t :: annotateAll f ts

end

/-- What is known about a node. -/
def note (ann : Annotations) : Tree Mark → Note
  | .var m name => ⟨ann.slot? (.var m name), none⟩
  | .block m ts => ⟨none, ann.block? (.block m ts)⟩
  | _ => ⟨none, none⟩

/-- The structure of a tree with the slots of its variables. -/
def withSlots (ann : Annotations) (t : Tree Mark) : Tree (Option Nat) :=
  t.annotate fun n => (n.note ann).slot

/-- The structure of a tree with the slots of its variables and the numbers of its blocks. -/
def withNotes (ann : Annotations) (t : Tree Mark) : Tree Note := t.annotate (note ann)

/-- Statements are labelled one by one. -/
theorem annotateAll_eq_map (f : Tree α → β) (ts : List (Tree α)) :
    annotateAll f ts = ts.map (annotate f) := by
  induction ts with
  | nil => rfl
  | cons t ts ih => rw [annotateAll, ih, List.map_cons]

/-- Labels do not change the kind of a node. -/
theorem kind_annotate (f : Tree α → β) (t : Tree α) : (t.annotate f).kind = t.kind := by
  cases t with
  | sequence a c rest => cases rest <;> rfl
  | ifElse a c t e => cases e <;> rfl
  | _ => rfl

end Tree
end IntScript
