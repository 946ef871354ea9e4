import IntScript.Tree.Listing

/-!
# Tree dumps

A tree is dumped as a directed graph in the DOT language. Every node has a record line with its
caption, followed directly by one line for each edge to a child; nodes stand in pre-order. A node
that is used twice is written at each visit under one name.

A dump is written without recursion, from a pile of pending nodes. The node on top is written, and
its children are put on the pile in its place. Any names can be given to the nodes; by default they
are called `n0`, `n1` and so on in the order in which their names first appear in the dump.
-/

namespace IntScript

namespace Tree

variable {α : Type} [SizeOf α]

/-- The size of some trees together, as a measure for recursions. -/
noncomputable def totalSize : List (Tree α) → Nat
  | [] => 0
  | t :: ts => sizeOf t + totalSize ts

/-- Trees behind others add their size. -/
theorem totalSize_append (ts us : List (Tree α)) :
    totalSize (ts ++ us) = totalSize ts + totalSize us := by
  induction ts with
  | nil => exact (Nat.zero_add _).symm
  | cons t ts ih => rw [List.cons_append, totalSize, totalSize, ih, Nat.add_assoc]

/-- None of some trees is larger than all of them together. -/
theorem sizeOf_le_totalSize {t : Tree α} {ts : List (Tree α)} (h : t ∈ ts) :
    sizeOf t ≤ totalSize ts := by
  induction h with
  | head ts => exact Nat.le_add_right ..
  | tail s _ ih => exact Nat.le_trans ih (Nat.le_add_left ..)

/-- Trees are smaller than the list of them. -/
theorem totalSize_lt_sizeOf (ts : List (Tree α)) : totalSize ts < sizeOf ts := by
  induction ts with
  | nil => exact Nat.one_pos
  | cons t ts ih =>
    rw [totalSize, List.cons.sizeOf_spec]
    omega

/-- The children of a node are smaller than the node, all of them together. -/
theorem totalSize_children_lt (t : Tree α) : totalSize (t.children.map (·.2)) < sizeOf t := by
  cases t with
  | block a ts =>
    have hchildren : (block a ts).children.map (·.2) = ts := by
      rw [children, List.map_map]
      exact List.zipIdx_map_fst 0 ts
    have hsmaller := totalSize_lt_sizeOf ts
    rw [hchildren, block.sizeOf_spec]
    omega
  | sequence a c rest =>
    cases rest <;> simp only [children, List.map_cons, List.map_nil, totalSize,
      sequence.sizeOf_spec, Option.some.sizeOf_spec] <;> omega
  | ifElse a c t e =>
    cases e <;> simp only [children, List.map_cons, List.map_nil, totalSize, ifElse.sizeOf_spec,
      Option.some.sizeOf_spec] <;> omega
  | _ =>
    simp only [children, List.map_cons, List.map_nil, totalSize, literal.sizeOf_spec,
      input.sizeOf_spec, var.sizeOf_spec, binary.sizeOf_spec, unary.sizeOf_spec,
      assign.sizeOf_spec, condition.sizeOf_spec, whileLoop.sizeOf_spec, print.sizeOf_spec]
    omega

end Tree

namespace Dot

/-- The form of a character inside a quoted record caption. -/
def escapeChar (c : Char) : List Char :=
  if c = '\n' then ['\\', 'n']
  else if c ∈ ['<', '>', '{', '}', '|', '"', '\\'] then ['\\', c]
  else [c]

/-- The form of a text inside a quoted record caption. -/
def escape (s : String) : String := String.ofList (s.toList.flatMap escapeChar)

/-- The record line of a node under its name. -/
def recordLine (name caption : String) : String :=
  name ++ " [shape = record, label=\"" ++ escape caption ++ "\"]\n"

/-- The line of an edge between two nodes with the given names. -/
def edgeLine (parent : String) (role : Role) (child : String) : String :=
  parent ++ " -> " ++ child ++ " [label=\"" ++ escape role.text ++ "\"]\n"

/-- The lines of one node. -/
def nodeLines (ann : Annotations) (name : Nat → String) (t : Tree Mark) : String :=
  recordLine (name t.id) (t.caption ann) ++
    String.join (t.children.map fun (role, child) => edgeLine (name t.id) role (name child.id))

/-- Puts the children of a node on a pile, the last one first. -/
def pile (pending : List (Tree Mark)) (children : List (Role × Tree Mark)) : List (Tree Mark) :=
  children.reverse.foldl (fun pending child => child.2 :: pending) pending

/-- The first child ends up on top of the pile, and the others lie below it in order. -/
theorem pile_eq (pending : List (Tree Mark)) (children : List (Role × Tree Mark)) :
    pile pending children = children.map (·.2) ++ pending := by
  rw [pile, List.foldl_reverse]
  induction children with
  | nil => rfl
  | cons child children ih => rw [List.foldr_cons, ih, List.map_cons, List.cons_append]

/-- Writes the pending nodes and all nodes below them behind what is written already. -/
def write (ann : Annotations) (name : Nat → String) (out : String) : List (Tree Mark) → String
  | [] => out
  | t :: pending => write ann name (out ++ nodeLines ann name t) (pile pending t.children)
termination_by pending => Tree.totalSize pending
decreasing_by
  have hsize := t.totalSize_children_lt
  rw [pile_eq, Tree.totalSize_append, Tree.totalSize]
  omega

/-- The dump of a tree whose nodes have the given names. -/
def dumpAs (name : Nat → String) (ann : Annotations) (root : Tree Mark) : String :=
  write ann name "digraph G \x7b\n" [root] ++ "\x7d\n"

/-- The identities in the order in which a dump mentions them. -/
def mentions (root : Tree Mark) : List Nat :=
  root.nodes.flatMap fun t => t.id :: t.children.map fun (_, child) => child.id

/-- The name of a node by its number. -/
def nodeName (numbers : Std.HashMap Nat Nat) (id : Nat) : String :=
  "n" ++ Decimal.text (numbers[id]?.getD 0)

/-- The dump of a tree. -/
def dump (ann : Annotations) (root : Tree Mark) : String :=
  let numbers := numbering (mentions root)
  dumpAs (nodeName numbers) ann root

end Dot
end IntScript
