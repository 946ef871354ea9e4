import IntScript.Tree.Tour
import Std.Data.HashMap

/-!
# Numbered trees

A numbered tree tells its nodes apart: every node has an identity, and possibly a place in the
source. A tree without identities can be numbered in pre-order, and so can one that has identities
of another kind: then every identity is replaced by the number of its first node.
-/

namespace IntScript

/-- The identity of a node and its place in the source. -/
structure Mark where
  /-- The identity of the node. -/
  id : Nat
  /-- The span of the node, if it was read from a program text. -/
  span : Option Span
deriving DecidableEq, Inhabited

/-- The numbers of nodes: the table of a list of identities gives each of them the position of its
first occurrence among the distinct ones. -/
def numbering (ids : List Nat) : Std.HashMap Nat Nat :=
  ids.foldl (fun table id => table.insertIfNew id table.size) ∅

namespace Tree

mutual

/-- Numbers the nodes of a tree in pre-order, starting with `n`, and gives the next free number. -/
def numberFrom (n : Nat) : Tree Span → Tree Mark × Nat
  | .literal s v => (.literal ⟨n, some s⟩ v, n + 1)
  | .input s => (.input ⟨n, some s⟩, n + 1)
  | .var s name => (.var ⟨n, some s⟩ name, n + 1)
  | .binary s op l r =>
    let (l, m) := numberFrom (n + 1) l
    let (r, m) := numberFrom m r
    (.binary ⟨n, some s⟩ op l r, m)
  | .unary s op t =>
    let (t, m) := numberFrom (n + 1) t
    (.unary ⟨n, some s⟩ op t, m)
  | .assign s t v =>
    let (t, m) := numberFrom (n + 1) t
    let (v, m) := numberFrom m v
    (.assign ⟨n, some s⟩ t v, m)
  | .sequence s c none =>
    let (c, m) := numberFrom (n + 1) c
    (.sequence ⟨n, some s⟩ c none, m)
  | .sequence s c (some r) =>
    let (c, m) := numberFrom (n + 1) c
    let (r, m) := numberFrom m r
    (.sequence ⟨n, some s⟩ c (some r), m)
  | .block s ts =>
    let (ts, m) := numberStatements (n + 1) ts
    (.block ⟨n, some s⟩ ts, m)
  | .condition s t =>
    let (t, m) := numberFrom (n + 1) t
    (.condition ⟨n, some s⟩ t, m)
  | .ifElse s c t none =>
    let (c, m) := numberFrom (n + 1) c
    let (t, m) := numberFrom m t
    (.ifElse ⟨n, some s⟩ c t none, m)
  | .ifElse s c t (some e) =>
    let (c, m) := numberFrom (n + 1) c
    let (t, m) := numberFrom m t
    let (e, m) := numberFrom m e
    (.ifElse ⟨n, some s⟩ c t (some e), m)
  | .whileLoop s c b =>
    let (c, m) := numberFrom (n + 1) c
    let (b, m) := numberFrom m b
    (.whileLoop ⟨n, some s⟩ c b, m)
  | .print s t =>
    let (t, m) := numberFrom (n + 1) t
    (.print ⟨n, some s⟩ t, m)

/-- Numbers the statements of a block one after the other. -/
def numberStatements (n : Nat) : List (Tree Span) → List (Tree Mark) × Nat
  | [] => ([], n)
  | t :: ts =>
    let (t, m) := numberFrom n t
    let (ts, m) := numberStatements m ts
    (t :: ts, m)

end

/-- The tree with its nodes numbered from zero in pre-order. -/
def number (t : Tree Span) : Tree Mark := (t.numberFrom 0).1

/-- The identity of the root. -/
def id (t : Tree Mark) : Nat := t.label.id

/-- The span of the root. -/
def span? (t : Tree Mark) : Option Span := t.label.span

/-- The tree without the identities of its nodes. -/
def unmarked (t : Tree Mark) : Tree Span := t.relabel fun m => m.span.getD ⟨0, 0⟩

/-- The tree in which every identity is the number of its first node in pre-order. A node that is
used in several places stays one node. -/
def inOrder (t : Tree Mark) : Tree Mark :=
  let numbers := numbering (t.nodes.map id)
  t.relabel fun m => ⟨numbers[m.id]?.getD 0, m.span⟩

end Tree
end IntScript
