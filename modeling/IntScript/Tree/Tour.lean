import IntScript.Tree.Basic

/-!
# Walks through a tree

A tour visits a tree from left to right: it enters a node, tours its children one after the other
and leaves the node again. The nodes in the order in which they are entered form the pre-order
list. A node that stands in two places is visited twice.

A tour can be made without recursion, with a list of pending steps: the first one is made, and the
steps that it opens are put in front of the others.
-/

namespace IntScript

/-- One step of a tour. -/
inductive Tree.Step (α : Type) where
  /-- A node is reached from its parent, which the root does not have. -/
  | enter (parent : Option (Role × α)) (node : Tree α)
  /-- All children of a node have been visited. -/
  | leave (node : Tree α)

namespace Tree

mutual

/-- The steps of a tour that comes from the given parent. -/
def tourFrom {α : Type} (parent : Option (Role × α)) : Tree α → List (Step α)
  | .literal a v => [.enter parent (.literal a v), .leave (.literal a v)]
  | .input a => [.enter parent (.input a), .leave (.input a)]
  | .var a n => [.enter parent (.var a n), .leave (.var a n)]
  | .binary a op l r =>
    .enter parent (.binary a op l r) ::
      (tourFrom (some (.left, a)) l ++ tourFrom (some (.right, a)) r ++
        [.leave (.binary a op l r)])
  | .unary a op t =>
    .enter parent (.unary a op t) ::
      (tourFrom (some (.operand, a)) t ++ [.leave (.unary a op t)])
  | .assign a t v =>
    .enter parent (.assign a t v) ::
      (tourFrom (some (.target, a)) t ++ tourFrom (some (.assigned, a)) v ++
        [.leave (.assign a t v)])
  | .sequence a c none =>
    .enter parent (.sequence a c none) ::
      (tourFrom (some (.current, a)) c ++ [.leave (.sequence a c none)])
  | .sequence a c (some r) =>
    .enter parent (.sequence a c (some r)) ::
      (tourFrom (some (.current, a)) c ++ tourFrom (some (.rest, a)) r ++
        [.leave (.sequence a c (some r))])
  | .block a ts =>
    .enter parent (.block a ts) :: (tourStatements a 1 ts ++ [.leave (.block a ts)])
  | .condition a t =>
    .enter parent (.condition a t) ::
      (tourFrom (some (.operand, a)) t ++ [.leave (.condition a t)])
  | .ifElse a c t none =>
    .enter parent (.ifElse a c t none) ::
      (tourFrom (some (.condition, a)) c ++ tourFrom (some (.whenTrue, a)) t ++
        [.leave (.ifElse a c t none)])
  | .ifElse a c t (some e) =>
    .enter parent (.ifElse a c t (some e)) ::
      (tourFrom (some (.condition, a)) c ++ tourFrom (some (.whenTrue, a)) t ++
        tourFrom (some (.whenFalse, a)) e ++ [.leave (.ifElse a c t (some e))])
  | .whileLoop a c b =>
    .enter parent (.whileLoop a c b) ::
      (tourFrom (some (.condition, a)) c ++ tourFrom (some (.body, a)) b ++
        [.leave (.whileLoop a c b)])
  | .print a t =>
    .enter parent (.print a t) ::
      (tourFrom (some (.printed, a)) t ++ [.leave (.print a t)])

/-- The tours of the statements of a block, the first of which has the given position. -/
def tourStatements {α : Type} (parent : α) (position : Nat) : List (Tree α) → List (Step α)
  | [] => []
  | t :: ts =>
    tourFrom (some (.statement position, parent)) t ++ tourStatements parent (position + 1) ts

end

/-- The steps of the tour of a whole tree. -/
def tour {α : Type} (t : Tree α) : List (Step α) := t.tourFrom none

/-- What comes directly behind a step: a node that is entered has its children entered from left to
right and is left again. -/
def Step.opens {α : Type} : Step α → List (Step α)
  | .enter _ node =>
    node.children.map (fun (role, child) => .enter (some (role, node.label)) child) ++
      [.leave node]
  | .leave _ => []

/-- The part of a tour that a pending step stands for. -/
def Step.tour {α : Type} : Step α → List (Step α)
  | .enter parent node => node.tourFrom parent
  | .leave node => [.leave node]

/-- The tours of the statements of a block come one after the other. -/
theorem tourStatements_eq {α : Type} (a : α) (i : Nat) (ts : List (Tree α)) :
    tourStatements a (i + 1) ts =
      (ts.zipIdx i).flatMap fun (t, j) => t.tourFrom (some (.statement (j + 1), a)) := by
  induction ts generalizing i with
  | nil => rfl
  | cons t ts ih => rw [tourStatements, List.zipIdx_cons, List.flatMap_cons, ih]

/-- A tour makes a step and goes on with those that the step opens. -/
theorem Step.tour_eq {α : Type} (s : Step α) : s.tour = s :: s.opens.flatMap Step.tour := by
  cases s with
  | leave node => rfl
  | enter parent node =>
    cases node with
    | sequence a c rest => cases rest <;> simp [tour, opens, tourFrom, children, label]
    | ifElse a c t e => cases e <;> simp [tour, opens, tourFrom, children, label]
    | block a ts =>
      have hts := tourStatements_eq a 0 ts
      simp [tour, opens, tourFrom, children, label, hts, List.flatMap_map]
    | _ => simp [tour, opens, tourFrom, children, label]

/-- The nodes of a tree in pre-order, each with its role in its parent. -/
def listing {α : Type} (t : Tree α) : List (Option Role × Tree α) :=
  t.tour.filterMap fun
    | .enter parent node => some (parent.map (·.1), node)
    | .leave _ => none

/-- The nodes of a tree in pre-order. -/
def nodes {α : Type} (t : Tree α) : List (Tree α) := t.listing.map (·.2)

end Tree
end IntScript
