import IntScript.Proofs.Eval.Conduct

/-!
# The depth limit

The depth limit is a limit on the height of trees: the number of nodes in the longest chain of nodes
that are nested in each other. What an assignment or an operator such as `++` writes to is not
evaluated and does not count.

An evaluator keeps its depth in a counter that it shares with everything that it does. The counter
is the nesting level of the node that it is at, however many rounds of loops or evaluations of other
trees it has behind it. So a tree that is not too high never reaches the limit, and a tree that
reaches it does so at a node whose level is the limit.
-/

namespace IntScript

open IntScript.Eval (Context faultAt)

namespace Tree

variable {α : Type}

mutual

/-- The number of nodes in the longest chain of nested nodes that are evaluated. -/
def height : Tree α → Nat
  | .literal .. | .input _ | .var .. => 1
  | .binary _ _ l r => max (height l) (height r) + 1
  | .unary _ op t => if op.mutates then 1 else height t + 1
  | .assign _ _ v => height v + 1
  | .sequence _ c none => height c + 1
  | .sequence _ c (some r) => max (height c) (height r) + 1
  | .block _ ts => heightIn ts + 1
  | .condition _ t => height t + 1
  | .ifElse _ c t none => max (height c) (height t) + 1
  | .ifElse _ c t (some e) => max (height c) (max (height t) (height e)) + 1
  | .whileLoop _ c b => max (height c) (height b) + 1
  | .print _ t => height t + 1

/-- The greatest height of a tree in a list. -/
def heightIn : List (Tree α) → Nat
  | [] => 0
  | t :: ts => max (height t) (heightIn ts)

end

/-- A tree is higher by one than the highest of its children that are evaluated. -/
theorem height_eq (t : Tree α) : t.height = heightIn t.evaluated + 1 := by
  cases t with
  | unary a op t =>
    rw [height, evaluated]
    split <;> simp [heightIn]
  | sequence a c rest => cases rest <;> simp [height, heightIn, evaluated, subtrees, children]
  | ifElse a c t e => cases e <;> simp [height, heightIn, evaluated, subtrees, children]
  | block a ts =>
    change _ = heightIn (Tree.block a ts).subtrees + 1
    rw [subtrees_block, height]
  | _ => simp [height, heightIn, evaluated, subtrees, children]

/-- A list goes beyond some height if one of its trees does. -/
theorem lt_heightIn_iff {k : Nat} {ts : List (Tree α)} :
    k < heightIn ts ↔ ∃ t ∈ ts, k < t.height := by
  induction ts with
  | nil => simp [heightIn]
  | cons t ts ih =>
    simp only [heightIn, List.mem_cons, exists_eq_or_imp, ← ih]
    omega

/-- A node is nested at level `k` of a tree if a chain of `k` steps to children that are evaluated
leads to it. -/
inductive NestedAt : Tree α → Nat → Tree α → Prop
  /-- The tree itself is at level 0. -/
  | root (t : Tree α) : NestedAt t 0 t
  /-- What is nested in a child is one level deeper in the tree. -/
  | child {t c node : Tree α} {k : Nat} : c ∈ t.evaluated → NestedAt c k node →
    NestedAt t (k + 1) node

/-- The levels of a tree are the numbers below its height. -/
theorem lt_height_iff {k : Nat} {t : Tree α} : k < t.height ↔ ∃ node, t.NestedAt k node := by
  induction k generalizing t with
  | zero =>
    rw [height_eq]
    exact ⟨fun _ => ⟨t, .root t⟩, fun _ => Nat.succ_pos _⟩
  | succ k ih =>
    rw [height_eq, Nat.succ_lt_succ_iff, lt_heightIn_iff]
    constructor
    · rintro ⟨c, hc, hlt⟩
      obtain ⟨node, hnode⟩ := ih.1 hlt
      exact ⟨node, .child hc hnode⟩
    · rintro ⟨node, hnode⟩
      cases hnode with
      | child hc hnode => exact ⟨_, hc, ih.2 ⟨node, hnode⟩⟩

end Tree

/-- The fault is that nodes are nested too deeply. -/
def Fault.IsDepthLimit (f : Fault) : Prop := ∃ k l, f.cause = .depthLimit k l

namespace Evaluator

/-- The counter of nested nodes is right again in the end, and the depth limit is reported for a
node of `t` at the level that it allows no more. The evaluator starts inside of `t` or, if
`inside` is 0, in front of it. -/
structure Nests (ctx : Context) (inside : Nat) (t : Tree Mark) (e : Evaluator)
    (fault : Option Fault) (e' : Evaluator) : Prop where
  /-- The counter is as it was. -/
  depth_eq : e'.depth = e.depth
  /-- The limit is reported when a node is reached that is too deep by one. -/
  overflow : ∀ f ∈ fault, f.IsDepthLimit → ∃ node k, t.NestedAt k node ∧
    e.depth + k = ctx.limits.maxDepth + inside ∧
    f = faultAt ctx node (.depthLimit ctx.limits.maxDepth ctx.limits.maxDepth) ∧
    e'.history.getLast? = some (.reached ctx.limits.maxDepth node)

/-- If the counter has not gone beyond the limit, then it is right again in the end. -/
def StaysNested (ctx : Context) (inside : Nat) (t : Tree Mark) (e : Evaluator)
    (fault : Option Fault) (e' : Evaluator) : Prop :=
  e.depth ≤ ctx.limits.maxDepth → Nests ctx inside t e fault e'

/-- Quiet steps leave the counter as it is, and it can be kept on and on. -/
theorem isPassage_staysNested (ctx : Context) (inside : Nat) (t : Tree Mark) :
    Evaluation.IsPassage (StaysNested ctx inside t) where
  quiet _ hdepth _ hfault _ := by
    refine ⟨hdepth, fun f hf => ?_⟩
    rintro ⟨k, l, hcause⟩
    refine absurd ?_ (hfault f hf)
    rw [hcause]
    trivial
  trans h h' he := by
    have hdepth := (h he).depth_eq
    obtain ⟨hdepth', hoverflow⟩ := h' (hdepth ▸ he)
    exact ⟨hdepth'.trans hdepth, hdepth ▸ hoverflow⟩

end Evaluator

namespace Evaluation

variable {α : Type} {ctx : Context} {t : Tree Mark}

/-- Starting a loop body leaves the counter as it is. -/
theorem startBody_staysNested :
    (startBody ctx t).Follows (Evaluator.StaysNested ctx 1 t) := by
  intro e _
  obtain ⟨houtcome, -, hdepth⟩ := Agrees.startBody e.depth ctx t e rfl
  refine ⟨hdepth, fun f hf => ?_⟩
  rintro ⟨k, l, hcause⟩
  rw [houtcome, Outcome.mem_fault?, Eval.countIteration] at hf
  split at hf
  · split at hf
    · cases hf
      cases hcause
    · cases hf
  · cases hf

/-- Coming to a node leaves the counter as it was, and only this can reach the limit. -/
theorem atNode_staysNested {x : Evaluation α} (hx : x.Follows (Evaluator.StaysNested ctx 1 t)) :
    (atNode ctx t x).Follows (Evaluator.StaysNested ctx 0 t) := by
  intro e he
  unfold atNode
  split
  case isTrue hle =>
    have hdepth : e.depth = ctx.limits.maxDepth := Nat.le_antisymm he hle
    refine ⟨rfl, fun f hf _ => ⟨t, 0, .root t, by omega, ?_, ?_⟩⟩
    · cases hf
      rw [hdepth]
      rfl
    · rw [← hdepth]
      exact List.getLast?_concat
  case isFalse hlt =>
    obtain ⟨hdepth, hoverflow⟩ :=
      hx ((e.note (.reached e.depth t)).atDepth (e.depth + 1)) (Nat.lt_of_not_le hlt)
    refine ⟨?_, fun f hf hlimit => ?_⟩
    · change _ - 1 = e.depth
      rw [hdepth]
      rfl
    · obtain ⟨node, k, hnode, hk, hf, hlast⟩ := hoverflow f hf hlimit
      have hk' : e.depth + 1 + k = ctx.limits.maxDepth + 1 := hk
      exact ⟨node, k, hnode, by omega, hf, hlast⟩

/-- Whole runs keep the counter. -/
theorem run_staysNested (ctx : Context) (root : Tree Mark) :
    (run ctx root).Follows (Evaluator.StaysNested ctx 0 root) := by
  have hclosed : Closed ctx fun t {_} x => x.Follows (Evaluator.StaysNested ctx 1 t) := by
    refine closed_follows (fun t => Evaluator.isPassage_staysNested ctx 1 t)
      (fun t => startBody_staysNested) fun {t c} _ hc hx e he => ?_
    obtain ⟨hdepth, hoverflow⟩ := atNode_staysNested hx e he
    refine ⟨hdepth, fun f hf hlimit => ?_⟩
    obtain ⟨node, k, hnode, hk, hf, hlast⟩ := hoverflow f hf hlimit
    exact ⟨node, k + 1, .child hc hnode, by omega, hf, hlast⟩
  exact (Evaluator.isPassage_staysNested ctx 0 root).run (atNode_staysNested (hclosed.inside root))

end Evaluation

namespace Evaluator

variable {limits : Limits} {past : List (Outcome Fault (Option Value))} {e : Evaluator}

/-- What the depth limit means for an evaluation of `root` by an evaluator. -/
structure ObeysDepth (ctx : Context) (e : Evaluator) (root : Tree Mark)
    (o : Outcome Fault (Option Value)) (e' : Evaluator) : Prop where
  /-- The evaluation is what a run does on the machine. -/
  run_eq : Eval.run ctx root e.machine = (o, e'.machine)
  /-- The limit is not reported for a tree that is not higher than the limit. -/
  unreported : root.height ≤ ctx.limits.maxDepth → ∀ f, o = .failed f → ¬f.IsDepthLimit
  /-- It is reported with itself as the depth, when the evaluator comes to a node at this level, and
  for this node. -/
  reported : ∀ f k l, o = .failed f → f.cause = .depthLimit k l →
    k = ctx.limits.maxDepth ∧ l = ctx.limits.maxDepth ∧
    ∃ node, root.NestedAt ctx.limits.maxDepth node ∧ f = faultAt ctx node (.depthLimit k l) ∧
      e'.history.getLast? = some (.reached k node)

/-- All through its life an evaluator obeys the depth limit: however the evaluations before ended
and however many rounds its loops may take. -/
theorem depth_limit (hlife : Life limits past e) (ctx : Context) (root : Tree Mark) :
    ObeysDepth ctx e root (Evaluation.run ctx root e).1 (Evaluation.run ctx root e).2 := by
  have hdepth := hlife.depth_eq
  obtain ⟨-, hoverflow⟩ := Evaluation.run_staysNested ctx root e (hdepth ▸ Nat.zero_le _)
  have hreported : ∀ f, (Evaluation.run ctx root e).1 = .failed f → f.IsDepthLimit →
      ∃ node, root.NestedAt ctx.limits.maxDepth node ∧
        f = faultAt ctx node (.depthLimit ctx.limits.maxDepth ctx.limits.maxDepth) ∧
        (Evaluation.run ctx root e).2.history.getLast? =
          some (.reached ctx.limits.maxDepth node) := by
    intro f hf hlimit
    obtain ⟨node, k, hnode, hk, hfault⟩ := hoverflow f (Outcome.mem_fault?.2 hf) hlimit
    have hlevel : k = ctx.limits.maxDepth := by omega
    exact ⟨node, hlevel ▸ hnode, hfault⟩
  refine ⟨hlife.run_eq ctx root, fun hheight f hf hlimit => ?_, fun f k l hf hcause => ?_⟩
  · obtain ⟨node, hnode, -⟩ := hreported f hf hlimit
    have hlt := Tree.lt_height_iff.2 ⟨node, hnode⟩
    omega
  · obtain ⟨node, hnode, rfl, hlast⟩ := hreported f hf ⟨k, l, hcause⟩
    cases hcause
    exact ⟨rfl, rfl, node, hnode, rfl, hlast⟩

/-- The tree of `print - -1`. -/
def deepNegation : Tree Mark :=
  .print ⟨0, some ⟨0, 10⟩⟩ (.unary ⟨1, some ⟨6, 10⟩⟩ .neg
    (.unary ⟨2, some ⟨8, 10⟩⟩ .neg (.literal ⟨3, some ⟨9, 10⟩⟩ 1)))

/-- A loop that prints numbers of the input. -/
def flatLoop : Tree Mark :=
  .whileLoop ⟨0, none⟩ (.input ⟨1, none⟩) (.print ⟨2, none⟩ (.input ⟨3, none⟩))

/-- Three nodes may be nested. -/
def threeLevels : Context := ⟨⟨3, none⟩, .empty, true, 0⟩

/-- The evaluator that has the given numbers to read as its input. -/
def startedOn (input : Input) : Evaluator := ⟨⟨.zeros 0, input, {}, 0⟩, 0, []⟩

/-- The number of the negated negation is at level 3, so it is one too deep for three levels. The
same evaluator goes on with a loop of height 3 and never reports the limit, on whatever input and
in however many rounds. -/
theorem depth_limit_deepNegation :
    (∀ input, (Evaluation.run threeLevels deepNegation (startedOn input)).1 =
        .failed ⟨.depthLimit 3 3, some ⟨9, 10⟩⟩ ∧
      ∃ node, deepNegation.NestedAt 3 node ∧
        (Evaluation.run threeLevels deepNegation (startedOn input)).2.history.getLast? =
          some (.reached 3 node)) ∧
    ∀ input patience f, (Evaluation.run { threeLevels with patience } flatLoop
        (Evaluation.run threeLevels deepNegation (startedOn input)).2).1 = .failed f →
      ¬f.IsDepthLimit := by
  have hfails : ∀ input, (Evaluation.run threeLevels deepNegation (startedOn input)).1 =
      .failed ⟨.depthLimit 3 3, some ⟨9, 10⟩⟩ := fun input => rfl
  have hnew : ∀ input, Life threeLevels.limits [] (startedOn input) := fun input => .new _ _ _
  constructor
  · intro input
    obtain ⟨-, -, node, hnode, -, hlast⟩ :=
      (depth_limit (hnew input) threeLevels deepNegation).reported _ _ _ (hfails input) rfl
    exact ⟨hfails input, node, hnode, hlast⟩
  · intro input patience f hf
    have hheight : flatLoop.height ≤ 3 := by decide
    have hused := (hnew input).next threeLevels deepNegation rfl (by rw [hfails]; nofun)
    exact (depth_limit hused _ flatLoop).unreported hheight f hf

end Evaluator

end IntScript
