import IntScript.Proofs.Eval.Laws
import IntScript.Proofs.Tree.Nodes

/-!
# Evaluation in steps

What an evaluation does with a tree is put together out of a few steps: it comes to a node, blames
one, asks for a number, loads or stores a slot, prints a value or counts a loop body. The steps can
be carried out in several ways. A machine carries them out at once, an evaluator that is watched
also takes notes, and a course only lists them.

The recursion over trees is written down here once for all ways, and so is the induction on it: if
two ways are related at each step, and the relation passes from parts to wholes, then they are
related on all trees.
-/

namespace IntScript

open IntScript.Eval (Context)

namespace Tree

variable {α : Type}

/-- The children of a node that are evaluated: all but what an operator writes to. -/
def evaluated : Tree α → List (Tree α)
  | .unary _ op t => if op.mutates then [] else [t]
  | .assign _ _ v => [v]
  | t => t.subtrees

/-- What a node writes to: the target of an assignment or the operand of `++` or `--`. -/
def target? : Tree α → Option (Tree α)
  | .assign _ t _ => some t
  | .unary _ op t => if op.mutates then some t else none
  | _ => none

/-- The variable that a node looks up: itself or what it writes to. -/
def lookup? : Tree α → Option (Tree α)
  | .var a name => some (.var a name)
  | t => t.target?

/-- The children that are evaluated are children. -/
theorem mem_subtrees_of_evaluated {t c : Tree α} (h : c ∈ t.evaluated) : c ∈ t.subtrees := by
  cases t with
  | unary a op t =>
    rw [evaluated] at h
    split at h
    · cases h
    · exact h
  | assign a t v => exact .tail _ h
  | _ => exact h

/-- What a node writes to is a child of it. -/
theorem mem_subtrees_of_target {t s : Tree α} (h : t.target? = some s) : s ∈ t.subtrees := by
  cases t with
  | assign a t v =>
    cases h
    exact .head _
  | unary a op t =>
    rw [target?] at h
    split at h
    · cases h
      exact .head _
    · cases h
  | _ => cases h

/-- A child of a node of a tree is a node of the tree. -/
theorem mem_nodes_trans {root t s : Tree α} (ht : t ∈ root.nodes) (hs : s ∈ t.subtrees) :
    s ∈ root.nodes :=
  mem_nodes_of_mem ht (mem_nodes_of_subtree hs s.mem_nodes_self)

/-- The target of a node of a tree is a node of the tree. -/
theorem mem_nodes_of_target {root t s : Tree α} (ht : t ∈ root.nodes) (hs : t.target? = some s) :
    s ∈ root.nodes :=
  mem_nodes_trans ht (mem_subtrees_of_target hs)

/-- What a node of a tree looks up is a node of the tree. -/
theorem mem_nodes_of_lookup {root t s : Tree α} (ht : t ∈ root.nodes) (hs : t.lookup? = some s) :
    s ∈ root.nodes := by
  cases t with
  | var a name =>
    cases hs
    exact ht
  | _ => exact mem_nodes_of_target ht hs

/-- What a node may be blamed for besides limits, devices and its input. -/
inductive Blames (ann : Annotations) : Tree Mark → Tree Mark → Fault.Cause → Prop
  | missingValue {t c : Tree Mark} (hc : c ∈ t.evaluated) : Blames ann t c (.missingValue c.kind)
  | unresolved {t c : Tree Mark} {name : String} (hc : t.lookup? = some c)
    (hname : c.name? = some name) (hslot : ann.slot? c = none) :
    Blames ann t c (.unresolved name)
  | notAVariable {t c : Tree Mark} (symbol : String) (hc : t.target? = some c)
    (hname : c.name? = none) : Blames ann t t (.notAVariable symbol)
  | arithmetic {a : Mark} {op : BinaryOp} {l r : Tree Mark} {x y : Value} {e : ArithmeticFault}
    (h : op.apply x y = .error e) :
    Blames ann (.binary a op l r) (.binary a op l r) (.arithmetic e)

end Tree

/-- The steps of evaluations, as they are carried out in some way. -/
structure Steps (M : Type → Type) where
  /-- Comes to a node and, unless it is nested too deeply, does something inside of it. -/
  atNode : Tree Mark → M (Option Value) → M (Option Value)
  /-- Blames a node. -/
  blame {α : Type} : Tree Mark → Fault.Cause → M α
  /-- Gives up a loop. -/
  giveUp : M Unit
  /-- Asks for a number. -/
  ask : Tree Mark → M Value
  /-- Loads the value of a slot for a variable. -/
  load : Tree Mark → Nat → M Value
  /-- Stores a value in a slot for a variable. -/
  store : Tree Mark → Nat → Value → M Unit
  /-- Prints a value. -/
  print : Tree Mark → Value → M Unit
  /-- Counts a loop body that is about to start. -/
  count : Tree Mark → M Unit

namespace Steps

section Evaluation

variable {M : Type → Type} [Monad M] (s : Steps M) (ctx : Context) {α : Type}

/-- The value that a node must yield. -/
def needValue (t : Tree Mark) (x : M (Option Value)) : M Value := do
  match ← x with
  | some v => return v
  | none => s.blame t (.missingValue t.kind)

/-- Does something with the slot of a variable. -/
def withSlot (t : Tree Mark) (name : String) (next : Nat → M α) : M α :=
  match ctx.annotations.slot? t with
  | some slot => next slot
  | none => s.blame t (.unresolved name)

/-- Does something with the slot of the variable that an operator of another node writes to. -/
def withTarget (node : Tree Mark) (symbol : String) (target : Tree Mark) (next : Nat → M α) :
    M α :=
  match target.name? with
  | some name => s.withSlot ctx target name next
  | none => s.blame node (.notAVariable symbol)

/-- Applies a binary operator for a node. -/
def applyBinary (t : Tree Mark) (op : BinaryOp) (l r : Value) : M Value :=
  match op.apply l r with
  | .ok v => pure v
  | .error e => s.blame t (.arithmetic e)

/-- Rounds of a loop. -/
def loop (test : M Bool) (body : M Unit) : Nat → M Unit
  | 0 => s.giveUp
  | patience + 1 => do
    if ← test then
      body
      loop test body patience

mutual

/-- What is done inside of a node. -/
def inside : Tree Mark → M (Option Value)
  | .literal _ v => pure (some v)
  | .input a => do
    let v ← s.ask (.input a)
    return some v
  | .var a name => s.withSlot ctx (.var a name) name fun slot => do
    let v ← s.load (.var a name) slot
    return some v
  | .binary a op l r => do
    let x ← s.needValue l (s.atNode l (inside l))
    let y ← s.needValue r (s.atNode r (inside r))
    let v ← s.applyBinary (.binary a op l r) op x y
    return some v
  | .unary a op t =>
    if op.mutates then
      s.withTarget ctx (.unary a op t) op.symbol t fun slot => do
        let x ← s.load t slot
        s.store t slot (op.apply x)
        return some (op.apply x)
    else do
      let x ← s.needValue t (s.atNode t (inside t))
      return some (op.apply x)
  | .assign a t v => s.withTarget ctx (.assign a t v) "=" t fun slot => do
    let x ← s.needValue v (s.atNode v (inside v))
    s.store t slot x
    return some x
  | .sequence _ c none => s.atNode c (inside c)
  | .sequence _ c (some r) => do
    let _ ← s.atNode c (inside c)
    s.atNode r (inside r)
  | .block _ ts => do
    insideAll ts
    return none
  | .condition _ t => do
    let x ← s.needValue t (s.atNode t (inside t))
    return some x
  | .ifElse _ c t none => do
    let x ← s.needValue c (s.atNode c (inside c))
    let _ ← if Value.truthy x then s.atNode t (inside t) else pure none
    return none
  | .ifElse _ c t (some e) => do
    let x ← s.needValue c (s.atNode c (inside c))
    let _ ← if Value.truthy x then s.atNode t (inside t) else s.atNode e (inside e)
    return none
  | .whileLoop a c b => do
    s.loop
      (do
        let x ← s.needValue c (s.atNode c (inside c))
        return Value.truthy x)
      (do
        s.count (.whileLoop a c b)
        let _ ← s.atNode b (inside b)
        return ())
      ctx.patience
    return none
  | .print a t => do
    let x ← s.needValue t (s.atNode t (inside t))
    s.print (.print a t) x
    return some x

/-- Evaluates statements in order. -/
def insideAll : List (Tree Mark) → M Unit
  | [] => pure ()
  | t :: ts => do
    let _ ← s.atNode t (inside t)
    insideAll ts

end

/-- Comes to a node and does what is done inside of it. -/
def visit (t : Tree Mark) : M (Option Value) := s.atNode t (s.inside ctx t)

end Evaluation

/-- A relation, at each node, between what is done there in two ways. It holds of all steps that are
made there and passes from parts to wholes. -/
structure Related {M M' : Type → Type} [Monad M] [Monad M'] (s : Steps M) (s' : Steps M')
    (ctx ctx' : Context) (R : Tree Mark → ∀ {α : Type}, M α → M' α → Prop) : Prop where
  /-- Both know the same about the tree. -/
  annotations : ctx.annotations = ctx'.annotations
  pure : ∀ {t : Tree Mark} {α : Type} (a : α), R t (Pure.pure a) (Pure.pure a)
  bind : ∀ {t : Tree Mark} {α β : Type} {x : M α} {x' : M' α} {f : α → M β} {f' : α → M' β},
    R t x x' → (∀ a, R t (f a) (f' a)) → R t (x >>= f) (x' >>= f')
  blame : ∀ {t c : Tree Mark} {cause : Fault.Cause} {α : Type}, t.Blames ctx.annotations c cause →
    R t (s.blame c cause : M α) (s'.blame c cause)
  ask : ∀ {t : Tree Mark}, R t (s.ask t) (s'.ask t)
  load : ∀ {t c : Tree Mark} {slot : Nat}, t.lookup? = some c → c.name?.isSome = true →
    ctx.annotations.slot? c = some slot → R t (s.load c slot) (s'.load c slot)
  store : ∀ {t c : Tree Mark} {slot : Nat} (v : Value), t.target? = some c →
    c.name?.isSome = true → ctx.annotations.slot? c = some slot →
    R t (s.store c slot v) (s'.store c slot v)
  print : ∀ {t : Tree Mark} (v : Value), R t (s.print t v) (s'.print t v)
  /-- It passes to the loop that a node stands for. -/
  loop : ∀ {t : Tree Mark} {test : M Bool} {test' : M' Bool} {body : M Unit} {body' : M' Unit},
    R t test test' → R t body body' →
    R t (s.loop test (s.count t >>= fun _ => body) ctx.patience)
      (s'.loop test' (s'.count t >>= fun _ => body') ctx'.patience)
  /-- It passes from a child to its node. -/
  visit : ∀ {t c : Tree Mark} {x : M (Option Value)} {x' : M' (Option Value)}, c ∈ t.evaluated →
    R c x x' → R t (s.atNode c x) (s'.atNode c x')

/-- Loops of equal patience are related if their parts are. -/
theorem loop_related {M M' : Type → Type} [Monad M] [Monad M'] {s : Steps M} {s' : Steps M'}
    {R : ∀ {α : Type}, M α → M' α → Prop} (pure : R (Pure.pure ()) (Pure.pure ()))
    (bind : ∀ {α : Type} {x : M α} {x' : M' α} {f : α → M Unit} {f' : α → M' Unit}, R x x' →
      (∀ a, R (f a) (f' a)) → R (x >>= f) (x' >>= f'))
    (giveUp : R s.giveUp s'.giveUp) {test : M Bool} {test' : M' Bool} {body : M Unit}
    {body' : M' Unit} (htest : R test test') (hbody : R body body') (n : Nat) :
    R (s.loop test body n) (s'.loop test' body' n) := by
  induction n with
  | zero => exact giveUp
  | succ n ih =>
    refine bind htest fun b => ?_
    cases b with
    | true => exact bind hbody fun _ => ih
    | false => exact pure

namespace Related

variable {M M' : Type → Type} [Monad M] [Monad M'] {s : Steps M} {s' : Steps M'}
  {ctx ctx' : Context} {R : Tree Mark → ∀ {α : Type}, M α → M' α → Prop} {t c : Tree Mark}
  {α β : Type}

/-- A result passed through a function. -/
theorem map (h : Related s s' ctx ctx' R) {x : M α} {x' : M' α} (hx : R t x x') (f : α → β) :
    R t (x >>= fun a => Pure.pure (f a)) (x' >>= fun a => Pure.pure (f a)) :=
  h.bind hx fun _ => h.pure _

/-- A child whose value is needed. -/
theorem needValue (h : Related s s' ctx ctx' R) (hc : c ∈ t.evaluated) {x : M (Option Value)}
    {x' : M' (Option Value)} (hx : R c x x') :
    R t (s.needValue c (s.atNode c x)) (s'.needValue c (s'.atNode c x')) := by
  refine h.bind (h.visit hc hx) fun o => ?_
  cases o with
  | some v => exact h.pure v
  | none => exact h.blame (.missingValue hc)

/-- The slot of a variable. -/
theorem withSlot (h : Related s s' ctx ctx' R) (hc : t.lookup? = some c) {name : String}
    (hname : c.name? = some name) {next : Nat → M α} {next' : Nat → M' α}
    (hnext : ∀ slot, ctx.annotations.slot? c = some slot → R t (next slot) (next' slot)) :
    R t (s.withSlot ctx c name next) (s'.withSlot ctx' c name next') := by
  unfold Steps.withSlot
  rw [← h.annotations]
  cases hslot : ctx.annotations.slot? c with
  | some slot => exact hnext slot hslot
  | none => exact h.blame (.unresolved hc hname hslot)

/-- The slot of what a node writes to. -/
theorem withTarget (h : Related s s' ctx ctx' R) (hc : t.target? = some c)
    (hlookup : t.lookup? = some c) {symbol : String} {next : Nat → M α} {next' : Nat → M' α}
    (hnext : ∀ slot, c.name?.isSome = true → ctx.annotations.slot? c = some slot →
      R t (next slot) (next' slot)) :
    R t (s.withTarget ctx t symbol c next) (s'.withTarget ctx' t symbol c next') := by
  unfold Steps.withTarget
  cases hname : c.name? with
  | some name =>
    refine h.withSlot hlookup hname fun slot hslot => hnext slot ?_ hslot
    rw [hname]
    rfl
  | none => exact h.blame (.notAVariable symbol hc hname)

/-- An operator between two values. -/
theorem applyBinary (h : Related s s' ctx ctx' R) (a : Mark) (op : BinaryOp) (l r : Tree Mark)
    (x y : Value) : R (.binary a op l r) (s.applyBinary (.binary a op l r) op x y)
      (s'.applyBinary (.binary a op l r) op x y) := by
  unfold Steps.applyBinary
  cases happly : op.apply x y with
  | ok v => exact h.pure v
  | error e => exact h.blame (.arithmetic happly)

/-- Statements in order. -/
theorem insideAll (h : Related s s' ctx ctx' R) {ts : List (Tree Mark)}
    (hts : ∀ c ∈ ts, R t (s.visit ctx c) (s'.visit ctx' c)) :
    R t (s.insideAll ctx ts) (s'.insideAll ctx' ts) := by
  induction ts with
  | nil =>
    rw [Steps.insideAll, Steps.insideAll]
    exact h.pure ()
  | cons c ts ih =>
    rw [Steps.insideAll, Steps.insideAll]
    refine h.bind (hts c List.mem_cons_self) fun _ => ?_
    exact ih fun c hc => hts c (List.mem_cons_of_mem _ hc)

/-- What is done inside of a node in one way is related to what is done there in the other way. -/
theorem inside (h : Related s s' ctx ctx' R) (t : Tree Mark) :
    R t (s.inside ctx t) (s'.inside ctx' t) := by
  -- every node makes its own steps and visits the children that are evaluated
  induction t using Tree.induction with
  | literal a v =>
    rw [Steps.inside, Steps.inside]
    exact h.pure _
  | input a =>
    rw [Steps.inside, Steps.inside]
    exact h.map h.ask _
  | var a name =>
    rw [Steps.inside, Steps.inside]
    exact h.withSlot rfl rfl fun slot hslot => h.map (h.load rfl rfl hslot) _
  | binary a op l r ihl ihr =>
    have hl := h.needValue (t := .binary a op l r) (.head _) ihl
    have hr := h.needValue (t := .binary a op l r) (.tail _ (.head _)) ihr
    rw [Steps.inside, Steps.inside]
    exact h.bind hl fun x => h.bind hr fun y => h.map (h.applyBinary a op l r x y) _
  | unary a op t ih =>
    rw [Steps.inside, Steps.inside]
    split
    case isTrue hm =>
      have htarget : (Tree.unary a op t).target? = some t := if_pos hm
      refine h.withTarget htarget htarget fun slot hvar hslot => ?_
      refine h.bind (h.load htarget hvar hslot) fun x => ?_
      exact h.map (h.store _ htarget hvar hslot) _
    case isFalse hm =>
      have hmem : t ∈ (Tree.unary a op t).evaluated := by
        rw [Tree.evaluated, if_neg hm]
        exact .head _
      exact h.map (h.needValue hmem ih) _
  | assign a t v _ ihv =>
    rw [Steps.inside, Steps.inside]
    refine h.withTarget rfl rfl fun slot hvar hslot => ?_
    exact h.bind (h.needValue (.head _) ihv) fun x => h.map (h.store x rfl hvar hslot) _
  | sequence a c rest ihc ihr =>
    cases rest with
    | none =>
      rw [Steps.inside, Steps.inside]
      exact h.visit (.head _) ihc
    | some r =>
      rw [Steps.inside, Steps.inside]
      exact h.bind (h.visit (.head _) ihc) fun _ => h.visit (.tail _ (.head _)) (ihr r rfl)
  | block a ts ih =>
    have hmem : ∀ c ∈ ts, c ∈ (Tree.block a ts).evaluated := by
      intro c hc
      change c ∈ (Tree.block a ts).subtrees
      rw [Tree.subtrees_block]
      exact hc
    rw [Steps.inside, Steps.inside]
    exact h.map (h.insideAll fun c hc => h.visit (hmem c hc) (ih c hc)) _
  | condition a t ih =>
    rw [Steps.inside, Steps.inside]
    exact h.map (h.needValue (.head _) ih) _
  | ifElse a c t e ihc iht ihe =>
    cases e with
    | none =>
      rw [Steps.inside, Steps.inside]
      refine h.bind (h.needValue (.head _) ihc) fun x => ?_
      dsimp only
      split
      · exact h.map (h.visit (.tail _ (.head _)) iht) _
      · exact h.map (h.pure none) _
    | some e =>
      rw [Steps.inside, Steps.inside]
      refine h.bind (h.needValue (.head _) ihc) fun x => ?_
      dsimp only
      split
      · exact h.map (h.visit (.tail _ (.head _)) iht) _
      · exact h.map (h.visit (.tail _ (.tail _ (.head _))) (ihe e rfl)) _
  | whileLoop a c b ihc ihb =>
    have hc := h.needValue (t := .whileLoop a c b) (.head _) ihc
    have hb := h.visit (t := .whileLoop a c b) (.tail _ (.head _)) ihb
    rw [Steps.inside, Steps.inside]
    exact h.map (h.loop (h.map hc _) (h.map hb _)) _
  | print a t ih =>
    rw [Steps.inside, Steps.inside]
    exact h.bind (h.needValue (.head _) ih) fun x => h.map (h.print x) _

end Related

end Steps

namespace Eval

/-- The steps of an execution that is told how deeply it is nested. -/
def steps (ctx : Context) : Steps (ReaderT Nat Exec) where
  atNode t x := fun d => atDepth ctx d t (x (d + 1))
  blame t cause := fun _ => Eval.blame ctx t cause
  giveUp := fun _ => Exec.giveUp
  ask t := fun _ => readInput ctx t
  load t slot := fun _ => readSlot ctx t slot
  store t slot v := fun _ => writeSlot ctx t slot v
  print t v := fun _ => printLine ctx t v
  count t := fun _ => countIteration ctx t

section Equations

variable {ctx : Context} {α β : Type} {t : Tree Mark} {d : Nat}

/-- One thing after another is at the same depth. -/
theorem bind_apply (x : ReaderT Nat Exec α) (f : α → ReaderT Nat Exec β) (d : Nat) :
    (x >>= f) d = x d >>= fun a => f a d := rfl

/-- A missing value is blamed at every depth. -/
theorem steps_needValue (t : Tree Mark) (x : ReaderT Nat Exec (Option Value)) :
    (steps ctx).needValue t x d = needValue ctx t (x d) := by
  refine congrArg (x d >>= ·) (funext fun o => ?_)
  cases o <;> rfl

/-- What is done with a slot is done when the slot is found. -/
theorem steps_withSlot (t : Tree Mark) (name : String) (next : Nat → ReaderT Nat Exec α) :
    (steps ctx).withSlot ctx t name next d =
      slotOf ctx t name >>= fun slot => next slot d := by
  unfold Steps.withSlot slotOf
  cases ctx.annotations.slot? t <;> rfl

/-- What is done with the slot of a target is done when the slot is found. -/
theorem steps_withTarget (node : Tree Mark) (symbol : String) (target : Tree Mark)
    (next : Nat → ReaderT Nat Exec α) :
    (steps ctx).withTarget ctx node symbol target next d =
      targetSlot ctx node symbol target >>= fun slot => next slot d := by
  unfold Steps.withTarget targetSlot
  cases target.name? with
  | some name => exact steps_withSlot target name next
  | none => rfl

/-- An operator is applied at every depth. -/
theorem steps_applyBinary (t : Tree Mark) (op : BinaryOp) (x y : Value) :
    (steps ctx).applyBinary t op x y d = applyBinary ctx t op x y := by
  unfold Steps.applyBinary applyBinary
  cases op.apply x y <;> rfl

/-- A loop stays at its depth. -/
theorem steps_loop (test : ReaderT Nat Exec Bool) (body : ReaderT Nat Exec Unit) (n : Nat) :
    (steps ctx).loop test body n d = Exec.loop (test d) (body d) n := by
  induction n with
  | zero => rfl
  | succ n ih =>
    rw [Exec.loop_succ, ← ih]
    refine congrArg (test d >>= ·) (funext fun b => ?_)
    cases b <;> rfl

/-- Statements in order. -/
theorem steps_insideAll {ts : List (Tree Mark)}
    (hts : ∀ t ∈ ts, eval ctx d t = (steps ctx).visit ctx t d) :
    (steps ctx).insideAll ctx ts d = evalStatements ctx d ts := by
  induction ts with
  | nil =>
    rw [Steps.insideAll, evalStatements]
    rfl
  | cons t ts ih =>
    rw [Steps.insideAll, evalStatements, hts t List.mem_cons_self,
      ← ih fun t ht => hts t (List.mem_cons_of_mem _ ht)]
    rfl

/-- A node is visited at its depth, and what is done inside of it is deeper by one. -/
theorem atDepth_eq_visit {t : Tree Mark} {x : Exec (Option Value)}
    (h : x = (steps ctx).inside ctx t (d + 1)) : atDepth ctx d t x = (steps ctx).visit ctx t d := by
  rw [h]
  rfl

/-- An evaluation is put together out of its steps. -/
theorem eval_eq (ctx : Context) (t : Tree Mark) (d : Nat) :
    eval ctx d t = (steps ctx).visit ctx t d := by
  induction t using Tree.induction generalizing d with
  | literal a v =>
    rw [eval]
    exact atDepth_eq_visit rfl
  | input a =>
    rw [eval]
    exact atDepth_eq_visit rfl
  | var a name =>
    rw [eval]
    refine atDepth_eq_visit ?_
    rw [Steps.inside, steps_withSlot]
    rfl
  | binary a op l r ihl ihr =>
    rw [eval, ihl, ihr]
    refine atDepth_eq_visit ?_
    simp only [Steps.inside, bind_apply, steps_needValue, steps_applyBinary]
    rfl
  | unary a op t ih =>
    rw [eval, ih]
    refine atDepth_eq_visit ?_
    rw [Steps.inside]
    split
    · rw [steps_withTarget]
      rfl
    · rw [bind_apply, steps_needValue]
      rfl
  | assign a t v _ ihv =>
    rw [eval, ihv]
    refine atDepth_eq_visit ?_
    simp only [Steps.inside, steps_withTarget, bind_apply, steps_needValue]
    rfl
  | sequence a c rest ihc ihr =>
    cases rest with
    | none =>
      rw [eval, ihc]
      exact atDepth_eq_visit rfl
    | some r =>
      rw [eval, ihc, ihr r rfl]
      exact atDepth_eq_visit rfl
  | block a ts ih =>
    rw [eval, ← steps_insideAll fun t ht => ih t ht _]
    exact atDepth_eq_visit rfl
  | condition a t ih =>
    rw [eval, ih]
    refine atDepth_eq_visit ?_
    rw [Steps.inside, bind_apply, steps_needValue]
    rfl
  | ifElse a c t e ihc iht ihe =>
    cases e with
    | none =>
      rw [eval, ihc, iht]
      refine atDepth_eq_visit ?_
      simp only [Steps.inside, bind_apply, steps_needValue]
      refine congrArg _ (funext fun x => ?_)
      split <;> rfl
    | some e =>
      rw [eval, ihc, iht, ihe e rfl]
      refine atDepth_eq_visit ?_
      simp only [Steps.inside, bind_apply, steps_needValue]
      refine congrArg _ (funext fun x => ?_)
      split <;> rfl
  | whileLoop a c b ihc ihb =>
    rw [eval, ihc, ihb]
    refine atDepth_eq_visit ?_
    simp only [Steps.inside, bind_apply, steps_loop, steps_needValue]
    rfl
  | print a t ih =>
    rw [eval, ih]
    refine atDepth_eq_visit ?_
    rw [Steps.inside, bind_apply, steps_needValue]
    rfl

end Equations

end Eval
end IntScript
