import IntScript.Eval.Machine

/-!
# Evaluation

Trees are evaluated by recursion on their structure. Expressions yield values and statements yield
none. Operands are evaluated from left to right, and both operands of a logical operator always
are. Every node is checked against the depth limit before anything else is done with it; the
targets of assignments and the operands of `++` and `--` are not evaluated and do not count.

Variables are found by their slots. What happens with trees that no program denotes is defined as
well: they fail at the node that does not make sense.
-/

namespace IntScript

/-- The limits of a run. -/
structure Limits where
  /-- The number of nodes that may be nested. -/
  maxDepth : Nat := 1000
  /-- The number of loop bodies that may be started in all. -/
  maxIterations : Option Nat := none
deriving DecidableEq

namespace Eval

/-- What an evaluation needs to know. -/
structure Context where
  /-- The limits. -/
  limits : Limits
  /-- The annotations of the tree, for the slots of its variables. -/
  annotations : Annotations
  /-- Whether faults are given the spans of nodes. -/
  located : Bool
  /-- The number of rounds that each loop may take. -/
  patience : Nat

/-- The failure of a node. -/
def blame {α : Type} (ctx : Context) (t : Tree Mark) (cause : Fault.Cause) : Exec α :=
  Exec.fail ⟨cause, if ctx.located then t.span? else none⟩

/-- Does something with a node unless it is nested too deeply. -/
def atDepth {α : Type} (ctx : Context) (depth : Nat) (t : Tree Mark) (body : Exec α) : Exec α :=
  if ctx.limits.maxDepth ≤ depth then
    blame ctx t (.depthLimit depth ctx.limits.maxDepth)
  else body

/-- The value that a node must yield. -/
def needValue (ctx : Context) (t : Tree Mark) (x : Exec (Option Value)) : Exec Value := do
  match ← x with
  | some v => return v
  | none => blame ctx t (.missingValue t.kind)

/-- Reads a number for a node. -/
def readInput (ctx : Context) (t : Tree Mark) : Exec Value := fun m =>
  match m.input.next with
  | (.ok v, input) => (.done v, { m with input })
  | (.error e, input) => blame ctx t (.ofInput e) { m with input }

/-- The slot of a variable. -/
def slotOf (ctx : Context) (t : Tree Mark) (name : String) : Exec Nat :=
  match ctx.annotations.slot? t with
  | some slot => pure slot
  | none => blame ctx t (.unresolved name)

/-- The slot of the variable that an operator of another node writes to. -/
def targetSlot (ctx : Context) (node : Tree Mark) (symbol : String) (target : Tree Mark) :
    Exec Nat :=
  match target.name? with
  | some name => slotOf ctx target name
  | none => blame ctx node (.notAVariable symbol)

/-- Reads a slot for a variable. -/
def readSlot (ctx : Context) (t : Tree Mark) (slot : Nat) : Exec Value := fun m =>
  match m.stack.read slot with
  | .ok v => (.done v, m)
  | .error e => blame ctx t (.outOfBounds e) m

/-- Writes a slot for a variable. -/
def writeSlot (ctx : Context) (t : Tree Mark) (slot : Nat) (v : Value) : Exec Unit := fun m =>
  match m.stack.write slot v with
  | .ok stack => (.done (), { m with stack })
  | .error e => blame ctx t (.outOfBounds e) m

/-- Applies a binary operator for a node. -/
def applyBinary (ctx : Context) (t : Tree Mark) (op : BinaryOp) (l r : Value) : Exec Value :=
  match op.apply l r with
  | .ok v => pure v
  | .error e => blame ctx t (.arithmetic e)

/-- Writes the line of a printed value. -/
def printLine (ctx : Context) (t : Tree Mark) (v : Value) : Exec Unit := fun m =>
  match m.output.write (Text.encode (Value.chars v ++ ['\n'])) with
  | (.ok _, output) => (.done (), { m with output })
  | (.error e, output) => blame ctx t (.device e) { m with output }

/-- Counts a loop body that is about to start. -/
def countIteration (ctx : Context) (t : Tree Mark) : Exec Unit := fun m =>
  let m := { m with iterations := m.iterations + 1 }
  match ctx.limits.maxIterations with
  | some n => if n < m.iterations then blame ctx t (.iterationLimit n) m else (.done (), m)
  | none => (.done (), m)

mutual

/-- Evaluates a tree that is nested in `depth` other nodes. -/
def eval (ctx : Context) (depth : Nat) : Tree Mark → Exec (Option Value)
  | .literal a v => atDepth ctx depth (.literal a v) (pure (some v))
  | .input a => atDepth ctx depth (.input a) do
    let v ← readInput ctx (.input a)
    return some v
  | .var a name => atDepth ctx depth (.var a name) do
    let slot ← slotOf ctx (.var a name) name
    let v ← readSlot ctx (.var a name) slot
    return some v
  | .binary a op l r => atDepth ctx depth (.binary a op l r) do
    let x ← needValue ctx l (eval ctx (depth + 1) l)
    let y ← needValue ctx r (eval ctx (depth + 1) r)
    let v ← applyBinary ctx (.binary a op l r) op x y
    return some v
  | .unary a op t => atDepth ctx depth (.unary a op t) do
    if op.mutates then
      let slot ← targetSlot ctx (.unary a op t) op.symbol t
      let x ← readSlot ctx t slot
      writeSlot ctx t slot (op.apply x)
      return some (op.apply x)
    else
      let x ← needValue ctx t (eval ctx (depth + 1) t)
      return some (op.apply x)
  | .assign a t v => atDepth ctx depth (.assign a t v) do
    let slot ← targetSlot ctx (.assign a t v) "=" t
    let x ← needValue ctx v (eval ctx (depth + 1) v)
    writeSlot ctx t slot x
    return some x
  | .sequence a c none => atDepth ctx depth (.sequence a c none) (eval ctx (depth + 1) c)
  | .sequence a c (some r) => atDepth ctx depth (.sequence a c (some r)) do
    let _ ← eval ctx (depth + 1) c
    eval ctx (depth + 1) r
  | .block a ts => atDepth ctx depth (.block a ts) do
    evalStatements ctx (depth + 1) ts
    return none
  | .condition a t => atDepth ctx depth (.condition a t) do
    let x ← needValue ctx t (eval ctx (depth + 1) t)
    return some x
  | .ifElse a c t none => atDepth ctx depth (.ifElse a c t none) do
    let x ← needValue ctx c (eval ctx (depth + 1) c)
    let _ ← if Value.truthy x then eval ctx (depth + 1) t else pure none
    return none
  | .ifElse a c t (some e) => atDepth ctx depth (.ifElse a c t (some e)) do
    let x ← needValue ctx c (eval ctx (depth + 1) c)
    let _ ← if Value.truthy x then eval ctx (depth + 1) t else eval ctx (depth + 1) e
    return none
  | .whileLoop a c b => atDepth ctx depth (.whileLoop a c b) do
    Exec.loop
      (do
        let x ← needValue ctx c (eval ctx (depth + 1) c)
        return Value.truthy x)
      (do
        countIteration ctx (.whileLoop a c b)
        let _ ← eval ctx (depth + 1) b
        return ())
      ctx.patience
    return none
  | .print a t => atDepth ctx depth (.print a t) do
    let x ← needValue ctx t (eval ctx (depth + 1) t)
    printLine ctx (.print a t) x
    return some x

/-- Evaluates statements in order. -/
def evalStatements (ctx : Context) (depth : Nat) : List (Tree Mark) → Exec Unit
  | [] => pure ()
  | t :: ts => do
    let _ ← eval ctx depth t
    evalStatements ctx depth ts

end

/-- Evaluates a tree and flushes the output. A fault of the evaluation counts more than a failing
flush, for which the whole tree is to blame. -/
def run (ctx : Context) (root : Tree Mark) : Exec (Option Value) := fun m =>
  match eval ctx 0 root m with
  | (.done v, m) =>
    match m.output.flush with
    | .ok _ => (.done v, m)
    | .error e => blame ctx root (.device e) m
  | other => other

end Eval
end IntScript
