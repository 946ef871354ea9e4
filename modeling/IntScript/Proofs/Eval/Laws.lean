import IntScript.Eval

/-!
# Laws of execution

How the steps of an execution follow each other: a step that is done hands its result to the next
one, and a step that fails or is given up ends the whole. Loops are unrolled one round at a time.
-/

namespace IntScript

namespace Exec

variable {α β : Type} {x : Exec α} {f : α → Exec β} {m m' m'' : Machine}

/-- The next step goes on with the result of the one that is done. -/
theorem bind_done {a : α} (h : x m = (.done a, m')) : (x >>= f) m = f a m' := by
  change Exec.bind x f m = _
  rw [Exec.bind, h]

/-- A failure ends the whole. -/
theorem bind_failed {e : Fault} (h : x m = (.failed e, m')) : (x >>= f) m = (.failed e, m') := by
  change Exec.bind x f m = _
  rw [Exec.bind, h]

/-- Giving up ends the whole. -/
theorem bind_unfinished (h : x m = (.unfinished, m')) : (x >>= f) m = (.unfinished, m') := by
  change Exec.bind x f m = _
  rw [Exec.bind, h]

/-- Executions can be put together in any way. -/
instance : LawfulMonad Exec := LawfulMonad.mk' Exec
  (fun x => by
    funext m
    change Exec.bind x _ m = _
    rw [Exec.bind]
    rcases x m with ⟨a | e | _, m'⟩ <;> rfl)
  (fun a f => rfl)
  (fun x f g => by
    funext m
    change Exec.bind (Exec.bind x f) g m = Exec.bind x (fun a => Exec.bind (f a) g) m
    rw [Exec.bind, Exec.bind, Exec.bind]
    rcases x m with ⟨a | e | _, m'⟩ <;> rfl)

/-- A loop with patience left tests once and, if the test yields true, goes on behind its body. -/
theorem loop_succ (test : Exec Bool) (body : Exec Unit) (n : Nat) :
    loop test body (n + 1) =
      test >>= fun b => if b = true then body >>= fun _ => loop test body n else pure () := by
  funext m
  change _ = Exec.bind test _ m
  dsimp only [loop, Exec.bind]
  rcases test m with ⟨(_ | _) | e | _, m'⟩
  · rfl
  · change _ = Exec.bind body _ m'
    dsimp only [Exec.bind]
    rcases body m' with ⟨_ | e | _, m''⟩ <;> rfl
  · rfl
  · rfl

end Exec

namespace Eval

variable {ctx : Context} {d : Nat} {t : Tree Mark} {m m' : Machine}

/-- A node that is nested too deeply fails. -/
theorem atDepth_of_le {α : Type} (body : Exec α) (h : ctx.limits.maxDepth ≤ d) :
    atDepth ctx d t body = blame ctx t (.depthLimit d ctx.limits.maxDepth) := by
  rw [atDepth, if_pos h]

/-- A node that is not nested too deeply does what it does. -/
theorem atDepth_of_lt {α : Type} (body : Exec α) (h : d < ctx.limits.maxDepth) :
    atDepth ctx d t body = body := by
  rw [atDepth, if_neg (by omega)]

/-- The value that is needed is there. -/
theorem needValue_done {x : Exec (Option Value)} {v : Value} (h : x m = (.done (some v), m')) :
    needValue ctx t x m = (.done v, m') := by
  rw [needValue, Exec.bind_done h]
  rfl

/-- A failure on the way to a value is passed on. -/
theorem needValue_failed {x : Exec (Option Value)} {f : Fault} (h : x m = (.failed f, m')) :
    needValue ctx t x m = (.failed f, m') := by
  rw [needValue, Exec.bind_failed h]

/-- A loop body is counted if the limit allows one more. -/
theorem countIteration_of_le
    (h : ∀ n, ctx.limits.maxIterations = some n → m.iterations + 1 ≤ n) :
    countIteration ctx t m = (.done (), { m with iterations := m.iterations + 1 }) := by
  unfold countIteration
  cases hmax : ctx.limits.maxIterations with
  | none => rfl
  | some n =>
    have hle : ¬n < m.iterations + 1 := by
      have hn := h n hmax
      omega
    dsimp only
    rw [if_neg hle]

/-- A loop body that is one too many is counted and fails. -/
theorem countIteration_of_lt {n : Nat} (hmax : ctx.limits.maxIterations = some n)
    (hlt : n < m.iterations + 1) :
    countIteration ctx t m =
      blame ctx t (.iterationLimit n) { m with iterations := m.iterations + 1 } := by
  unfold countIteration
  rw [hmax]
  dsimp only
  rw [if_pos hlt]

/-- The outcome at a node of something that a device did or refused to do. -/
def deviceOutcome {ε α : Type} (located : Bool) (t : Tree Mark) (cause : ε → Fault.Cause) :
    Except ε α → Outcome Fault α
  | .ok a => .done a
  | .error e => .failed ⟨cause e, if located then t.span? else none⟩

/-- A number is read if the input has one. -/
theorem readInput_fst :
    (readInput ctx t m).1 = deviceOutcome ctx.located t Fault.Cause.ofInput m.input.next.1 := by
  rw [readInput]
  rcases m.input.next with ⟨_ | _, input⟩ <;> rfl

/-- Reading only changes the input. -/
theorem readInput_snd : (readInput ctx t m).2 = { m with input := m.input.next.2 } := by
  rw [readInput]
  rcases m.input.next with ⟨_ | _, input⟩ <;> rfl

/-- A line is printed if the output takes it. -/
theorem printLine_fst {v : Value} :
    (printLine ctx t v m).1 = deviceOutcome ctx.located t Fault.Cause.device
      (m.output.write (Text.encode (Value.chars v ++ ['\n']))).1 := by
  rw [printLine]
  rcases m.output.write _ with ⟨_ | _, output⟩ <;> rfl

/-- Printing only changes the output. -/
theorem printLine_snd {v : Value} :
    (printLine ctx t v m).2 =
      { m with output := (m.output.write (Text.encode (Value.chars v ++ ['\n']))).2 } := by
  rw [printLine]
  rcases m.output.write _ with ⟨_ | _, output⟩ <;> rfl

/-- Evaluates a tree for what it does and not for its value. -/
def exec (ctx : Context) (d : Nat) (t : Tree Mark) : Exec Unit := do
  let _ ← eval ctx d t
  return ()

/-- Tests the condition of a loop. -/
def test (ctx : Context) (d : Nat) (c : Tree Mark) : Exec Bool := do
  let x ← needValue ctx c (eval ctx d c)
  return Value.truthy x

/-- Counts and executes the body of a loop. -/
def round (ctx : Context) (d : Nat) (loop body : Tree Mark) : Exec Unit := do
  countIteration ctx loop
  exec ctx d body

/-- No tree is evaluated that is nested too deeply. -/
theorem exec_of_le (h : ctx.limits.maxDepth ≤ d) :
    exec ctx d t = blame ctx t (.depthLimit d ctx.limits.maxDepth) := by
  have heval : eval ctx d t = blame ctx t (.depthLimit d ctx.limits.maxDepth) := by
    cases t with
    | sequence a c rest => cases rest <;> rw [eval, atDepth_of_le _ h]
    | ifElse a c t e => cases e <;> rw [eval, atDepth_of_le _ h]
    | _ => rw [eval, atDepth_of_le _ h]
  rw [exec, heval]
  rfl

variable (h : d < ctx.limits.maxDepth)
include h

/-- An expression in the place of a statement is evaluated. -/
theorem exec_expression (a : Mark) (e : Tree Mark) :
    exec ctx d (.sequence a e none) = exec ctx (d + 1) e := by
  rw [exec, eval, atDepth_of_lt _ h]
  rfl

/-- The statements of a block are executed. -/
theorem exec_block (a : Mark) (ts : List (Tree Mark)) :
    exec ctx d (.block a ts) = evalStatements ctx (d + 1) ts := by
  rw [exec, eval, atDepth_of_lt _ h]
  simp only [bind_assoc, pure_bind]
  exact bind_pure _

/-- The value of the condition decides between the branches. -/
theorem exec_ifElse (a : Mark) (c t : Tree Mark) (e : Option (Tree Mark)) :
    exec ctx d (.ifElse a c t e) = needValue ctx c (eval ctx (d + 1) c) >>= fun x =>
      if Value.truthy x = true then exec ctx (d + 1) t
      else match e with
        | some e => exec ctx (d + 1) e
        | none => pure () := by
  cases e with
  | none =>
    rw [exec, eval, atDepth_of_lt _ h]
    simp only [bind_assoc, pure_bind, exec]
    refine congrArg _ (funext fun x => ?_)
    split
    · rw [bind_assoc]
      rfl
    · rfl
  | some e =>
    rw [exec, eval, atDepth_of_lt _ h]
    simp only [bind_assoc, exec]
    refine congrArg _ (funext fun x => ?_)
    split
    · rw [bind_assoc]
      rfl
    · rw [bind_assoc]
      rfl

/-- A loop tests its condition, counts and executes its body. -/
theorem exec_whileLoop (a : Mark) (c b : Tree Mark) :
    exec ctx d (.whileLoop a c b) =
      Exec.loop (test ctx (d + 1) c) (round ctx (d + 1) (.whileLoop a c b) b) ctx.patience := by
  rw [exec, eval, atDepth_of_lt _ h]
  simp only [bind_assoc, pure_bind]
  exact bind_pure _

omit h

/-- Statements are executed in order. -/
theorem evalStatements_cons (t : Tree Mark) (ts : List (Tree Mark)) :
    evalStatements ctx d (t :: ts) = exec ctx d t >>= fun _ => evalStatements ctx d ts := by
  rw [evalStatements, exec]
  simp only [bind_assoc, pure_bind]

/-- Flushes the output at the end of a program. -/
def finish (ctx : Context) (root : Tree Mark) : Exec Unit := fun m =>
  match m.output.flush with
  | .ok _ => (.done (), m)
  | .error e => blame ctx root (.device e) m

/-- A run evaluates its tree, flushes the output and gives the value of the tree. -/
theorem run_eq_bind (ctx : Context) (root : Tree Mark) :
    run ctx root = eval ctx 0 root >>= fun v => finish ctx root >>= fun _ => pure v := by
  funext m
  rcases heval : eval ctx 0 root m with ⟨v | f | _, m'⟩
  · rw [Exec.bind_done heval, run, heval]
    change _ = Exec.bind (finish ctx root) _ m'
    dsimp only [Exec.bind, finish]
    cases m'.output.flush <;> rfl
  · rw [Exec.bind_failed heval, run, heval]
  · rw [Exec.bind_unfinished heval, run, heval]

end Eval
end IntScript
