import IntScript.Proofs.Eval.Keeping

/-!
# The course of an evaluation

An evaluation is a dialogue with its machine: it asks for a number, loads or stores a slot, prints a
value or counts a loop body, and goes on with the answer. Its course is that dialogue for all
answers that there may be, as a tree that branches at the answers. On the way it also tells which
node it comes to and which value a node yields, which the machine takes note of without doing
anything.

A course that is carried out on a machine is the evaluation itself. So what is proved about all
courses by induction on their steps is proved about all evaluations.
-/

namespace IntScript

open IntScript.Eval (Context faultAt)

/-- A step of an evaluation. -/
inductive Request where
  /-- It comes to a node. -/
  | come (node : Tree Mark)
  /-- A node yields a value. -/
  | yield (node : Tree Mark) (value : Value)
  /-- A node needs the next number of the input. -/
  | ask (node : Tree Mark)
  /-- A variable needs the value of its slot. -/
  | load (node : Tree Mark) (slot : Nat)
  /-- A variable gets a value into its slot. -/
  | store (node : Tree Mark) (slot : Nat) (value : Value)
  /-- A node prints a value. -/
  | print (node : Tree Mark) (value : Value)
  /-- The body of a loop is about to start. -/
  | count (loop : Tree Mark)

namespace Request

/-- What a machine answers. -/
abbrev Answer : Request → Type
  | .ask _ | .load .. => Value
  | _ => Unit

/-- What a machine does. -/
def exec (ctx : Context) : (r : Request) → Exec r.Answer
  | .come _ | .yield .. => pure ()
  | .ask node => Eval.readInput ctx node
  | .load node slot => Eval.readSlot ctx node slot
  | .store node slot v => Eval.writeSlot ctx node slot v
  | .print node v => Eval.printLine ctx node v
  | .count loop => Eval.countIteration ctx loop

end Request

/-- The course of an execution with results of type `α`. -/
inductive Course (α : Type) where
  /-- It is done. -/
  | done (result : α)
  /-- It fails for a reason that does not lie in the machine. -/
  | failed (fault : Fault)
  /-- It is given up. -/
  | unfinished
  /-- It makes a step and goes on with the answer. -/
  | step (request : Request) (next : request.Answer → Course α)

namespace Course

variable {α β : Type}

/-- One course and then another that depends on its result. -/
protected def bind : Course α → (α → Course β) → Course β
  | .done a, f => f a
  | .failed e, _ => .failed e
  | .unfinished, _ => .unfinished
  | .step r next, f => .step r fun answer => (next answer).bind f

instance : Monad Course where
  pure := .done
  bind := Course.bind

/-- Carries out a course. -/
def exec (ctx : Context) : Course α → Exec α
  | .done a => pure a
  | .failed e => Exec.fail e
  | .unfinished => Exec.giveUp
  | .step r next => r.exec ctx >>= fun answer => (next answer).exec ctx

/-- A single step. -/
def perform (r : Request) : Course r.Answer := .step r .done

/-- A node is blamed. -/
def blame (ctx : Context) (t : Tree Mark) (cause : Fault.Cause) : Course α :=
  .failed (faultAt ctx t cause)

/-- Tells what a node yields. -/
def announce (t : Tree Mark) : Option Value → Course (Option Value)
  | some v => .step (.yield t v) fun _ => pure (some v)
  | none => pure none

/-- Comes to a node and, unless it is nested too deeply, does something there and tells what that
yields. -/
def atNode (ctx : Context) (depth : Nat) (t : Tree Mark) (body : Course (Option Value)) :
    Course (Option Value) :=
  .step (.come t) fun _ =>
    if ctx.limits.maxDepth ≤ depth then blame ctx t (.depthLimit depth ctx.limits.maxDepth)
    else body >>= announce t

/-- The steps of a course that is told how deeply it is nested. -/
def steps (ctx : Context) : Steps (ReaderT Nat Course) where
  atNode t body := fun depth => atNode ctx depth t (body (depth + 1))
  blame t cause := fun _ => blame ctx t cause
  giveUp := fun _ => .unfinished
  ask t := fun _ => perform (.ask t)
  load t slot := fun _ => perform (.load t slot)
  store t slot v := fun _ => perform (.store t slot v)
  print t v := fun _ => perform (.print t v)
  count t := fun _ => perform (.count t)

/-- The course of the evaluation of a tree that is nested in `depth` other nodes. -/
def ofTree (ctx : Context) (depth : Nat) (t : Tree Mark) : Course (Option Value) :=
  (steps ctx).visit ctx t depth

section Exec

variable {ctx : Context} {d : Nat} {t : Tree Mark}

/-- One course after another is one execution after another. -/
theorem exec_bind (x : Course α) (f : α → Course β) :
    (x >>= f).exec ctx = x.exec ctx >>= fun a => (f a).exec ctx := by
  induction x with
  | done a => rfl
  | failed e => rfl
  | unfinished => rfl
  | step r next ih =>
    change (r.exec ctx >>= fun answer => (next answer >>= f).exec ctx) = _
    rw [exec, bind_assoc]
    exact congrArg _ (funext ih)

/-- A course carries out an execution. -/
def Does (ctx : Context) (x : Course α) (y : Exec α) : Prop := x.exec ctx = y

namespace Does

/-- Nothing is done. -/
theorem pure (a : α) : Does ctx (Pure.pure a) (Pure.pure a) := rfl

/-- A node is blamed. -/
theorem blame (cause : Fault.Cause) : Does ctx (Course.blame (α := α) ctx t cause)
    (Eval.blame ctx t cause) := rfl

/-- A loop is given up. -/
theorem giveUp : Does ctx (Course.unfinished (α := α)) Exec.giveUp := rfl

/-- A single step is what the machine does. -/
theorem perform (r : Request) : Does ctx (Course.perform r) (r.exec ctx) := bind_pure _

/-- One thing after another. -/
theorem bind {x : Course α} {y : Exec α} {f : α → Course β} {g : α → Exec β} (h : Does ctx x y)
    (hf : ∀ a, Does ctx (f a) (g a)) : Does ctx (x >>= f) (y >>= g) := by
  have hnext : (fun a => (f a).exec ctx) = g := funext hf
  rw [Does, exec_bind, h, hnext]

/-- Coming to a node is checking its depth, since notes do nothing to the machine. -/
theorem atNode {x : Course (Option Value)} {y : Exec (Option Value)} (h : Does ctx x y) :
    Does ctx (Course.atNode ctx d t x) (Eval.atDepth ctx d t y) := by
  have hannounce : ∀ o, Does ctx (announce t o) (Pure.pure o) := by
    intro o
    cases o <;> rfl
  have hbody := h.bind hannounce
  rw [bind_pure] at hbody
  rw [Does, Course.atNode, exec, Request.exec, pure_bind, Eval.atDepth]
  split
  · rfl
  · exact hbody

/-- All steps are those of an execution. -/
theorem related (ctx : Context) :
    Steps.Related (steps ctx) (Eval.steps ctx) ctx ctx
      fun _ {_} x y => ∀ d, Does ctx (x d) (y d) where
  annotations := rfl
  pure a _ := .pure a
  bind hxy hf d := (hxy d).bind fun a => hf a d
  blame _ _ := .blame _
  ask _ := .perform (.ask _)
  load _ _ _ _ := .perform (.load _ _)
  store v _ _ _ _ := .perform (.store _ _ v)
  print v _ := .perform (.print _ v)
  loop htest hbody :=
    Steps.loop_related
      (R := fun {α} (x : ReaderT Nat Course α) (y : ReaderT Nat Exec α) => ∀ d, Does ctx (x d) (y d))
      (fun _ => .pure ()) (fun hxy hf d => (hxy d).bind fun a => hf a d) (fun _ => .giveUp) htest
      (fun d => (Does.perform (.count _)).bind fun _ => hbody d) _
  visit _ hxy d := .atNode (hxy (d + 1))

end Does

/-- The course of a tree is that of its evaluation. -/
theorem does_ofTree (ctx : Context) (t : Tree Mark) (d : Nat) :
    Does ctx (ofTree ctx d t) (Eval.eval ctx d t) := by
  rw [Eval.eval_eq]
  exact .atNode ((Does.related ctx).inside t (d + 1))

end Exec

end Course
end IntScript
