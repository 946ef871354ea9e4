import IntScript.Proofs.Eval.Coupling
import IntScript.Proofs.Eval.Keeping

/-!
# Evaluators

An evaluator is a machine that is kept from one evaluation to the next, with a counter for the nodes
that it is inside of: the counter goes up before anything is done at a node and down again behind
it, however that ends. It is watched at its work, and its history lists the nodes that it comes to,
the loop conditions that come out true and the loop bodies that are started.

An evaluator does what an evaluation does in which every node is told how deeply it is nested, and
its counter is always where it was before. So whatever was evaluated before, an evaluator starts
with its counter at zero. Facts about histories are proved for all evaluations at once, from what
holds of their steps.
-/

namespace IntScript

open IntScript.Eval (Context)

/-- What is noted about an evaluation. -/
inductive Event where
  /-- It comes to a node that is nested in `depth` other nodes. -/
  | reached (depth : Nat) (node : Tree Mark)
  /-- The condition of a loop comes out true. -/
  | passed (loop : Tree Mark)
  /-- The body of a loop is started. -/
  | started (loop : Tree Mark)

/-- An evaluator at some point of its life. -/
structure Evaluator where
  /-- The machine that it works on. -/
  machine : Machine
  /-- The number of nodes that it is inside of. -/
  depth : Nat
  /-- What was noted so far. -/
  history : List Event

namespace Evaluator

/-- The evaluator with one more event noted. -/
def note (e : Evaluator) (event : Event) : Evaluator := { e with history := e.history ++ [event] }

/-- The evaluator with another number of nodes that it is inside of. -/
def atDepth (e : Evaluator) (depth : Nat) : Evaluator := { e with depth }

end Evaluator

/-- Something that an evaluator does, with results of type `α`. -/
def Evaluation (α : Type) : Type := Evaluator → Outcome Fault α × Evaluator

namespace Evaluation

/-- Nothing is done. -/
protected def pure {α : Type} (a : α) : Evaluation α := fun e => (.done a, e)

/-- One thing is done, then another that depends on its result. A failure ends the whole. -/
protected def bind {α β : Type} (x : Evaluation α) (f : α → Evaluation β) : Evaluation β := fun e =>
  match x e with
  | (.done a, e) => f a e
  | (.failed f, e) => (.failed f, e)
  | (.unfinished, e) => (.unfinished, e)

instance : Monad Evaluation where
  pure := Evaluation.pure
  bind := Evaluation.bind

/-- What the machine of an evaluator does. -/
def ofExec {α : Type} (x : Exec α) : Evaluation α := fun e =>
  ((x e.machine).1, { e with machine := (x e.machine).2 })

/-- An event is noted. -/
def note (event : Event) : Evaluation Unit := fun e => (.done (), e.note event)

/-- Comes to a node and, unless it is nested too deeply, does something inside of it. -/
def atNode {α : Type} (ctx : Context) (t : Tree Mark) (body : Evaluation α) : Evaluation α :=
  fun e =>
    if ctx.limits.maxDepth ≤ e.depth then
      ofExec (Eval.blame ctx t (.depthLimit e.depth ctx.limits.maxDepth))
        (e.note (.reached e.depth t))
    else
      let r := body ((e.note (.reached e.depth t)).atDepth (e.depth + 1))
      (r.1, r.2.atDepth (r.2.depth - 1))

/-- Starts the body of a loop whose condition has come out true. -/
def startBody (ctx : Context) (loop : Tree Mark) : Evaluation Unit := do
  note (.passed loop)
  ofExec (Eval.countIteration ctx loop)
  note (.started loop)

/-- The steps of an evaluator. -/
def steps (ctx : Context) : Steps Evaluation where
  atNode := atNode ctx
  blame t cause := ofExec (Eval.blame ctx t cause)
  giveUp := ofExec Exec.giveUp
  ask t := ofExec (Eval.readInput ctx t)
  load t slot := ofExec (Eval.readSlot ctx t slot)
  store t slot v := ofExec (Eval.writeSlot ctx t slot v)
  print t v := ofExec (Eval.printLine ctx t v)
  count := startBody ctx

/-- Comes to a node and does what is done inside of it. -/
def visit (ctx : Context) (t : Tree Mark) : Evaluation (Option Value) := (steps ctx).visit ctx t

/-- Evaluates a tree and flushes the output. -/
def run (ctx : Context) (root : Tree Mark) : Evaluation (Option Value) := do
  let v ← visit ctx root
  ofExec (Eval.finish ctx root)
  return v

section Laws

variable {α β : Type} {x : Evaluation α} {f : α → Evaluation β} {e e' : Evaluator}

/-- What is done next goes on with the result. -/
theorem bind_done {a : α} (h : x e = (.done a, e')) : (x >>= f) e = f a e' := by
  change Evaluation.bind x f e = _
  rw [Evaluation.bind, h]

/-- A failure ends the whole. -/
theorem bind_failed {fault : Fault} (h : x e = (.failed fault, e')) :
    (x >>= f) e = (.failed fault, e') := by
  change Evaluation.bind x f e = _
  rw [Evaluation.bind, h]

/-- Giving up ends the whole. -/
theorem bind_unfinished (h : x e = (.unfinished, e')) : (x >>= f) e = (.unfinished, e') := by
  change Evaluation.bind x f e = _
  rw [Evaluation.bind, h]

/-- What the machine does, the evaluator does. -/
theorem ofExec_eq {y : Exec α} {o : Outcome Fault α} {m : Machine} (h : y e.machine = (o, m)) :
    ofExec y e = (o, { e with machine := m }) := by
  rw [ofExec, h]

/-- What holds of all ways in which one thing after another can go. -/
theorem bind_cases {motive : Outcome Fault β → Evaluator → Prop}
    (done : ∀ a e', x e = (.done a, e') → motive (f a e').1 (f a e').2)
    (failed : ∀ fault e', x e = (.failed fault, e') → motive (.failed fault) e')
    (unfinished : ∀ e', x e = (.unfinished, e') → motive .unfinished e') :
    motive ((x >>= f) e).1 ((x >>= f) e).2 := by
  rcases hx : x e with ⟨a | fault | _, e'⟩
  · rw [bind_done hx]
    exact done a e' hx
  · rw [bind_failed hx]
    exact failed fault e' hx
  · rw [bind_unfinished hx]
    exact unfinished e' hx

end Laws

/-- At the given depth an evaluator does on its machine what an execution does, and ends at the same
depth, however it ends. -/
def Agrees {α : Type} (d : Nat) (x : Evaluation α) (y : Exec α) : Prop :=
  ∀ e, e.depth = d →
    (x e).1 = (y e.machine).1 ∧ (x e).2.machine = (y e.machine).2 ∧ (x e).2.depth = d

namespace Agrees

variable {α β : Type} {d : Nat} {ctx : Context} {t : Tree Mark}

/-- An evaluator works on its machine. -/
theorem ofExec (y : Exec α) : Agrees d (Evaluation.ofExec y) y := fun _ he => ⟨rfl, rfl, he⟩

/-- Nothing is done to the machine either. -/
theorem pure (a : α) : Agrees d (Pure.pure a) (Pure.pure a) := fun _ he => ⟨rfl, rfl, he⟩

/-- One thing after another. -/
theorem bind {x : Evaluation α} {y : Exec α} {f : α → Evaluation β} {g : α → Exec β}
    (h : Agrees d x y) (hf : ∀ a, Agrees d (f a) (g a)) : Agrees d (x >>= f) (y >>= g) := by
  intro e he
  obtain ⟨houtcome, hmachine, hdepth⟩ := h e he
  rcases hx : x e with ⟨o, e'⟩
  rcases hy : y e.machine with ⟨o', m⟩
  rw [hx, hy] at houtcome
  rw [hx, hy] at hmachine
  rw [hx] at hdepth
  dsimp only at houtcome hmachine hdepth
  subst houtcome hmachine
  cases o with
  | done a =>
    rw [bind_done hx, Exec.bind_done hy]
    exact hf a e' hdepth
  | failed fault =>
    rw [bind_failed hx, Exec.bind_failed hy]
    exact ⟨rfl, rfl, hdepth⟩
  | unfinished =>
    rw [bind_unfinished hx, Exec.bind_unfinished hy]
    exact ⟨rfl, rfl, hdepth⟩

/-- A result passed through a function. -/
theorem map {x : Evaluation α} {y : Exec α} (h : Agrees d x y) (f : α → β) :
    Agrees d (x >>= fun a => Pure.pure (f a)) (y >>= fun a => Pure.pure (f a)) :=
  h.bind fun _ => .pure _

/-- The counter goes up and down again around what is done inside of a node. -/
theorem atNode {x : Evaluation α} {y : Exec α} (h : Agrees (d + 1) x y) :
    Agrees d (Evaluation.atNode ctx t x) (Eval.atDepth ctx d t y) := by
  rintro e rfl
  unfold Evaluation.atNode Eval.atDepth
  split
  · exact ⟨rfl, rfl, rfl⟩
  · obtain ⟨houtcome, hmachine, hdepth⟩ :=
      h ((e.note (.reached e.depth t)).atDepth (e.depth + 1)) rfl
    refine ⟨houtcome, hmachine, ?_⟩
    change _ - 1 = e.depth
    rw [hdepth, Nat.add_sub_cancel]

/-- The body of a loop is counted alike. -/
theorem startBody (d : Nat) (ctx : Context) (t : Tree Mark) :
    Agrees d (Evaluation.startBody ctx t) (Eval.countIteration ctx t) := by
  have hpass : ∀ {event : Event} {x : Evaluation Unit} {y : Exec Unit}, Agrees d x y →
      Agrees d (Evaluation.note event >>= fun _ => x) y :=
    fun hxy e he => hxy (e.note _) he
  have hstart : Agrees d (Evaluation.ofExec (Eval.countIteration ctx t) >>= fun _ =>
      Evaluation.note (.started t)) (Eval.countIteration ctx t >>= fun _ => Pure.pure ()) :=
    (ofExec _).bind fun _ _ he => ⟨rfl, rfl, he⟩
  rw [bind_pure_unit] at hstart
  exact hpass hstart

/-- All steps are made alike. -/
theorem related (ctx : Context) :
    Steps.Related (steps ctx) (Eval.steps ctx) ctx ctx fun _ {_} x y => ∀ d, Agrees d x (y d) where
  annotations := rfl
  pure a _ := .pure a
  bind hxy hf d := (hxy d).bind fun a => hf a d
  blame _ _ := .ofExec _
  ask _ := .ofExec _
  load _ _ _ _ := .ofExec _
  store _ _ _ _ _ := .ofExec _
  print _ _ := .ofExec _
  loop htest hbody :=
    Steps.loop_related
      (R := fun {α} (x : Evaluation α) (y : ReaderT Nat Exec α) => ∀ d, Agrees d x (y d))
      (fun _ => .pure ()) (fun hxy hf d => (hxy d).bind fun a => hf a d) (fun _ => .ofExec _) htest
      (fun d => (startBody d ctx _).bind fun _ => hbody d) _
  visit _ hxy d := .atNode (hxy (d + 1))

end Agrees

/-- An evaluator evaluates a tree as if every node were told how deeply it is nested. -/
theorem agrees_visit (ctx : Context) (t : Tree Mark) (d : Nat) :
    Agrees d (visit ctx t) (Eval.eval ctx d t) := by
  rw [Eval.eval_eq]
  exact .atNode ((Agrees.related ctx).inside t (d + 1))

/-- An evaluator that is inside of no node runs a tree and is inside of no node again, however the
run ends. -/
theorem agrees_run (ctx : Context) (root : Tree Mark) :
    Agrees 0 (run ctx root) (Eval.run ctx root) := by
  rw [Eval.run_eq_bind]
  exact (agrees_visit ctx root 0).bind fun v => (Agrees.ofExec _).map _

end Evaluation

end IntScript
