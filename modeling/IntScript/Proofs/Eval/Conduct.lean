import IntScript.Proofs.Eval.Evaluator

/-!
# What holds of all evaluations

A property of evaluations holds of all trees if it holds of the steps that evaluations are made of
and passes from parts to wholes. Most steps are quiet: they end, count no loop bodies and reach no
limit. The others come to a child of a node that is to be evaluated, or start the body of a loop.

An evaluator can be used again and again. Its life is the list of evaluations that it has ended, in
success or in failure.
-/

namespace IntScript

open IntScript.Eval (Context)

/-- An execution that always ends, counts no loop bodies and reaches no limit. -/
structure Exec.IsQuiet {α : Type} (x : Exec α) : Prop where
  /-- It is not given up. -/
  ends : ∀ m, (x m).1 ≠ .unfinished
  /-- No loop bodies are counted. -/
  iterations : ∀ m, (x m).2.iterations = m.iterations
  /-- No limit is reached. -/
  unlimited : ∀ m f, (x m).1 = .failed f → ¬f.cause.IsLimit

namespace Eval

variable {α : Type} {ctx : Context} {t : Tree Mark}

/-- Nothing is done quietly. -/
theorem isQuiet_pure (a : α) : (pure a : Exec α).IsQuiet :=
  ⟨fun _ => nofun, fun _ => rfl, fun _ _ hf => nomatch hf⟩

/-- A node is blamed quietly, unless it is for a limit. -/
theorem isQuiet_blame {cause : Fault.Cause} (h : ¬cause.IsLimit) :
    (blame (α := α) ctx t cause).IsQuiet := by
  refine ⟨fun _ => nofun, fun _ => rfl, fun m f hf => ?_⟩
  cases hf
  exact h

/-- An execution is quiet if it changes the machine and then does something quiet. -/
theorem isQuiet_of_step {x : Exec α}
    (h : ∀ m, ∃ (m' : Machine) (y : Exec α), x m = y m' ∧ y.IsQuiet ∧
      m'.iterations = m.iterations) : x.IsQuiet := by
  refine ⟨fun m => ?_, fun m => ?_, fun m f hf => ?_⟩
  · obtain ⟨m', y, hx, hy, -⟩ := h m
    rw [hx]
    exact hy.ends m'
  · obtain ⟨m', y, hx, hy, hm'⟩ := h m
    rw [hx, hy.iterations m', hm']
  · obtain ⟨m', y, hx, hy, -⟩ := h m
    rw [hx] at hf
    exact hy.unlimited m' f hf

/-- A number is read quietly. -/
theorem isQuiet_readInput (ctx : Context) (t : Tree Mark) : (readInput ctx t).IsQuiet := by
  refine isQuiet_of_step fun m => ?_
  unfold readInput
  split
  · exact ⟨_, pure _, rfl, isQuiet_pure _, rfl⟩
  case h_2 e input _ =>
    refine ⟨_, blame ctx t _, rfl, isQuiet_blame ?_, rfl⟩
    cases e <;> exact id

/-- A line is printed quietly. -/
theorem isQuiet_printLine (ctx : Context) (t : Tree Mark) (v : Value) :
    (printLine ctx t v).IsQuiet := by
  refine isQuiet_of_step fun m => ?_
  unfold printLine
  split
  · exact ⟨_, pure _, rfl, isQuiet_pure _, rfl⟩
  · exact ⟨_, blame ctx t _, rfl, isQuiet_blame id, rfl⟩

/-- A slot is read quietly. -/
theorem isQuiet_readSlot (ctx : Context) (t : Tree Mark) (slot : Nat) :
    (readSlot ctx t slot).IsQuiet := by
  refine isQuiet_of_step fun m => ?_
  unfold readSlot
  split
  · exact ⟨_, pure _, rfl, isQuiet_pure _, rfl⟩
  · exact ⟨_, blame ctx t _, rfl, isQuiet_blame id, rfl⟩

/-- A slot is written quietly. -/
theorem isQuiet_writeSlot (ctx : Context) (t : Tree Mark) (slot : Nat) (v : Value) :
    (writeSlot ctx t slot v).IsQuiet := by
  refine isQuiet_of_step fun m => ?_
  unfold writeSlot
  split
  · exact ⟨_, pure _, rfl, isQuiet_pure _, rfl⟩
  · exact ⟨_, blame ctx t _, rfl, isQuiet_blame id, rfl⟩

/-- The output is flushed quietly. -/
theorem isQuiet_finish (ctx : Context) (t : Tree Mark) : (finish ctx t).IsQuiet := by
  refine isQuiet_of_step fun m => ?_
  unfold finish
  split
  · exact ⟨_, pure _, rfl, isQuiet_pure _, rfl⟩
  · exact ⟨_, blame ctx t _, rfl, isQuiet_blame id, rfl⟩

end Eval

/-- The fault that is the outcome of a failure. -/
def Outcome.fault? {ε α : Type} : Outcome ε α → Option ε
  | .failed f => some f
  | _ => none

/-- Only failures have faults. -/
theorem Outcome.mem_fault? {ε α : Type} {o : Outcome ε α} {f : ε} :
    f ∈ o.fault? ↔ o = .failed f := by
  cases o <;> simp [fault?, eq_comm]

namespace Evaluation

/-- A property of what is done inside of a node holds of quiet steps, passes to one thing after
another and to loops, and holds of coming to a child if it holds of what is done inside of the
child. -/
structure Closed (ctx : Context) (P : Tree Mark → ∀ {α : Type}, Evaluation α → Prop) : Prop where
  /-- It holds of quiet steps. -/
  quiet : ∀ {t : Tree Mark} {α : Type} {y : Exec α}, y.IsQuiet → P t (ofExec y)
  /-- It passes to one thing after another. -/
  bind : ∀ {t : Tree Mark} {α β : Type} {x : Evaluation α} {f : α → Evaluation β}, P t x →
    (∀ a, P t (f a)) → P t (x >>= f)
  /-- It passes to the loop that a node stands for. -/
  loop : ∀ {t : Tree Mark} {test : Evaluation Bool} {body : Evaluation Unit}, P t test →
    P t body → P t ((steps ctx).loop test (startBody ctx t >>= fun _ => body) ctx.patience)
  /-- It passes from a child to its node. -/
  visit : ∀ {t c : Tree Mark} {x : Evaluation (Option Value)}, c ∈ t.evaluated → P c x →
    P t (atNode ctx c x)

namespace Closed

variable {ctx : Context} {P : Tree Mark → ∀ {α : Type}, Evaluation α → Prop} {t c : Tree Mark}
  {α β : Type}

/-- It holds of doing nothing. -/
theorem pure (h : Closed ctx P) (a : α) : P t (Pure.pure a : Evaluation α) :=
  h.quiet (Eval.isQuiet_pure a)

/-- It holds of all steps. -/
theorem related (h : Closed ctx P) :
    Steps.Related (steps ctx) (steps ctx) ctx ctx fun t {_} x _ => P t x where
  annotations := rfl
  pure := h.pure
  bind := h.bind
  blame hblames := h.quiet (Eval.isQuiet_blame (by cases hblames <;> exact id))
  ask := h.quiet (Eval.isQuiet_readInput ctx _)
  load _ _ _ := h.quiet (Eval.isQuiet_readSlot ctx _ _)
  store v _ _ _ := h.quiet (Eval.isQuiet_writeSlot ctx _ _ v)
  print v := h.quiet (Eval.isQuiet_printLine ctx _ v)
  loop := h.loop
  visit := h.visit

/-- It holds of what is done inside of every node. -/
theorem inside (h : Closed ctx P) (t : Tree Mark) : P t ((steps ctx).inside ctx t) :=
  h.related.inside t

end Closed

/-- A relation between an evaluator before something is done, the fault of what is done, if there
is one, and the evaluator after it. It holds of quiet steps and can be put together. -/
structure IsPassage (R : Evaluator → Option Fault → Evaluator → Prop) : Prop where
  /-- Quiet steps leave the counters and the history as they are. -/
  quiet : ∀ {e e' : Evaluator} {fault : Option Fault}, e'.history = e.history →
    e'.depth = e.depth → e'.machine.iterations = e.machine.iterations →
    (∀ f ∈ fault, ¬f.cause.IsLimit) → R e fault e'
  /-- What is done without a fault can be gone on with. -/
  trans : ∀ {e₁ e₂ e₃ : Evaluator} {fault : Option Fault}, R e₁ none e₂ → R e₂ fault e₃ →
    R e₁ fault e₃

/-- Something is done in the way of a relation. -/
def Follows {α : Type} (R : Evaluator → Option Fault → Evaluator → Prop) (x : Evaluation α) :
    Prop :=
  ∀ e, R e (x e).1.fault? (x e).2

namespace IsPassage

variable {R : Evaluator → Option Fault → Evaluator → Prop} {α β : Type}

/-- Quiet steps follow the relation. -/
theorem ofExec (h : IsPassage R) {y : Exec α} (hy : y.IsQuiet) :
    (Evaluation.ofExec y).Follows R := by
  intro e
  refine h.quiet rfl rfl (hy.iterations e.machine) fun f hf => ?_
  exact hy.unlimited e.machine f (Outcome.mem_fault?.1 hf)

/-- One thing after another follows the relation. -/
theorem bind (h : IsPassage R) {x : Evaluation α} {f : α → Evaluation β} (hx : x.Follows R)
    (hf : ∀ a, (f a).Follows R) : (x >>= f).Follows R := by
  intro e
  have hxe := hx e
  refine bind_cases (motive := fun o e' => R e o.fault? e') (fun a e' hdone => ?_)
    (fun fault e' hfailed => ?_) fun e' hunfinished => ?_
  · rw [hdone] at hxe
    exact h.trans hxe (hf a e')
  · rw [hfailed] at hxe
    exact hxe
  · rw [hunfinished] at hxe
    exact hxe

/-- The rounds of a loop follow the relation. -/
theorem loop (h : IsPassage R) {ctx : Context} {test : Evaluation Bool} {body : Evaluation Unit}
    (htest : test.Follows R) (hbody : body.Follows R) (patience : Nat) :
    ((steps ctx).loop test body patience).Follows R := by
  induction patience with
  | zero => exact fun e => h.quiet rfl rfl rfl fun f hf => by cases hf
  | succ patience ih =>
    refine h.bind htest fun b => ?_
    cases b with
    | true => exact h.bind hbody fun _ => ih
    | false => exact h.ofExec (Eval.isQuiet_pure ())

/-- A run follows the relation if coming to the root does. -/
theorem run (h : IsPassage R) {ctx : Context} {root : Tree Mark}
    (hvisit : (Evaluation.visit ctx root).Follows R) : (Evaluation.run ctx root).Follows R := by
  refine h.bind hvisit fun v => h.bind (h.ofExec (Eval.isQuiet_finish ctx root)) fun _ => ?_
  exact h.ofExec (Eval.isQuiet_pure v)

end IsPassage

/-- Relations for what is done inside of nodes hold of all that is done there if they hold of the
steps. -/
theorem closed_follows {ctx : Context} {R : Tree Mark → Evaluator → Option Fault → Evaluator → Prop}
    (hpassage : ∀ t, IsPassage (R t)) (hstart : ∀ t, (startBody ctx t).Follows (R t))
    (hvisit : ∀ {t c : Tree Mark} {x : Evaluation (Option Value)}, c ∈ t.evaluated →
      x.Follows (R c) → (atNode ctx c x).Follows (R t)) :
    Closed ctx fun t {_} x => x.Follows (R t) where
  quiet := (hpassage _).ofExec
  bind := (hpassage _).bind
  loop htest hbody := (hpassage _).loop htest ((hpassage _).bind (hstart _) fun _ => hbody) _
  visit := hvisit

end Evaluation

/-- The life of an evaluator under the given limits: it starts with its counters at zero, and then
it evaluates one tree after another, each resolved in its own way and with or without spans. The
list holds how the evaluations ended so far. -/
inductive Evaluator.Life (limits : Limits) : List (Outcome Fault (Option Value)) → Evaluator → Prop
  /-- The evaluator is new. -/
  | new (stack : Stack) (input : Input) (output : Output) :
    Life limits [] ⟨⟨stack, input, output, 0⟩, 0, []⟩
  /-- One more tree is evaluated, and that ends. -/
  | next {past : List (Outcome Fault (Option Value))} {e : Evaluator} (ctx : Context)
    (root : Tree Mark) : Life limits past e → ctx.limits = limits →
    (Evaluation.run ctx root e).1 ≠ .unfinished →
    Life limits (past ++ [(Evaluation.run ctx root e).1]) (Evaluation.run ctx root e).2

namespace Evaluator.Life

variable {limits : Limits} {past : List (Outcome Fault (Option Value))} {e : Evaluator}

/-- Between evaluations an evaluator is inside of no node. -/
theorem depth_eq (h : Life limits past e) : e.depth = 0 := by
  induction h with
  | new stack input output => rfl
  | next ctx root _ _ _ ih => exact (Evaluation.agrees_run ctx root _ ih).2.2

/-- An evaluator runs a tree on its machine. -/
theorem run_eq (h : Life limits past e) (ctx : Context) (root : Tree Mark) :
    Eval.run ctx root e.machine =
      ((Evaluation.run ctx root e).1, (Evaluation.run ctx root e).2.machine) := by
  obtain ⟨houtcome, hmachine, -⟩ := Evaluation.agrees_run ctx root e h.depth_eq
  rw [houtcome, hmachine]

end Evaluator.Life

end IntScript
