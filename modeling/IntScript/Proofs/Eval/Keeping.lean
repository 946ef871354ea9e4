import IntScript.Proofs.Eval.Steps

/-!
# What an evaluation keeps

A condition on machines is kept by a whole run if every step keeps it. An execution only does four
things at a node: it changes the devices or the count of loop bodies, it blames the node, it reads
the slot of a variable, or it writes the slot of a variable that is the target of an assignment or
of an operator. A discipline states what the condition and the faults have to do with these four,
at the nodes of one tree. So it relates to each of the steps that evaluations are put together of.
-/

namespace IntScript

/-- What is asked of the results and faults of an execution. Giving up is always fine. -/
def Outcome.Meets {α : Type} (faults : Fault → Prop) (results : α → Prop) :
    Outcome Fault α → Prop
  | .done a => results a
  | .failed f => faults f
  | .unfinished => True

/-- An execution keeps a condition on machines, however it ends, and its results and faults are as
asked for. -/
def Exec.Keeps {α : Type} (inv : Machine → Prop) (faults : Fault → Prop) (results : α → Prop)
    (x : Exec α) : Prop :=
  ∀ m, inv m → (x m).1.Meets faults results ∧ inv (x m).2

namespace Exec

variable {inv : Machine → Prop} {faults : Fault → Prop} {α β : Type} {results : α → Prop}
  {results' : β → Prop}

/-- Doing nothing keeps every condition. -/
theorem Keeps.pure {a : α} (h : results a) : Keeps inv faults results (Pure.pure a) :=
  fun _ hm => ⟨h, hm⟩

/-- Failing keeps every condition. -/
theorem Keeps.fail {f : Fault} (h : faults f) : Keeps inv faults results (Exec.fail (α := α) f) :=
  fun _ hm => ⟨h, hm⟩

/-- One step after another keeps what both steps keep. -/
theorem Keeps.bind {x : Exec α} {f : α → Exec β} (hx : Keeps inv faults results x)
    (hf : ∀ a, results a → Keeps inv faults results' (f a)) :
    Keeps inv faults results' (x >>= f) := by
  intro m hm
  obtain ⟨hmeets, hinv⟩ := hx m hm
  rcases hrun : x m with ⟨a | e | _, m'⟩
  · rw [hrun] at hmeets hinv
    rw [bind_done hrun]
    exact hf a hmeets m' hinv
  · rw [hrun] at hmeets hinv
    rw [bind_failed hrun]
    exact ⟨hmeets, hinv⟩
  · rw [hrun] at hinv
    rw [bind_unfinished hrun]
    exact ⟨trivial, hinv⟩

/-- Less can be asked of the results. -/
theorem Keeps.weaken {weaker : α → Prop} {x : Exec α} (h : Keeps inv faults results x)
    (hresults : ∀ a, results a → weaker a) : Keeps inv faults weaker x := by
  intro m hm
  obtain ⟨hmeets, hinv⟩ := h m hm
  refine ⟨?_, hinv⟩
  cases hrun : (x m).1 with
  | done a =>
    rw [hrun] at hmeets
    exact hresults a hmeets
  | failed f => rwa [hrun] at hmeets
  | unfinished => trivial

/-- A result passed through a function. -/
theorem Keeps.map {x : Exec α} (hx : Keeps inv faults (fun _ => True) x) (f : α → β) :
    Keeps inv faults (fun _ => True) (x >>= fun a => Pure.pure (f a)) :=
  hx.bind fun _ _ => .pure trivial

/-- The rounds of a loop keep what its test and its body keep. -/
theorem Keeps.loop {test : Exec Bool} {body : Exec Unit}
    (ht : Keeps inv faults (fun _ => True) test) (hb : Keeps inv faults (fun _ => True) body)
    (n : Nat) : Keeps inv faults (fun _ => True) (Exec.loop test body n) := by
  induction n with
  | zero => exact fun m hm => ⟨trivial, hm⟩
  | succ n ih =>
    rw [loop_succ]
    refine ht.bind fun b _ => ?_
    cases b with
    | true => exact hb.bind fun _ _ => ih
    | false => exact .pure trivial

end Exec

/-- The causes that come from the slots of variables. -/
def Fault.Cause.isAccess : Fault.Cause → Bool
  | .unresolved _ | .outOfBounds _ => true
  | _ => false

namespace Eval

open Exec (Keeps)

/-- The fault for which a node is blamed. -/
def faultAt (ctx : Context) (t : Tree Mark) (cause : Fault.Cause) : Fault :=
  ⟨cause, if ctx.located then t.span? else none⟩

/-- What the nodes of a tree do to a condition on machines and which faults they are blamed for. -/
structure Discipline (ctx : Context) (root : Tree Mark) (inv : Machine → Prop)
    (faults : Fault → Prop) : Prop where
  /-- Of a machine only the stack matters. -/
  stack : ∀ {m m' : Machine}, m'.stack = m.stack → inv m → inv m'
  /-- The nodes may be blamed for everything that has nothing to do with slots. -/
  blame : ∀ t ∈ root.nodes, ∀ cause : Fault.Cause, cause.isAccess = false →
    faults (faultAt ctx t cause)
  /-- A variable has a slot, or it may be blamed for having none. -/
  slot : ∀ t ∈ root.nodes, ∀ name, t.name? = some name → ctx.annotations.slot? t = none →
    faults (faultAt ctx t (.unresolved name))
  /-- The slot of a variable can be read, or the variable may be blamed. -/
  read : ∀ t ∈ root.nodes, t.name?.isSome = true → ∀ slot, ctx.annotations.slot? t = some slot →
    ∀ m, inv m → ∀ e, m.stack.read slot = .error e → faults (faultAt ctx t (.outOfBounds e))
  /-- The slot of a target can be written, or the target may be blamed. -/
  write : ∀ n ∈ root.nodes, ∀ t, n.target? = some t → t.name?.isSome = true →
    ∀ slot, ctx.annotations.slot? t = some slot → ∀ m, inv m → ∀ v,
      (∀ stack, m.stack.write slot v = .ok stack → inv { m with stack }) ∧
      ∀ e, m.stack.write slot v = .error e → faults (faultAt ctx t (.outOfBounds e))

namespace Discipline

variable {ctx : Context} {root : Tree Mark} {inv : Machine → Prop} {faults : Fault → Prop}
  {t : Tree Mark} {α : Type}

/-- A node that is blamed keeps the condition. -/
theorem keeps_blame (h : Discipline ctx root inv faults) (ht : t ∈ root.nodes)
    {cause : Fault.Cause} (hcause : cause.isAccess = false) {results : α → Prop} :
    Keeps inv faults results (Eval.blame (α := α) ctx t cause) :=
  .fail (h.blame t ht cause hcause)

/-- What is done at a node keeps the condition if the depth allows it, and otherwise nothing is
done. -/
theorem keeps_atDepth (h : Discipline ctx root inv faults) (ht : t ∈ root.nodes) (d : Nat)
    {x : Exec α} {results : α → Prop} (hx : Keeps inv faults results x) :
    Keeps inv faults results (atDepth ctx d t x) := by
  unfold atDepth
  split
  · exact h.keeps_blame ht rfl
  · exact hx

/-- A device that does something or refuses to. -/
theorem meets_deviceOutcome (h : Discipline ctx root inv faults) (ht : t ∈ root.nodes) {ε : Type}
    {cause : ε → Fault.Cause} (hcause : ∀ e, (cause e).isAccess = false) (r : Except ε α) :
    (deviceOutcome ctx.located t cause r).Meets faults (fun _ => True) := by
  cases r with
  | ok a => trivial
  | error e => exact h.blame t ht _ (hcause e)

/-- Reading a number keeps the condition. -/
theorem keeps_readInput (h : Discipline ctx root inv faults) (ht : t ∈ root.nodes) :
    Keeps inv faults (fun _ => True) (readInput ctx t) := by
  intro m hm
  rw [readInput_fst, readInput_snd]
  have hcause : ∀ e, (Fault.Cause.ofInput e).isAccess = false := by
    rintro (_ | _ | _) <;> rfl
  exact ⟨h.meets_deviceOutcome ht hcause _, h.stack (m := m) rfl hm⟩

/-- Printing a line keeps the condition. -/
theorem keeps_printLine (h : Discipline ctx root inv faults) (ht : t ∈ root.nodes) (v : Value) :
    Keeps inv faults (fun _ => True) (printLine ctx t v) := by
  intro m hm
  rw [printLine_fst, printLine_snd]
  exact ⟨h.meets_deviceOutcome ht (fun _ => rfl) _, h.stack (m := m) rfl hm⟩

/-- Counting a loop body keeps the condition. -/
theorem keeps_countIteration (h : Discipline ctx root inv faults) (ht : t ∈ root.nodes) :
    Keeps inv faults (fun _ => True) (countIteration ctx t) := by
  intro m hm
  have hcount : inv { m with iterations := m.iterations + 1 } := h.stack (m := m) rfl hm
  dsimp only [countIteration]
  split
  · split
    · exact ⟨h.blame t ht _ rfl, hcount⟩
    · exact ⟨trivial, hcount⟩
  · exact ⟨trivial, hcount⟩

/-- Reading the slot of a variable keeps the condition. -/
theorem keeps_readSlot (h : Discipline ctx root inv faults) (ht : t ∈ root.nodes)
    (hvar : t.name?.isSome = true) {slot : Nat} (hslot : ctx.annotations.slot? t = some slot) :
    Keeps inv faults (fun _ => True) (readSlot ctx t slot) := by
  intro m hm
  unfold readSlot
  split
  · exact ⟨trivial, hm⟩
  · next e he => exact ⟨h.read t ht hvar slot hslot m hm e he, hm⟩

/-- Writing the slot of a target keeps the condition. -/
theorem keeps_writeSlot (h : Discipline ctx root inv faults) {node : Tree Mark}
    (hnode : node ∈ root.nodes) (ht : node.target? = some t) (hvar : t.name?.isSome = true)
    {slot : Nat} (hslot : ctx.annotations.slot? t = some slot) (v : Value) :
    Keeps inv faults (fun _ => True) (writeSlot ctx t slot v) := by
  intro m hm
  obtain ⟨hok, herror⟩ := h.write node hnode t ht hvar slot hslot m hm v
  unfold writeSlot
  split
  · next stack hstack => exact ⟨trivial, hok stack hstack⟩
  · next e he => exact ⟨herror e he, hm⟩

/-- All steps that are made at the nodes of the tree keep the condition. -/
theorem related (h : Discipline ctx root inv faults) :
    Steps.Related (steps ctx) (steps ctx) ctx ctx fun t {_} x _ =>
      t ∈ root.nodes → ∀ d, Keeps inv faults (fun _ => True) (x d) where
  annotations := rfl
  pure _ _ _ := .pure trivial
  bind hx hf ht d := (hx ht d).bind fun a _ => hf a ht d
  blame hblames ht d := by
    cases hblames with
    | missingValue hc =>
      exact h.keeps_blame (Tree.mem_nodes_trans ht (Tree.mem_subtrees_of_evaluated hc)) rfl
    | unresolved hc hname hslot =>
      exact .fail (h.slot _ (Tree.mem_nodes_of_lookup ht hc) _ hname hslot)
    | notAVariable _ _ _ => exact h.keeps_blame ht rfl
    | arithmetic _ => exact h.keeps_blame ht rfl
  ask ht _ := h.keeps_readInput ht
  load hc hvar hslot ht _ := h.keeps_readSlot (Tree.mem_nodes_of_lookup ht hc) hvar hslot
  store v hc hvar hslot ht _ := h.keeps_writeSlot ht hc hvar hslot v
  print v ht _ := h.keeps_printLine ht v
  loop htest hbody ht d := by
    rw [steps_loop]
    exact (htest ht d).loop ((h.keeps_countIteration ht).bind fun _ _ => hbody ht d) _
  visit hc hx ht d :=
    have hmem := Tree.mem_nodes_trans ht (Tree.mem_subtrees_of_evaluated hc)
    h.keeps_atDepth hmem d (hx hmem (d + 1))

/-- Evaluating a node keeps the condition. -/
theorem keeps_eval (h : Discipline ctx root inv faults) (ht : t ∈ root.nodes) (d : Nat) :
    Keeps inv faults (fun _ => True) (eval ctx d t) := by
  rw [eval_eq]
  exact h.keeps_atDepth ht d (h.related.inside t ht (d + 1))

/-- Flushing the output keeps the condition. -/
theorem keeps_finish (h : Discipline ctx root inv faults) (ht : t ∈ root.nodes) :
    Keeps inv faults (fun _ => True) (finish ctx t) := by
  intro m hm
  unfold finish
  split
  · exact ⟨trivial, hm⟩
  · exact ⟨h.blame t ht _ rfl, hm⟩

/-- A whole run from a node keeps the condition. -/
theorem keeps_run (h : Discipline ctx root inv faults) (ht : t ∈ root.nodes) :
    Keeps inv faults (fun _ => True) (run ctx t) := by
  rw [run_eq_bind]
  exact (h.keeps_eval ht 0).bind fun v _ => (h.keeps_finish ht).map _

end Discipline

end Eval
end IntScript
