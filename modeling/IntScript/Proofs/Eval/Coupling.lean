import IntScript.Proofs.Eval.Steps

/-!
# Two runs side by side

Two runs of one tree are compared that differ in their limits, in their patience or in their
devices. A coupling says which devices are taken for the same and which causes cut a run short. As
long as the first run is not cut short, the second one goes along with it: both come to the same
outcome, on machines that agree. Once the first run is cut short, the second one may go anywhere,
but what the first one has written stays the beginning of what the second one writes.

That a tree keeps to a coupling follows from the laws of its devices and from how the limits of
the two runs compare, since both runs make the same steps. What two runs come to is then compared
without their patience: a run ends in some way if it does so with some patience.
-/

namespace IntScript

/-- What was written to one output is the beginning of what was written to another. -/
def Output.Precedes (a b : Output) : Prop := a.written.toList <+: b.written.toList

namespace Output

/-- Nothing more has to be written. -/
theorem Precedes.refl (a : Output) : a.Precedes a := List.prefix_refl _

/-- Beginnings of beginnings are beginnings. -/
theorem Precedes.trans {a b c : Output} (h : a.Precedes b) (h' : b.Precedes c) : a.Precedes c :=
  List.IsPrefix.trans h h'

/-- Writing keeps what was written before, whether it succeeds or not. -/
theorem precedes_write (out : Output) (bytes : List UInt8) : out.Precedes (out.write bytes).2 := by
  have hkeep : ∀ more : List UInt8, out.written.toList <+: (out.written ++ more).toList := by
    intro more
    rw [Array.toList_appendList]
    exact List.prefix_append _ _
  unfold write
  split
  · split
    · exact hkeep bytes
    · exact hkeep _
  · exact hkeep bytes

end Output

/-- Whether an execution was cut short: it was given up, or it failed for one of certain causes. -/
def Outcome.IsCut {α : Type} (cuts : Fault.Cause → Prop) : Outcome Fault α → Prop
  | .done _ => False
  | .failed f => cuts f.cause
  | .unfinished => True

/-- How the devices of two runs compare. -/
structure Coupling where
  /-- The inputs that are taken for the same. -/
  input : Input → Input → Prop
  /-- The outputs that are taken for the same. -/
  output : Output → Output → Prop
  /-- The causes that cut the first run short. -/
  cuts : Fault.Cause → Prop
  /-- The same number is read, unless the first run is cut short. -/
  next : ∀ {a b : Input}, input a b →
    (a.next.1 = b.next.1 ∧ input a.next.2 b.next.2) ∨
      ∃ f, a.next.1 = .error f ∧ cuts (.ofInput f)
  /-- Bytes are written alike, unless the first run is cut short. -/
  write : ∀ {a b : Output} (bytes : List UInt8), output a b →
    ((a.write bytes).1 = (b.write bytes).1 ∧ output (a.write bytes).2 (b.write bytes).2) ∨
      ∃ f, (a.write bytes).1 = .error f ∧ cuts (.device f) ∧
        (a.write bytes).2.Precedes (b.write bytes).2
  /-- Flushing goes alike. -/
  flush : ∀ {a b : Output}, output a b → a.flush = b.flush
  /-- What the first run has written is the beginning of what the second one has. -/
  precedes : ∀ {a b : Output}, output a b → a.Precedes b

/-- The coupling of runs with the same output. -/
def Coupling.ofInput (input : Input → Input → Prop) (cuts : Fault.Cause → Prop)
    (next : ∀ {a b : Input}, input a b →
      (a.next.1 = b.next.1 ∧ input a.next.2 b.next.2) ∨
        ∃ f, a.next.1 = .error f ∧ cuts (.ofInput f)) : Coupling where
  input := input
  output := Eq
  cuts := cuts
  next := next
  write := by
    rintro a _ bytes rfl
    exact .inl ⟨rfl, rfl⟩
  flush := by
    rintro a _ rfl
    rfl
  precedes := by
    rintro a _ rfl
    exact .refl a

/-- Machines that are taken for the same. -/
structure Coupling.Agree (K : Coupling) (m n : Machine) : Prop where
  /-- The variables have the same values. -/
  stack : m.stack = n.stack
  /-- The inputs are taken for the same. -/
  input : K.input m.input n.input
  /-- The outputs are taken for the same. -/
  output : K.output m.output n.output
  /-- As many loop bodies were started. -/
  iterations : m.iterations = n.iterations

/-- The second execution goes along with the first one until that is cut short. -/
structure Exec.Tracks (K : Coupling) {α : Type} (x y : Exec α) : Prop where
  /-- The second execution keeps what was written before it. -/
  appends : ∀ n : Machine, n.output.Precedes (y n).2.output
  /-- From machines that agree both come to the same outcome on machines that agree, or the first
  one is cut short and has written the beginning of what the second one writes. -/
  follows : ∀ {m n : Machine}, K.Agree m n →
    ((x m).1 = (y n).1 ∧ K.Agree (x m).2 (y n).2) ∨
      ((x m).1.IsCut K.cuts ∧ (x m).2.output.Precedes (y n).2.output)

namespace Exec

variable {K : Coupling} {α β : Type}

/-- What comes behind an execution keeps what that has written. -/
theorem precedes_bind (y : Exec α) {g : α → Exec β}
    (hg : ∀ a (n : Machine), n.output.Precedes (g a n).2.output) (n : Machine) :
    (y n).2.output.Precedes ((y >>= g) n).2.output := by
  rcases hy : y n with ⟨a | e | _, n'⟩
  · rw [bind_done hy]
    exact hg a n'
  · rw [bind_failed hy]
    exact .refl _
  · rw [bind_unfinished hy]
    exact .refl _

/-- An execution that leaves its machine as it is and does not depend on it tracks itself. -/
theorem Tracks.of_const (o : Outcome Fault α) : Tracks K (fun m => (o, m)) (fun m => (o, m)) :=
  ⟨fun _ => .refl _, fun h => .inl ⟨rfl, h⟩⟩

/-- One step after another goes along if both steps do. -/
theorem Tracks.bind {x y : Exec α} {f g : α → Exec β} (h : Tracks K x y)
    (hf : ∀ a, Tracks K (f a) (g a)) : Tracks K (x >>= f) (y >>= g) := by
  have hkeep := precedes_bind y fun a => (hf a).appends
  refine ⟨fun n => (h.appends n).trans (hkeep n), fun {m n} hmn => ?_⟩
  rcases h.follows hmn with ⟨hsame, hagree⟩ | ⟨hcut, hbefore⟩
  · rcases hx : x m with ⟨o, m'⟩
    rcases hy : y n with ⟨o', n'⟩
    rw [hx, hy] at hsame hagree
    dsimp only at hsame hagree
    subst hsame
    cases o with
    | done a =>
      rw [bind_done hx, bind_done hy]
      exact (hf a).follows hagree
    | failed e =>
      rw [bind_failed hx, bind_failed hy]
      exact .inl ⟨rfl, hagree⟩
    | unfinished =>
      rw [bind_unfinished hx, bind_unfinished hy]
      exact .inl ⟨rfl, hagree⟩
  · -- nothing follows the first execution, and the second one only writes more
    have hmore := hbefore.trans (hkeep n)
    rcases hx : x m with ⟨a | e | _, m'⟩
    · rw [hx] at hcut
      exact hcut.elim
    · rw [hx] at hcut hmore
      rw [bind_failed hx]
      exact .inr ⟨hcut, hmore⟩
    · rw [hx] at hmore
      rw [bind_unfinished hx]
      exact .inr ⟨trivial, hmore⟩

/-- A result passed through a function. -/
theorem Tracks.map {x y : Exec α} (h : Tracks K x y) (f : α → β) :
    Tracks K (x >>= fun a => pure (f a)) (y >>= fun a => pure (f a)) :=
  h.bind fun _ => .of_const _

/-- The rounds of a loop go along if its test and its body do and the second run has no less
patience. -/
theorem Tracks.loop {test test' : Exec Bool} {body body' : Exec Unit} (ht : Tracks K test test')
    (hb : Tracks K body body') {n n' : Nat} (hn : n ≤ n') :
    Tracks K (Exec.loop test body n) (Exec.loop test' body' n') := by
  have hround : ∀ {k k' : Nat}, Tracks K (Exec.loop test body k) (Exec.loop test' body' k') →
      Tracks K (Exec.loop test body (k + 1)) (Exec.loop test' body' (k' + 1)) := by
    intro k k' hk
    rw [loop_succ, loop_succ]
    refine ht.bind fun b => ?_
    cases b with
    | true => exact hb.bind fun _ => hk
    | false => exact .of_const _
  have happends : ∀ k' (m : Machine), m.output.Precedes (Exec.loop test' body' k' m).2.output := by
    intro k'
    induction k' with
    | zero => exact fun m => .refl _
    | succ k' ih =>
      intro m
      rw [loop_succ]
      refine (ht.appends m).trans (precedes_bind test' (fun b m => ?_) m)
      cases b with
      | true => exact (hb.appends m).trans (precedes_bind body' (fun _ => ih) m)
      | false => exact .refl _
  induction n generalizing n' with
  | zero =>
    refine ⟨happends n', fun {m k} hmk => .inr ⟨trivial, ?_⟩⟩
    exact (K.precedes hmk.output).trans (happends n' k)
  | succ n ih =>
    obtain ⟨k', rfl⟩ : ∃ k', n' = k' + 1 := ⟨n' - 1, by omega⟩
    exact hround (ih (by omega))

end Exec

/-- With some patience a run ends with the given outcome and leaves the given machine. -/
def EndsWith {ε α : Type} (run : Nat → Outcome ε α × Machine) (o : Outcome ε α) (m : Machine) :
    Prop :=
  o ≠ .unfinished ∧ ∃ patience, run patience = (o, m)

/-- More patience does not change how a run ends. -/
def IsPatient {ε α : Type} (run : Nat → Outcome ε α × Machine) : Prop :=
  ∀ k k', k ≤ k' → ∀ o m, o ≠ .unfinished → run k = (o, m) → run k' = (o, m)

/-- A run that does not change with more patience ends in one way only. -/
theorem IsPatient.endsWith_iff {ε α : Type} {run : Nat → Outcome ε α × Machine}
    (h : IsPatient run) {o : Outcome ε α} {m : Machine} (hends : EndsWith run o m)
    (o' : Outcome ε α) (n : Machine) : EndsWith run o' n ↔ o' = o ∧ n = m := by
  obtain ⟨ho, k, hrun⟩ := hends
  constructor
  · rintro ⟨ho', k', hrun'⟩
    -- both ends are found again at the larger one of the two patiences
    have hfirst := h k (max k k') (Nat.le_max_left k k') o m ho hrun
    have hsecond := h k' (max k k') (Nat.le_max_right k k') o' n ho' hrun'
    rw [hfirst] at hsecond
    cases hsecond
    exact ⟨rfl, rfl⟩
  · rintro ⟨rfl, rfl⟩
    exact ⟨ho, k, hrun⟩

/-- A run that has no less patience goes along with another one until that is cut short. -/
structure GoesAlong {ε α : Type} (R : Machine → Machine → Prop) (cut : Outcome ε α → Prop)
    (run run' : Nat → Outcome ε α × Machine) : Prop where
  /-- On machines that are taken for the same the first run has written no more. -/
  precedes : ∀ m m', R m m' → m.output.Precedes m'.output
  /-- If the first run ends, then the second one ends alike, or the first one is cut short and has
  written the beginning of what the second one writes. -/
  follows : ∀ k k', k ≤ k' → ∀ o m, o ≠ .unfinished → run k = (o, m) →
    (∃ m', run' k' = (o, m') ∧ R m m') ∨ (cut o ∧ m.output.Precedes (run' k').2.output)

namespace GoesAlong

variable {ε α : Type} {R : Machine → Machine → Prop} {cut : Outcome ε α → Prop}
  {run run' : Nat → Outcome ε α × Machine} {o o' : Outcome ε α} {m n : Machine}

/-- A run that goes along with itself and is never cut short does not change with more patience. -/
theorem isPatient (h : GoesAlong R cut run run) (hR : ∀ m m', R m m' → m = m')
    (hcut : ∀ o, ¬cut o) : IsPatient run := by
  intro k k' hk o m ho hrun
  rcases h.follows k k' hk o m ho hrun with ⟨m', hrun', hm⟩ | ⟨hcut', -⟩
  · rw [hR m m' hm]
    exact hrun'
  · exact absurd hcut' (hcut o)

/-- If the first run ends and is not cut short, then the second one ends with the same outcome and
in no other way. -/
theorem endsWith_iff (h : GoesAlong R cut run run') (hpatient : IsPatient run')
    (hends : EndsWith run o m) (hcut : ¬cut o) :
    ∃ m', R m m' ∧ ∀ o' n, EndsWith run' o' n ↔ o' = o ∧ n = m' := by
  obtain ⟨ho, k, hrun⟩ := hends
  rcases h.follows k k (Nat.le_refl k) o m ho hrun with ⟨m', hrun', hm⟩ | ⟨hcut', -⟩
  · exact ⟨m', hm, hpatient.endsWith_iff ⟨ho, k, hrun'⟩⟩
  · exact absurd hcut' hcut

/-- If both runs end, then the first one has written the beginning of what the second one has. -/
theorem precedes_of_endsWith (h : GoesAlong R cut run run') (hpatient : IsPatient run')
    (hends : EndsWith run o m) (hends' : EndsWith run' o' n) : m.output.Precedes n.output := by
  obtain ⟨ho, k, hrun⟩ := hends
  obtain ⟨ho', k', hrun'⟩ := hends'
  have hlate := hpatient k' (max k k') (Nat.le_max_right k k') o' n ho' hrun'
  rcases h.follows k (max k k') (Nat.le_max_left k k') o m ho hrun with
    ⟨m', hsame, hm⟩ | ⟨-, hbefore⟩
  · rw [hlate] at hsame
    cases hsame
    exact h.precedes m n hm
  · rw [hlate] at hbefore
    exact hbefore

end GoesAlong

/-- Executions that track each other at all patiences are runs that go along. -/
theorem Exec.Tracks.runs {K : Coupling} {α : Type} {x y : Nat → Exec α}
    (h : ∀ k k', k ≤ k' → Tracks K (x k) (y k')) {m n : Machine} (hmn : K.Agree m n) :
    GoesAlong K.Agree (fun o => ∃ f, o = .failed f ∧ K.cuts f.cause) (fun k => x k m)
      (fun k => y k n) := by
  refine ⟨fun m m' hm => K.precedes hm.output, fun k k' hk o m' ho hrun => ?_⟩
  have hcases := (h k k' hk).follows hmn
  rw [hrun] at hcases
  rcases hcases with ⟨hsame, hagree⟩ | ⟨hcut, hbefore⟩
  · exact .inl ⟨(y k' n).2, Prod.ext hsame.symm rfl, hagree⟩
  · cases o with
    | done a => exact hcut.elim
    | failed f => exact .inr ⟨⟨f, rfl, hcut⟩, hbefore⟩
    | unfinished => exact absurd rfl ho

/-- The causes that come from the limits of a run. -/
def Fault.Cause.IsLimit : Fault.Cause → Prop
  | .depthLimit .. | .iterationLimit _ => True
  | _ => False

/-- The first limits are at least as narrow as the second ones. No limit on the number of loop
bodies is wider than any number. -/
structure Limits.Within (l l' : Limits) : Prop where
  /-- No more nodes may be nested. -/
  depth : l.maxDepth ≤ l'.maxDepth
  /-- No more loop bodies may be started. -/
  iterations : ∀ n', l'.maxIterations = some n' → ∃ n, l.maxIterations = some n ∧ n ≤ n'

/-- Limits are within themselves. -/
theorem Limits.Within.refl (l : Limits) : l.Within l :=
  ⟨Nat.le_refl _, fun n hn => ⟨n, hn, Nat.le_refl _⟩⟩

namespace Eval

open Exec (Tracks)

/-- Two evaluations of one tree that can be compared. If their limits differ, then reaching a limit
cuts the first one short. -/
structure Aligned (K : Coupling) (ctx ctx' : Context) : Prop where
  /-- Both know the same about the tree. -/
  annotations : ctx.annotations = ctx'.annotations
  /-- Both locate faults, or none does. -/
  located : ctx.located = ctx'.located
  /-- The second one has no less patience. -/
  patience : ctx.patience ≤ ctx'.patience
  /-- The second one has no narrower limits. -/
  within : ctx.limits.Within ctx'.limits
  /-- Reaching a limit cuts the first one short unless the limits are the same. -/
  cuts : ctx.limits = ctx'.limits ∨ ∀ cause, cause.IsLimit → K.cuts cause

variable {K : Coupling} {ctx ctx' : Context} {α : Type}

namespace Aligned

/-- Both blame a node alike. -/
theorem blame_eq (h : Aligned K ctx ctx') (t : Tree Mark) (cause : Fault.Cause) :
    blame (α := α) ctx t cause = blame ctx' t cause := by
  rw [blame, blame, h.located]

/-- Both fail alike at a node. -/
theorem blame (h : Aligned K ctx ctx') (t : Tree Mark) (cause : Fault.Cause) :
    Tracks K (Eval.blame (α := α) ctx t cause) (Eval.blame ctx' t cause) := by
  rw [h.blame_eq]
  exact .of_const _

/-- What is done at a node goes along if the depth allows it in both runs; a node that is nested too
deeply in the first run cuts it short. -/
theorem atDepth (h : Aligned K ctx ctx') (d : Nat) (t : Tree Mark) {x y : Exec α}
    (hxy : Tracks K x y) : Tracks K (Eval.atDepth ctx d t x) (Eval.atDepth ctx' d t y) := by
  have hdepth := h.within.depth
  rcases Nat.lt_or_ge d ctx.limits.maxDepth with hd | hd
  · rw [atDepth_of_lt _ hd, atDepth_of_lt _ (by omega)]
    exact hxy
  · rw [atDepth_of_le _ hd]
    rcases h.cuts with hsame | hcuts
    · rw [hsame] at hd ⊢
      rw [atDepth_of_le _ hd]
      exact h.blame t _
    · have happends : ∀ n : Machine, n.output.Precedes (Eval.atDepth ctx' d t y n).2.output := by
        intro n
        rw [Eval.atDepth]
        split
        · exact .refl _
        · exact hxy.appends n
      refine ⟨happends, fun {m n} hmn => .inr ⟨?_, ?_⟩⟩
      · exact hcuts _ trivial
      · exact (K.precedes hmn.output).trans (happends n)

/-- A loop body is counted alike; one too many in the first run cuts it short. -/
theorem countIteration (h : Aligned K ctx ctx') (t : Tree Mark) :
    Tracks K (Eval.countIteration ctx t) (Eval.countIteration ctx' t) := by
  have hoff : ∀ n : Machine, n.output.Precedes (Eval.countIteration ctx' t n).2.output := by
    intro n
    by_cases hn : ∀ k, ctx'.limits.maxIterations = some k → n.iterations + 1 ≤ k
    · rw [countIteration_of_le hn]
      exact .refl _
    · obtain ⟨k, hk, hlt⟩ : ∃ k, ctx'.limits.maxIterations = some k ∧ k < n.iterations + 1 := by
        simpa using hn
      rw [countIteration_of_lt hk hlt]
      exact .refl _
  refine ⟨hoff, fun {m n} hmn => ?_⟩
  have hiter := hmn.iterations
  have hagree : K.Agree { m with iterations := m.iterations + 1 }
      { n with iterations := n.iterations + 1 } :=
    ⟨hmn.stack, hmn.input, hmn.output, congrArg (· + 1) hiter⟩
  by_cases hm : ∀ k, ctx.limits.maxIterations = some k → m.iterations + 1 ≤ k
  · have hn : ∀ k', ctx'.limits.maxIterations = some k' → n.iterations + 1 ≤ k' := by
      intro k' hk'
      obtain ⟨k, hk, hle⟩ := h.within.iterations k' hk'
      have hmk := hm k hk
      omega
    rw [countIteration_of_le hm, countIteration_of_le hn]
    exact .inl ⟨rfl, hagree⟩
  · obtain ⟨k, hk, hlt⟩ : ∃ k, ctx.limits.maxIterations = some k ∧ k < m.iterations + 1 := by
      simpa using hm
    rw [countIteration_of_lt hk hlt]
    rcases h.cuts with hsame | hcuts
    · have hk' : ctx'.limits.maxIterations = some k := hsame ▸ hk
      rw [countIteration_of_lt hk' (by omega), h.blame_eq]
      exact .inl ⟨rfl, hagree⟩
    · refine .inr ⟨hcuts _ trivial, ?_⟩
      exact (K.precedes hmn.output).trans (hoff n)

/-- A number is read alike. -/
theorem readInput (h : Aligned K ctx ctx') (t : Tree Mark) :
    Tracks K (Eval.readInput ctx t) (Eval.readInput ctx' t) := by
  refine ⟨fun n => ?_, fun {m n} hmn => ?_⟩
  · rw [readInput_snd]
    exact .refl _
  · rcases K.next hmn.input with ⟨hsame, hinput⟩ | ⟨f, hf, hcut⟩
    · refine .inl ⟨?_, ?_⟩
      · rw [readInput_fst, readInput_fst, hsame, h.located]
      · rw [readInput_snd, readInput_snd]
        exact ⟨hmn.stack, hinput, hmn.output, hmn.iterations⟩
    · refine .inr ⟨?_, ?_⟩
      · rw [readInput_fst, hf]
        exact hcut
      · rw [readInput_snd, readInput_snd]
        exact K.precedes hmn.output

/-- The line of a printed value is written alike. -/
theorem printLine (h : Aligned K ctx ctx') (t : Tree Mark) (v : Value) :
    Tracks K (Eval.printLine ctx t v) (Eval.printLine ctx' t v) := by
  refine ⟨fun n => ?_, fun {m n} hmn => ?_⟩
  · rw [printLine_snd]
    exact Output.precedes_write n.output _
  · rcases K.write (Text.encode (Value.chars v ++ ['\n'])) hmn.output with
      ⟨hsame, houtput⟩ | ⟨f, hf, hcut, hbefore⟩
    · refine .inl ⟨?_, ?_⟩
      · rw [printLine_fst, printLine_fst, hsame, h.located]
      · rw [printLine_snd, printLine_snd]
        exact ⟨hmn.stack, hmn.input, houtput, hmn.iterations⟩
    · refine .inr ⟨?_, ?_⟩
      · rw [printLine_fst, hf]
        exact hcut
      · rw [printLine_snd, printLine_snd]
        exact hbefore

/-- A slot holds the same value in both runs. -/
theorem readSlot (h : Aligned K ctx ctx') (t : Tree Mark) (slot : Nat) :
    Tracks K (Eval.readSlot ctx t slot) (Eval.readSlot ctx' t slot) := by
  refine ⟨fun n => ?_, fun {m n} hmn => .inl ?_⟩
  · unfold Eval.readSlot
    split <;> exact .refl _
  · unfold Eval.readSlot
    rw [hmn.stack]
    split
    · exact ⟨rfl, hmn⟩
    · rw [h.blame_eq]
      exact ⟨rfl, hmn⟩

/-- A slot is written alike. -/
theorem writeSlot (h : Aligned K ctx ctx') (t : Tree Mark) (slot : Nat) (v : Value) :
    Tracks K (Eval.writeSlot ctx t slot v) (Eval.writeSlot ctx' t slot v) := by
  refine ⟨fun n => ?_, fun {m n} hmn => .inl ?_⟩
  · unfold Eval.writeSlot
    split <;> exact .refl _
  · unfold Eval.writeSlot
    rw [hmn.stack]
    split
    · exact ⟨rfl, rfl, hmn.input, hmn.output, hmn.iterations⟩
    · rw [h.blame_eq]
      exact ⟨rfl, hmn⟩

/-- All steps go along with each other. -/
theorem related (h : Aligned K ctx ctx') :
    Steps.Related (steps ctx) (steps ctx') ctx ctx' fun _ {_} x y => ∀ d, Tracks K (x d) (y d) where
  annotations := h.annotations
  pure _ _ := .of_const _
  bind hxy hf d := (hxy d).bind fun a => hf a d
  blame _ _ := h.blame _ _
  ask _ := h.readInput _
  load _ _ _ _ := h.readSlot _ _
  store v _ _ _ _ := h.writeSlot _ _ v
  print v _ := h.printLine _ v
  loop htest hbody d := by
    rw [steps_loop, steps_loop]
    exact (htest d).loop ((h.countIteration _).bind fun _ => hbody d) h.patience
  visit _ hxy d := h.atDepth d _ (hxy (d + 1))

/-- A tree goes along with itself. -/
theorem eval (h : Aligned K ctx ctx') (t : Tree Mark) (d : Nat) :
    Tracks K (Eval.eval ctx d t) (Eval.eval ctx' d t) := by
  rw [eval_eq, eval_eq]
  exact h.atDepth d t (h.related.inside t (d + 1))

/-- The output is flushed alike. -/
theorem finish (h : Aligned K ctx ctx') (t : Tree Mark) :
    Tracks K (Eval.finish ctx t) (Eval.finish ctx' t) := by
  refine ⟨fun n => ?_, fun {m n} hmn => .inl ?_⟩
  · unfold Eval.finish
    split <;> exact .refl _
  · unfold Eval.finish
    rw [K.flush hmn.output]
    split
    · exact ⟨rfl, hmn⟩
    · rw [h.blame_eq]
      exact ⟨rfl, hmn⟩

/-- A whole run goes along with another one. -/
theorem run (h : Aligned K ctx ctx') (root : Tree Mark) :
    Tracks K (Eval.run ctx root) (Eval.run ctx' root) := by
  rw [run_eq_bind, run_eq_bind]
  exact (h.eval root 0).bind fun v => (h.finish root).map _

end Aligned

end Eval

end IntScript
