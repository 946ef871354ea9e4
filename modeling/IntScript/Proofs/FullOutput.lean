import IntScript.Proofs.ProgramLog

/-!
# Outputs that fill up

An output may have room for a limited number of bytes. As long as what a program writes fits, the
program cannot tell such an output from one with room for everything. The write that does not fit
fills the output up, and its failure ends the run there and then. So the output is left with the
beginning of what is written otherwise, as much as there is room for.

Two executions are compared that differ only in the room of their outputs. How they compare is shown
for the steps of an evaluation, and passes from there to all courses.
-/

namespace IntScript

open IntScript.Eval (Context)

namespace Output

/-- An output without a limit takes everything. -/
theorem write_of_unlimited {out : Output} (h : out.limit = none) (bytes : List UInt8) :
    out.write bytes = (.ok (), { out with written := out.written ++ bytes }) := by
  rw [write, room, h]
  rfl

/-- What has been written goes on with the beginning of what is written later. -/
theorem Precedes.take_eq {a b : Output} (h : a.Precedes b) {k : Nat} (hk : k < a.written.size) :
    k < b.written.size ∧ b.written.toList.take k = a.written.toList.take k := by
  obtain ⟨more, hmore⟩ := h
  have hlength : k ≤ a.written.toList.length := by
    rw [Array.length_toList]
    omega
  have hsize := congrArg List.length hmore
  simp only [List.length_append, Array.length_toList] at hsize
  refine ⟨by omega, ?_⟩
  rw [← hmore, List.take_append_of_le_length hlength]

end Output

/-- The machine with an output that has room for `k` bytes and then reports the given failure. -/
def Machine.withRoom (m : Machine) (k : Nat) (whenFull : DeviceFault) : Machine :=
  { m with output := { m.output with limit := some k, whenFull } }

/-- How a result compares with that on an output which has room for `k` bytes. -/
inductive Truncates (k : Nat) (whenFull : DeviceFault) {ε α : Type} (isFull : ε → Prop) :
    Outcome ε α × Machine → Outcome ε α × Machine → Prop
  /-- What was written fits, and the outcome is the same. -/
  | fits {o : Outcome ε α} {m : Machine} (h : m.output.written.size ≤ k) :
    Truncates k whenFull isFull (o, m) (o, m.withRoom k whenFull)
  /-- More was written than fits, the output has taken the beginning of it, and its failure is the
  outcome. -/
  | cut {o : Outcome ε α} {m m' : Machine} {e : ε} (h : k < m.output.written.size) (he : isFull e)
    (hw : m'.output.written.toList = m.output.written.toList.take k) :
    Truncates k whenFull isFull (o, m) (.failed e, m')

/-- An execution fills an output up as far as there is room in it. -/
structure Exec.Fills (k : Nat) (whenFull : DeviceFault) {α : Type} (x : Exec α) : Prop where
  /-- An output without a limit keeps having none. -/
  unlimited : ∀ m : Machine, m.output.limit = none → (x m).2.output.limit = none
  /-- What was written before is kept. -/
  appends : ∀ m : Machine, m.output.Precedes (x m).2.output
  /-- With an output that has room for `k` bytes the result is truncated. -/
  truncates : ∀ m : Machine, m.output.limit = none → m.output.written.size ≤ k →
    Truncates k whenFull (fun f : Fault => f.cause = .device whenFull) (x m)
      (x (m.withRoom k whenFull))

namespace Exec

variable {k : Nat} {whenFull : DeviceFault} {α β : Type}

/-- An execution fills the output if it does not look at it. -/
theorem Fills.of_output {x : Exec α}
    (h : ∀ (m : Machine) (output : Output),
      x { m with output } = ((x m).1, { (x m).2 with output })) : Fills k whenFull x := by
  have hsame : ∀ m : Machine, (x m).2.output = m.output := fun m => by
    rw [h m m.output]
  refine ⟨fun m hm => ?_, fun m => ?_, fun m _ hroom => ?_⟩
  · rw [hsame, hm]
  · rw [hsame]
    exact .refl _
  · have hfits : (x m).2.output.written.size ≤ k := by rwa [hsame]
    have hroomy : x (m.withRoom k whenFull) = ((x m).1, (x m).2.withRoom k whenFull) := by
      rw [Machine.withRoom, Machine.withRoom, h, hsame]
    rw [hroomy]
    exact .fits hfits

/-- An execution that leaves its machine as it is fills the output. -/
theorem Fills.of_const (o : Outcome Fault α) : Fills k whenFull (fun m => (o, m)) :=
  .of_output fun _ _ => rfl

/-- One execution after another fills the output if both do. -/
theorem Fills.bind {x : Exec α} {f : α → Exec β} (hx : Fills k whenFull x)
    (hf : ∀ a, Fills k whenFull (f a)) : Fills k whenFull (x >>= f) := by
  have hkeep := precedes_bind x fun a => (hf a).appends
  refine ⟨fun m hm => ?_, fun m => (hx.appends m).trans (hkeep m), fun m hm hroom => ?_⟩
  · have hunlimited := hx.unlimited m hm
    rcases hrun : x m with ⟨a | e | _, m'⟩
    · rw [hrun] at hunlimited
      rw [bind_done hrun]
      exact (hf a).unlimited m' hunlimited
    · rw [hrun] at hunlimited
      rw [bind_failed hrun]
      exact hunlimited
    · rw [hrun] at hunlimited
      rw [bind_unfinished hrun]
      exact hunlimited
  · have hunlimited := hx.unlimited m hm
    have htruncates := hx.truncates m hm hroom
    have hmore := hkeep m
    generalize hrun : x m = r at htruncates hunlimited hmore
    generalize hrun' : x (m.withRoom k whenFull) = r' at htruncates
    cases htruncates with
    | @fits o m' hfits =>
      cases o with
      | done a =>
        rw [bind_done hrun, bind_done hrun']
        exact (hf a).truncates m' hunlimited hfits
      | failed e =>
        rw [bind_failed hrun, bind_failed hrun']
        exact .fits hfits
      | unfinished =>
        rw [bind_unfinished hrun, bind_unfinished hrun']
        exact .fits hfits
    | @cut o m' m'' e hlong he hw =>
      -- only the run without a limit goes on, and what it still writes comes behind the cut
      rw [bind_failed hrun']
      obtain ⟨hlonger, htake⟩ := hmore.take_eq hlong
      rcases hend : (x >>= f) m with ⟨o', n⟩
      rw [hend] at hlonger htake
      exact .cut hlonger he (hw.trans htake.symm)

end Exec

namespace Eval

variable {k : Nat} {whenFull : DeviceFault} {ctx : Context}

/-- A printed line fills the output. -/
theorem fills_printLine (t : Tree Mark) (v : Value) :
    Exec.Fills k whenFull (printLine ctx t v) := by
  generalize hbytes : Text.encode (Value.chars v ++ ['\n']) = bytes
  refine ⟨fun m hm => ?_, fun m => ?_, fun m hm hroom => ?_⟩
  · rw [printLine_snd, hbytes, Output.write_of_unlimited hm]
    exact hm
  · rw [printLine_snd]
    exact Output.precedes_write _ _
  · have hfull : (m.withRoom k whenFull).output.room = some (k - m.output.written.size) := rfl
    have hlength : m.output.written.toList.length = m.output.written.size := Array.length_toList
    have hsize : (m.output.written ++ bytes).size = m.output.written.size + bytes.length := by
      rw [← Array.length_toList, Array.toList_appendList, List.length_append, hlength]
    have hkept : m.output.written.toList.take k = m.output.written.toList :=
      List.take_of_length_le (by omega)
    unfold printLine
    rw [hbytes, Output.write_of_unlimited hm, Output.write, hfull]
    dsimp only
    by_cases hfits : bytes.length ≤ k - m.output.written.size
    · rw [if_pos hfits]
      exact .fits (by dsimp only; omega)
    · rw [if_neg hfits]
      refine .cut (by dsimp only; omega) rfl ?_
      change (m.output.written ++ bytes.take (k - m.output.written.size)).toList =
        (m.output.written ++ bytes).toList.take k
      rw [Array.toList_appendList, Array.toList_appendList, List.take_append, hlength,
        hkept]

/-- Reading a number does not depend on the output. -/
theorem fills_readInput (t : Tree Mark) : Exec.Fills k whenFull (readInput ctx t) := by
  refine .of_output fun m output => ?_
  unfold readInput
  dsimp only
  rcases m.input.next with ⟨_ | _, _⟩ <;> rfl

/-- Reading a slot does not depend on the output. -/
theorem fills_readSlot (t : Tree Mark) (slot : Nat) :
    Exec.Fills k whenFull (readSlot ctx t slot) := by
  refine .of_output fun m output => ?_
  unfold readSlot
  dsimp only
  cases m.stack.read slot <;> rfl

/-- Writing a slot does not depend on the output. -/
theorem fills_writeSlot (t : Tree Mark) (slot : Nat) (v : Value) :
    Exec.Fills k whenFull (writeSlot ctx t slot v) := by
  refine .of_output fun m output => ?_
  unfold writeSlot
  dsimp only
  cases m.stack.write slot v <;> rfl

/-- Counting a loop body does not depend on the output. -/
theorem fills_countIteration (t : Tree Mark) :
    Exec.Fills k whenFull (countIteration ctx t) := by
  refine .of_output fun m output => ?_
  unfold countIteration
  dsimp only
  cases ctx.limits.maxIterations with
  | none => rfl
  | some n => dsimp only; split <;> rfl

/-- Flushing does not depend on the room. -/
theorem fills_finish (t : Tree Mark) : Exec.Fills k whenFull (finish ctx t) := by
  have hflush : ∀ m : Machine, ∃ o, finish ctx t m = (o, m) ∧
      finish ctx t (m.withRoom k whenFull) = (o, m.withRoom k whenFull) := by
    intro m
    have hsame : (m.withRoom k whenFull).output.flush = m.output.flush := rfl
    unfold finish
    rw [hsame]
    cases m.output.flush <;> exact ⟨_, rfl, rfl⟩
  refine ⟨fun m hm => ?_, fun m => ?_, fun m _ hroom => ?_⟩
  all_goals obtain ⟨o, hrun, hrun'⟩ := hflush m
  · rw [hrun]
    exact hm
  · rw [hrun]
    exact .refl _
  · rw [hrun, hrun']
    exact .fits hroom

end Eval

variable {k : Nat} {whenFull : DeviceFault}

/-- Every step of an evaluation fills the output. -/
theorem Request.fills_exec (ctx : Context) (r : Request) :
    Exec.Fills k whenFull (r.exec ctx) := by
  cases r with
  | come node => exact .of_const _
  | yield node v => exact .of_const _
  | ask node => exact Eval.fills_readInput node
  | load node slot => exact Eval.fills_readSlot node slot
  | store node slot v => exact Eval.fills_writeSlot node slot v
  | print node v => exact Eval.fills_printLine node v
  | count loop => exact Eval.fills_countIteration loop

/-- Every course fills the output. -/
theorem Course.fills_exec {α : Type} (ctx : Context) (x : Course α) :
    Exec.Fills k whenFull (x.exec ctx) := by
  induction x with
  | done a => exact .of_const _
  | failed e => exact .of_const _
  | unfinished => exact .of_const _
  | step r next ih => exact (r.fills_exec ctx).bind ih

namespace Program

/-- The execution behind a run fills the output. -/
theorem fills_execution (p : Program) (limits : Limits) (patience : Nat) :
    Exec.Fills k whenFull (p.execution limits patience) := by
  rw [execution_eq]
  exact ((p.course limits patience).fills_exec _).bind fun _ => Eval.fills_finish p.root

/-- A run on an output with limited room is truncated. -/
theorem truncates_run (p : Program) (limits : Limits) (patience : Nat) (input : Input)
    {output : Output} (hlimit : output.limit = none) (hroom : output.written.size ≤ k) :
    Truncates k whenFull (· = Error.device whenFull.message)
      (p.run limits patience input output)
      (p.run limits patience input { output with limit := some k, whenFull }) := by
  have hfills : Exec.Fills k whenFull (p.execution limits patience) :=
    p.fills_execution limits patience
  have htruncates := hfills.truncates (p.start input output) hlimit hroom
  rw [run_eq, run_eq]
  change Truncates k whenFull _ _
    (p.report (p.execution limits patience ((p.start input output).withRoom k whenFull)))
  generalize p.execution limits patience (p.start input output) = r at htruncates ⊢
  generalize p.execution limits patience ((p.start input output).withRoom k whenFull) = r'
    at htruncates ⊢
  cases htruncates with
  | @fits o m hfits => cases o <;> exact .fits hfits
  | @cut o m m' e hlong he hw =>
    have hfull : Error.ofFault e p.source = .device whenFull.message := by
      rw [Error.ofFault, he]
    cases o <;> exact .cut hlong hfull hw

/-- A full output truncates and does nothing else. If a run ends on an output that takes everything,
then on one that has room for `k` bytes it ends in the same way and with the same output if what is
written fits; otherwise it ends with the failure of the output, which has taken the first `k` bytes.
It ends in no other way. -/
theorem full_output_truncates {p : Program} {limits : Limits} {input : Input} {flushFails : Bool}
    {o : Outcome Error Stack} {m : Machine}
    (hends : EndsWith (fun n => p.run limits n input { flushFails }) o m) (k : Nat)
    (whenFull : DeviceFault) :
    (m.output.written.size ≤ k →
      ∃ m', m'.output.written = m.output.written ∧ m'.stack = m.stack ∧ ∀ o' n,
        EndsWith (fun n => p.run limits n input { limit := some k, whenFull, flushFails }) o' n ↔
          o' = o ∧ n = m') ∧
    (k < m.output.written.size →
      ∃ m', m'.output.written.toList = m.output.written.toList.take k ∧ ∀ o' n,
        EndsWith (fun n => p.run limits n input { limit := some k, whenFull, flushFails }) o' n ↔
          o' = .failed (.device whenFull.message) ∧ n = m') := by
  have hpatient := p.isPatient_run limits input { limit := some k, whenFull, flushFails }
  obtain ⟨ho, patience, hrun⟩ := hends
  dsimp only at hrun
  have htruncates : Truncates k whenFull (· = Error.device whenFull.message)
      (p.run limits patience input { flushFails })
      (p.run limits patience input { limit := some k, whenFull, flushFails }) :=
    p.truncates_run limits patience input rfl (Nat.zero_le k)
  rw [hrun] at htruncates
  generalize hrun' : p.run limits patience input { limit := some k, whenFull, flushFails } = r
    at htruncates
  cases htruncates with
  | fits hfits =>
    have hsame := hpatient.endsWith_iff ⟨ho, patience, hrun'⟩
    refine ⟨fun _ => ⟨m.withRoom k whenFull, rfl, rfl, hsame⟩, fun hlong => ?_⟩
    omega
  | cut hlong he hw =>
    subst he
    have hfull := hpatient.endsWith_iff ⟨by simp, patience, hrun'⟩
    refine ⟨fun hfits => ?_, fun _ => ⟨_, hw, hfull⟩⟩
    omega

/-- With the input `1 12 1 34 0` the loop prints `12` and `34`. Room for four bytes ends the run in
the middle of the second line, and with room for six bytes nothing changes. -/
theorem full_output_truncates_echo :
    ∃ p, compile "while(?)print ?;" = .ok p ∧
      (∃ m, EndsWith (fun n => p.run {} n
          (.ofBytes [49, 32, 49, 50, 32, 49, 32, 51, 52, 32, 48] false) { limit := some 4 })
        (.failed (.device "sink full")) m ∧ m.output.written.toList = [49, 50, 10, 51]) ∧
      ∃ m, EndsWith (fun n => p.run {} n
          (.ofBytes [49, 32, 49, 50, 32, 49, 32, 51, 52, 32, 48] false) { limit := some 6 })
        (.done m.stack) m ∧ m.output.written = #[49, 50, 10, 51, 52, 10] := by
  have hparse : parse "while(?)print ?;" = .ok echoTree := by cbv
  have hcompile := compile_of_parse hparse
  generalize (resolve .empty _).1 = layout at hcompile
  generalize (resolve .empty _).2 = ann at hcompile
  have heval : ∀ stack, Eval.run ⟨{}, ann, true, 3⟩ echoTree.number
        ⟨stack, .ofBytes [49, 32, 49, 50, 32, 49, 32, 51, 52, 32, 48] false, {}, 0⟩ =
      (.done none, ⟨stack, ⟨[], [], false⟩, { written := #[49, 50, 10, 51, 52, 10] }, 2⟩) := by
    intro stack
    cbv
  have hlength : (#[49, 50, 10, 51, 52, 10] : Array UInt8).size = 6 := rfl
  have hends : EndsWith (fun n => Program.run ⟨"while(?)print ?;", echoTree.number, layout, ann⟩ {}
      n (.ofBytes [49, 32, 49, 50, 32, 49, 32, 51, 52, 32, 48] false) {})
      (.done (.zeros layout.slotCount))
      ⟨.zeros layout.slotCount, ⟨[], [], false⟩, { written := #[49, 50, 10, 51, 52, 10] }, 2⟩ := by
    refine ⟨by simp, 3, ?_⟩
    dsimp only [run, start]
    rw [heval]
  obtain ⟨m, hcut, hiff⟩ := (full_output_truncates hends 4 .outputFull).2
    (by dsimp only; omega)
  obtain ⟨m', hwritten, hstack, hiff'⟩ := (full_output_truncates hends 6 .outputFull).1
    (Nat.le_of_eq hlength)
  refine ⟨_, hcompile, ⟨m, (hiff _ _).2 ⟨rfl, rfl⟩, hcut⟩, m', (hiff' _ _).2 ⟨?_, rfl⟩, hwritten⟩
  rw [hstack]

end Program

end IntScript
