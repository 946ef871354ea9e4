import IntScript.Proofs.Eval.Course
import IntScript.Proofs.InputStream

/-!
# The log of an evaluation

The log of an evaluation lists its steps in order, each with the machine on which it is made. It
accounts for the devices: the numbers that were asked for are those that the input has lost, and the
values that were printed are those that the output has got, if it takes everything.
-/

namespace IntScript

open IntScript.Eval (Context)

/-- The steps of an evaluation in order, each with the machine on which it is made. -/
abbrev Log : Type := List (Request × Machine)

/-- The value that a step prints. -/
def Request.printed? : Request → Option Value
  | .print _ v => some v
  | _ => none

/-- What the input gives to a step that asks for a number. -/
def Request.asked? (r : Request) (m : Machine) : Option (Except Input.Fault Value) :=
  match r with
  | .ask _ => some m.input.next.1
  | _ => none

namespace Log

/-- The values that were printed. -/
def printed (log : Log) : List Value := log.filterMap fun entry => entry.1.printed?

/-- What the input has given when it was asked. -/
def asked (log : Log) : List (Except Input.Fault Value) :=
  log.filterMap fun entry => entry.1.asked? entry.2

/-- The last step, where an earlier one was made before the log begins. -/
def last? (earlier : Option Request) (log : Log) : Option Request :=
  log.foldl (fun _ entry => some entry.1) earlier

/-- The last step of a log is its last entry. -/
theorem last?_append (earlier : Option Request) (log : Log) (r : Request) (m : Machine) :
    last? earlier (log ++ [(r, m)]) = some r := by
  rw [last?, List.foldl_append]
  rfl

/-- A log with a last step ends with it. -/
theorem exists_of_last? {log : Log} {r : Request} (h : last? none log = some r) :
    ∃ before m, log = before ++ [(r, m)] := by
  cases log using List.reverseRecOn with
  | nil => cases h
  | append_singleton before entry =>
    rw [last?_append] at h
    cases h
    exact ⟨before, entry.2, rfl⟩

end Log

namespace Course

variable {α β : Type} {ctx : Context}

/-- The log of a course that is carried out on a machine. -/
def log (ctx : Context) : Course α → Machine → Log
  | .done _, _ => []
  | .failed _, _ => []
  | .unfinished, _ => []
  | .step r next, m => (r, m) :: match r.exec ctx m with
    | (.done answer, m') => (next answer).log ctx m'
    | _ => []

/-- A step that is done is followed by the log of what comes next. -/
theorem log_done {r : Request} {next : r.Answer → Course α} {m m' : Machine} {answer : r.Answer}
    (h : r.exec ctx m = (.done answer, m')) :
    (step r next).log ctx m = (r, m) :: (next answer).log ctx m' := by
  rw [log, h]

/-- A step that fails is the last one. -/
theorem log_failed {r : Request} {next : r.Answer → Course α} {m m' : Machine} {f : Fault}
    (h : r.exec ctx m = (.failed f, m')) : (step r next).log ctx m = [(r, m)] := by
  rw [log, h]

/-- A step that is given up is the last one. -/
theorem log_unfinished {r : Request} {next : r.Answer → Course α} {m m' : Machine}
    (h : r.exec ctx m = (.unfinished, m')) : (step r next).log ctx m = [(r, m)] := by
  rw [log, h]

/-- If a step of a log fails, then the whole fails with it. -/
theorem exec_of_mem_log {x : Course α} {m n n' : Machine} {r : Request} {f : Fault}
    (hmem : (r, n) ∈ x.log ctx m) (hfail : r.exec ctx n = (.failed f, n')) :
    x.exec ctx m = (.failed f, n') := by
  induction x generalizing m with
  | done a => cases hmem
  | failed e => cases hmem
  | unfinished => cases hmem
  | step q next ih =>
    rcases hrun : q.exec ctx m with ⟨answer | e | _, m'⟩
    · rw [log_done hrun] at hmem
      rcases List.mem_cons.1 hmem with hfirst | hlater
      · cases hfirst
        rw [hfail] at hrun
        cases hrun
      · rw [exec, Exec.bind_done hrun]
        exact ih answer hlater
    · rw [log_failed hrun] at hmem
      cases List.mem_singleton.1 hmem
      exact Exec.bind_failed hfail
    · rw [log_unfinished hrun] at hmem
      cases List.mem_singleton.1 hmem
      exact Exec.bind_failed hfail

end Course

/-- The bytes of the lines of some values. -/
def Value.lines (vs : List Value) : List UInt8 :=
  vs.flatMap fun v => Text.encode (Value.chars v ++ ['\n'])

namespace Output

/-- The output behind the lines of some values. -/
def withLines (out : Output) (vs : List Value) : Output :=
  { out with written := out.written ++ Value.lines vs }

/-- Nothing is written. -/
theorem withLines_nil (out : Output) : out.withLines [] = out := by
  have hbytes : out.written ++ Value.lines [] = out.written := by
    rw [← Array.toList_inj, Array.toList_appendList]
    exact List.append_nil _
  rw [withLines, hbytes]

/-- Lines are written behind others. -/
theorem withLines_append (out : Output) (vs ws : List Value) :
    (out.withLines vs).withLines ws = out.withLines (vs ++ ws) := by
  have hbytes : out.written ++ Value.lines vs ++ Value.lines ws =
      out.written ++ Value.lines (vs ++ ws) := by
    rw [← Array.toList_inj]
    simp only [Array.toList_appendList, Value.lines, List.flatMap_append, List.append_assoc]
  rw [withLines, withLines, withLines, ← hbytes]

end Output

namespace Request

variable {ctx : Context}

/-- Whether a step leaves the input and the output alone. -/
def isSilent : Request → Bool
  | .ask _ | .print .. => false
  | _ => true

/-- A silent step keeps the devices as they are, and it does not fail by the fault of the program or
its input. -/
theorem exec_silent {r : Request} (h : r.isSilent = true) (m : Machine) :
    (r.exec ctx m).2.input = m.input ∧ (r.exec ctx m).2.output = m.output ∧
      ∀ f, (r.exec ctx m).1 = .failed f → f.cause.group ≠ .runtime := by
  cases r with
  | come node => exact ⟨rfl, rfl, fun f hf => by cases hf⟩
  | yield node v => exact ⟨rfl, rfl, fun f hf => by cases hf⟩
  | ask node => cases h
  | load node slot =>
    rw [exec, Eval.readSlot]
    split
    · exact ⟨rfl, rfl, fun f hf => by cases hf⟩
    · exact ⟨rfl, rfl, fun f hf hgroup => by cases hf; cases hgroup⟩
  | store node slot v =>
    rw [exec, Eval.writeSlot]
    split
    · exact ⟨rfl, rfl, fun f hf => by cases hf⟩
    · exact ⟨rfl, rfl, fun f hf hgroup => by cases hf; cases hgroup⟩
  | print node v => cases h
  | count loop =>
    rw [exec, Eval.countIteration]
    cases ctx.limits.maxIterations with
    | none => exact ⟨rfl, rfl, fun f hf => by cases hf⟩
    | some limit =>
      dsimp only
      split
      · exact ⟨rfl, rfl, fun f hf hgroup => by cases hf; cases hgroup⟩
      · exact ⟨rfl, rfl, fun f hf => by cases hf⟩

/-- A step writes the line of the value that it prints. -/
theorem output_exec {m : Machine} (h : m.output.limit = none) (r : Request) :
    (r.exec ctx m).2.output = m.output.withLines r.printed?.toList := by
  have hquiet : m.output = m.output.withLines [] := m.output.withLines_nil.symm
  cases r with
  | ask node =>
    have hread : (Eval.readInput ctx node m).2.output = m.output := by rw [Eval.readInput_snd]
    exact hread.trans hquiet
  | print node v =>
    change (Eval.printLine ctx node v m).2.output = _
    rw [Eval.printLine_snd, Output.withLines, Value.lines]
    simp [Output.write, Output.room, h, printed?]
  | _ => exact (exec_silent (by rfl) m).2.1.trans hquiet

/-- A step that is done has taken from the input what it was given. -/
theorem remaining_exec {r : Request} {m m' : Machine} {answer : r.Answer}
    (h : r.exec ctx m = (.done answer, m')) :
    m.input.remaining = (r.asked? m).toList ++ m'.input.remaining := by
  cases r with
  | ask node =>
    change Eval.readInput ctx node m = _ at h
    have hfst : (Eval.readInput ctx node m).1 = _ := Eval.readInput_fst
    have hsnd : (Eval.readInput ctx node m).2 = _ := Eval.readInput_snd
    rw [h] at hfst hsnd
    change m' = _ at hsnd
    rcases Input.next_cases m.input with ⟨-, hnext⟩ | ⟨hsome, -⟩
    · rw [hnext] at hfst
      cases hfst
    · rw [hsome, hsnd]
      rfl
  | print node v =>
    have hsnd : (Eval.printLine ctx node v m).2 = _ := Eval.printLine_snd
    change Eval.printLine ctx node v m = _ at h
    rw [h] at hsnd
    change m' = _ at hsnd
    rw [hsnd]
    rfl
  | _ =>
    have hinput := (congrArg (fun run => run.2.input) h).symm.trans (exec_silent (by rfl) m).1
    exact congrArg Input.remaining hinput.symm

end Request

namespace Course

variable {α : Type} {ctx : Context}

/-- An output that takes everything has got the lines of the values that were printed, however the
course ends. -/
theorem output_exec {x : Course α} {m : Machine} (h : m.output.limit = none) :
    (x.exec ctx m).2.output = m.output.withLines (x.log ctx m).printed := by
  induction x generalizing m with
  | done a => exact m.output.withLines_nil.symm
  | failed e => exact m.output.withLines_nil.symm
  | unfinished => exact m.output.withLines_nil.symm
  | step r next ih =>
    have hstep : (r.exec ctx m).2.output = _ := r.output_exec h
    have hprinted : ∀ log : Log, Log.printed ((r, m) :: log) =
        r.printed?.toList ++ Log.printed log := by
      intro log
      rw [Log.printed, List.filterMap_cons]
      cases r.printed? <;> rfl
    rcases hrun : r.exec ctx m with ⟨answer | f | _, m'⟩
    all_goals rw [hrun] at hstep
    · have hlimit : m'.output.limit = none := by
        rw [hstep]
        exact h
      rw [exec, Exec.bind_done hrun, log_done hrun, ih answer hlimit, hstep, hprinted,
        Output.withLines_append]
    · rw [exec, Exec.bind_failed hrun, log_failed hrun, hprinted, Log.printed,
        List.filterMap_nil, List.append_nil]
      exact hstep
    · rw [exec, Exec.bind_unfinished hrun, log_unfinished hrun, hprinted, Log.printed,
        List.filterMap_nil, List.append_nil]
      exact hstep

/-- Before each step the input has lost what it was asked for so far. -/
theorem remaining_log {x : Course α} {m n : Machine} {before after : Log} {r : Request}
    (h : x.log ctx m = before ++ (r, n) :: after) :
    m.input.remaining = before.asked ++ n.input.remaining := by
  induction x generalizing m before with
  | done a => simp [log] at h
  | failed e => simp [log] at h
  | unfinished => simp [log] at h
  | step q next ih =>
    cases before with
    | nil =>
      rw [log, List.nil_append] at h
      obtain ⟨hentry, -⟩ := List.cons.inj h
      cases hentry
      rfl
    | cons entry before =>
      rcases hrun : q.exec ctx m with ⟨answer | f | _, m'⟩
      · rw [log_done hrun] at h
        obtain ⟨rfl, hlater⟩ := List.cons.inj h
        have hasked : Log.asked ((q, m) :: before) = (q.asked? m).toList ++ Log.asked before := by
          rw [Log.asked, List.filterMap_cons]
          cases q.asked? m <;> rfl
        rw [Request.remaining_exec hrun, ih answer hlater, hasked, List.append_assoc]
      · rw [log_failed hrun] at h
        simp at h
      · rw [log_unfinished hrun] at h
        simp at h

end Course

end IntScript
