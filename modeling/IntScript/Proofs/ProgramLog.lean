import IntScript.Proofs.Eval.Rules
import IntScript.Proofs.LaterInput

/-!
# The log of a run

A run of a program carries out the course of its tree and flushes the output. Its log is that of the
course, so it ends where the evaluation ends and does not tell whether the output was flushed.
-/

namespace IntScript

/-- Flushing leaves the machine as it is, and can fail only by the device. -/
theorem Eval.finish_cases (ctx : Eval.Context) (t : Tree Mark) (m : Machine) :
    Eval.finish ctx t m = (.done (), m) ∨
      ∃ e, Eval.finish ctx t m = (.failed (Eval.faultAt ctx t (.device e)), m) := by
  unfold Eval.finish
  cases m.output.flush with
  | ok u => exact .inl rfl
  | error e => exact .inr ⟨e, rfl⟩

namespace Program

/-- What the evaluation of a program knows. -/
abbrev context (p : Program) (limits : Limits) (patience : Nat) : Eval.Context :=
  ⟨limits, p.annotations, true, patience⟩

/-- The course of the evaluation of a program. -/
def course (p : Program) (limits : Limits) (patience : Nat) : Course (Option Value) :=
  .ofTree (p.context limits patience) 0 p.root

/-- The log of a run. -/
def log (p : Program) (limits : Limits) (patience : Nat) (input : Input) (output : Output) : Log :=
  (p.course limits patience).log (p.context limits patience) (p.start input output)

variable (p : Program) (limits : Limits) (patience : Nat)

/-- The execution behind a run carries out the course and flushes the output. -/
theorem execution_eq : p.execution limits patience =
    (p.course limits patience).exec (p.context limits patience) >>= fun _ =>
      Eval.finish (p.context limits patience) p.root := by
  rw [execution, Eval.exec, course, Course.does_ofTree, bind_assoc]
  simp only [pure_bind]

/-- The course of a program is bound to the rules for its tree. -/
theorem abides_course :
    Course.Abides (p.context limits patience) p.root (Course.Announces p.root) none
      (p.course limits patience) :=
  Course.abides_ofTree p.root.mem_nodes_self 0 none

/-- A run leaves the machine on which the course ends. -/
theorem run_snd (input : Input) (output : Output) :
    (p.run limits patience input output).2 =
      ((p.course limits patience).exec (p.context limits patience) (p.start input output)).2 := by
  rw [run_eq, report_snd, execution_eq]
  rcases hrun : (p.course limits patience).exec (p.context limits patience)
    (p.start input output) with ⟨v | f | _, m⟩
  · rw [Exec.bind_done hrun]
    rcases Eval.finish_cases (p.context limits patience) p.root m with hdone | ⟨e, hfailed⟩
    · rw [hdone]
    · rw [hfailed]
  · rw [Exec.bind_failed hrun]
  · rw [Exec.bind_unfinished hrun]

variable {p limits patience} {input : Input} {output : Output} {m : Machine}

/-- If the course fails, then the run fails with the error of that fault. -/
theorem run_of_course_failed {f : Fault}
    (h : (p.course limits patience).exec (p.context limits patience) (p.start input output) =
      (.failed f, m)) : p.run limits patience input output = (.failed (.ofFault f p.source), m) := by
  rw [run_eq, execution_eq, Exec.bind_failed h]
  rfl

/-- A run fails with the error of a fault with which its course fails, or the device cannot be
flushed. -/
theorem course_failed_of_run {e : Error}
    (h : p.run limits patience input output = (.failed e, m)) :
    (∃ f, e = .ofFault f p.source ∧
      (p.course limits patience).exec (p.context limits patience) (p.start input output) =
        (.failed f, m)) ∨ ∃ message, e = .device message := by
  rw [run_eq, execution_eq] at h
  rcases hrun : (p.course limits patience).exec (p.context limits patience)
    (p.start input output) with ⟨v | f | _, m'⟩
  · rw [Exec.bind_done hrun] at h
    rcases Eval.finish_cases (p.context limits patience) p.root m' with hdone | ⟨fault, hfailed⟩
    · rw [hdone] at h
      cases h
    · rw [hfailed] at h
      cases h
      exact .inr ⟨fault.message, rfl⟩
  · rw [Exec.bind_failed hrun] at h
    cases h
    exact .inl ⟨f, rfl, rfl⟩
  · rw [Exec.bind_unfinished hrun] at h
    cases h

end Program
end IntScript
