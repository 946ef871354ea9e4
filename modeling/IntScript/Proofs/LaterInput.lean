import IntScript.Proofs.Eval.Limits
import IntScript.Proofs.Program

/-!
# Later input

Input is read lazily: a line is looked at only when a number is asked for and no word of the lines
before is left. A run that ends without exhausting its input therefore cannot tell whether more
lines follow. It ends with the same result and the same output on every longer input. A run that
ends by exhausting its input has written the beginning of what is written on every longer one on
which the run ends.

The input that is there at first has to consist of whole lines, since more bytes would otherwise
change its last word.
-/

namespace IntScript

namespace Input

/-- Whole lines stay lines when more bytes follow them. -/
theorem splitLines_append {a : List UInt8} (h : a = [] ∨ a.getLast? = some 10) (b : List UInt8) :
    splitLines (a ++ b) = splitLines a ++ splitLines b := by
  have hsome : ∀ c cs, splitLines (c :: cs) ≠ [] := by
    intro c cs
    rw [splitLines]
    split
    · exact List.cons_ne_nil _ _
    · split <;> exact List.cons_ne_nil _ _
  induction a with
  | nil => rfl
  | cons c a ih =>
    cases a with
    | nil =>
      have hc : c = 10 := by simpa using h
      rw [List.cons_append, List.nil_append, splitLines, if_pos hc, splitLines, if_pos hc]
      rfl
    | cons d a =>
      have hlast : (d :: a).getLast? = some 10 := by simpa using h
      rw [List.cons_append, splitLines, ih (.inr hlast)]
      rw [splitLines.eq_2 c (d :: a)]
      cases hlines : splitLines (d :: a) with
      | nil => exact absurd hlines (hsome d a)
      | cons l ls => split <;> rfl

/-- More lines may follow in the second input, and the device behind the first one does not fail. -/
structure Extends (a b : Input) : Prop where
  /-- The same words are left of the current line. -/
  pending : a.pending = b.pending
  /-- The lines of the first input come first in the second one. -/
  lines : a.lines <+: b.lines
  /-- The first input ends without a failure. -/
  fails : a.fails = false

/-- The next number is looked for in the same lines, until the first input is exhausted. -/
theorem nextOfLines_append (fails : Bool) (ls more : List (List UInt8)) :
    ((nextOfLines false ls).1 = (nextOfLines fails (ls ++ more)).1 ∧
      (nextOfLines false ls).2.Extends (nextOfLines fails (ls ++ more)).2) ∨
    (nextOfLines false ls).1 = .error .exhausted := by
  induction ls with
  | nil => exact .inr rfl
  | cons l ls ih =>
    have hmore : ls <+: ls ++ more := List.prefix_append ls more
    rw [List.cons_append, nextOfLines, nextOfLines]
    cases Text.decode? l with
    | none => exact .inl ⟨rfl, rfl, hmore, rfl⟩
    | some text =>
      dsimp only
      cases Text.words text with
      | nil => exact ih
      | cons w ws => exact .inl ⟨rfl, rfl, hmore, rfl⟩

/-- The next number is the same, until the first input is exhausted. -/
theorem Extends.next {a b : Input} (h : a.Extends b) :
    (a.next.1 = b.next.1 ∧ a.next.2.Extends b.next.2) ∨ a.next.1 = .error .exhausted := by
  obtain ⟨more, hmore⟩ := h.lines
  unfold Input.next
  rw [← h.pending, h.fails, ← hmore]
  cases a.pending with
  | nil => exact nextOfLines_append b.fails a.lines more
  | cons w ws => exact .inl ⟨rfl, rfl, List.prefix_append _ _, rfl⟩

/-- Whole lines are extended by the bytes that follow them. -/
theorem ofBytes_extends {a : List UInt8} (h : a = [] ∨ a.getLast? = some 10) (b : List UInt8) :
    (ofBytes a false).Extends (ofBytes (a ++ b) false) := by
  refine ⟨rfl, ?_, rfl⟩
  change splitLines a <+: splitLines (a ++ b)
  rw [splitLines_append h]
  exact List.prefix_append _ _

end Input

/-- The coupling of a run with one on a longer input. It is cut short when its input is
exhausted. -/
def Coupling.laterInput : Coupling :=
  .ofInput Input.Extends (· = .inputExhausted) fun h =>
    h.next.imp id fun hexhausted => ⟨.exhausted, hexhausted, rfl⟩

namespace Error

/-- The error of a run that asked for a number when its input had none. -/
def IsExhaustion (e : Error) : Prop :=
  ∃ span source, e = .ofFault ⟨.inputExhausted, span⟩ source

/-- No other fault gives that error. -/
theorem isExhaustion_ofFault {f : Fault} {source : String} :
    (ofFault f source).IsExhaustion ↔ f.cause = .inputExhausted := by
  have hrecoverable : (ofFault f source).recoverable = f.recoverable := by
    rcases f with ⟨cause, span⟩
    cases cause <;> rfl
  constructor
  · rintro ⟨span, source', h⟩
    rw [h] at hrecoverable
    exact beq_iff_eq.1 hrecoverable.symm
  · intro h
    exact ⟨f.span, source, by rw [← h]⟩

end Error

namespace Program

/-- The report of an execution leaves the machine as it is. -/
theorem report_snd (p : Program) (r : Outcome Fault Unit × Machine) : (p.report r).2 = r.2 := by
  rcases r with ⟨_ | f | _, m⟩ <;> rfl

/-- The run of a program goes along with another one on devices that are taken for the same. -/
theorem run_goesAlong (K : Coupling) (p : Program) (limits : Limits) {input input' : Input}
    {output output' : Output} (hinput : K.input input input')
    (houtput : K.output output output') :
    GoesAlong K.Agree (fun o => ∃ f, o = .failed (.ofFault f p.source) ∧ K.cuts f.cause)
      (fun k => p.run limits k input output) (fun k => p.run limits k input' output') := by
  have hstart : K.Agree (p.start input output) (p.start input' output') :=
    ⟨rfl, hinput, houtput, rfl⟩
  have htracks : ∀ k k', k ≤ k' →
      Exec.Tracks K (p.execution limits k) (p.execution limits k') := by
    intro k k' hk
    have haligned : Eval.Aligned K ⟨limits, p.annotations, true, k⟩
        ⟨limits, p.annotations, true, k'⟩ :=
      ⟨rfl, rfl, hk, .refl limits, .inl rfl⟩
    exact ((haligned.eval p.root 0).map _).bind fun _ => haligned.finish p.root
  have hruns := Exec.Tracks.runs htracks hstart
  refine ⟨hruns.precedes, fun k k' hk o m ho hrun => ?_⟩
  rw [run_eq] at hrun ⊢
  rw [report_snd]
  rcases hx : p.execution limits k (p.start input output) with ⟨x, mx⟩
  rw [hx] at hrun
  cases x with
  | done u =>
    cases hrun
    rcases hruns.follows k k' hk _ _ (by simp) hx with ⟨m', hy, hagree⟩ | ⟨⟨f, hf, -⟩, -⟩
    · refine .inl ⟨m', ?_, hagree⟩
      rw [hy, report, hagree.stack]
    · cases hf
  | failed f =>
    cases hrun
    rcases hruns.follows k k' hk _ _ (by simp) hx with ⟨m', hy, hagree⟩ | ⟨⟨f', hf, hcut⟩, hbefore⟩
    · refine .inl ⟨m', ?_, hagree⟩
      rw [hy, report]
    · cases hf
      exact .inr ⟨⟨f, rfl, hcut⟩, hbefore⟩
  | unfinished =>
    cases hrun
    exact absurd rfl ho

/-- Patience does not change how the run of a program ends. -/
theorem isPatient_run (p : Program) (limits : Limits) (input : Input) (output : Output) :
    IsPatient fun k => p.run limits k input output := by
  have halong := run_goesAlong (.same fun _ => False) p limits (rfl : input = input)
    (rfl : output = output)
  refine halong.isPatient (fun m m' => Coupling.same_agree_iff.1) ?_
  rintro o ⟨f, -, hcut⟩
  exact hcut

/-- Later input cannot change a run that is decided. If a run ends on an input of whole lines, and
not because that is exhausted, then with any more bytes behind it the run ends with the same result,
which on success is the final stack, and with the same output, and in no other way. Any run that
ends, also by exhausting its input, has written the beginning of what is written by a run that ends
with more bytes. -/
theorem later_input_harmless {p : Program} {limits : Limits} {a : List UInt8}
    (ha : a = [] ∨ a.getLast? = some 10) (b : List UInt8) {output : Output}
    {o : Outcome Error Stack} {m : Machine}
    (hends : EndsWith (fun k => p.run limits k (.ofBytes a false) output) o m) :
    ((∀ e, o = .failed e → ¬e.IsExhaustion) →
      ∃ m', m'.output = m.output ∧ m'.stack = m.stack ∧ ∀ o' n,
        EndsWith (fun k => p.run limits k (.ofBytes (a ++ b) false) output) o' n ↔
          o' = o ∧ n = m') ∧
    (∀ o' n, EndsWith (fun k => p.run limits k (.ofBytes (a ++ b) false) output) o' n →
      m.output.Precedes n.output) := by
  have hpatient := isPatient_run p limits (.ofBytes (a ++ b) false) output
  have halong := run_goesAlong .laterInput p limits (Input.ofBytes_extends ha b)
    (rfl : output = output)
  constructor
  · intro hno
    have hcut : ¬∃ f, o = .failed (.ofFault f p.source) ∧ f.cause = .inputExhausted := by
      rintro ⟨f, hf, hexhausted⟩
      exact hno _ hf (Error.isExhaustion_ofFault.2 hexhausted)
    obtain ⟨m', hagree, hiff⟩ := halong.endsWith_iff hpatient hends hcut
    exact ⟨m', hagree.output.symm, hagree.stack.symm, hiff⟩
  · intro o' n hends'
    exact halong.precedes_of_endsWith hpatient hends hends'

/-- The tree of a loop that prints every other number of the input. -/
def echoTree : Tree Span :=
  .block ⟨0, 16⟩ [.whileLoop ⟨0, 16⟩ (.condition ⟨6, 7⟩ (.input ⟨6, 7⟩))
    (.block ⟨8, 16⟩ [.sequence ⟨8, 16⟩ (.print ⟨8, 15⟩ (.input ⟨14, 15⟩)) none])]

/-- With the lines `1 5` and `0` the loop prints `5` whatever follows them. With the first line
alone its input is exhausted, and whatever follows, it prints `5` before anything else. -/
theorem later_input_harmless_echo :
    ∃ p, compile "while(?)print ?;" = .ok p ∧
      (∀ b, ∃ m, EndsWith
        (fun k => p.run {} k (.ofBytes ([49, 32, 53, 10, 48, 10] ++ b) false) {})
          (.done m.stack) m ∧ m.output.written = #[53, 10]) ∧
      ∀ b o m, EndsWith (fun k => p.run {} k (.ofBytes ([49, 32, 53, 10] ++ b) false) {}) o m →
        [53, 10] <+: m.output.written.toList := by
  have hparse : parse "while(?)print ?;" = .ok echoTree := by cbv
  have hcompile := compile_of_parse hparse
  generalize (resolve .empty _).1 = layout at hcompile
  generalize (resolve .empty _).2 = ann at hcompile
  have hdone : ∀ stack, Eval.run ⟨{}, ann, true, 2⟩ echoTree.number
        ⟨stack, .ofBytes [49, 32, 53, 10, 48, 10] false, {}, 0⟩ =
      (.done none, ⟨stack, ⟨[], [], false⟩, { written := #[53, 10] }, 1⟩) := by
    intro stack
    cbv
  have hexhausted : ∀ stack, Eval.run ⟨{}, ann, true, 2⟩ echoTree.number
        ⟨stack, .ofBytes [49, 32, 53, 10] false, {}, 0⟩ =
      (.failed ⟨.inputExhausted, some ⟨6, 7⟩⟩,
        ⟨stack, ⟨[], [], false⟩, { written := #[53, 10] }, 1⟩) := by
    intro stack
    cbv
  refine ⟨_, hcompile, fun b => ?_, fun b o m hends => ?_⟩
  · have hends : EndsWith (fun k => Program.run ⟨"while(?)print ?;", echoTree.number, layout, ann⟩
        {} k (.ofBytes [49, 32, 53, 10, 48, 10] false) {}) (.done (.zeros layout.slotCount))
        ⟨.zeros layout.slotCount, ⟨[], [], false⟩, { written := #[53, 10] }, 1⟩ := by
      refine ⟨by simp, 2, ?_⟩
      dsimp only [run, start]
      rw [hdone]
    obtain ⟨m, houtput, hstack, hiff⟩ :=
      (later_input_harmless (.inr rfl) b hends).1 fun e he => by cases he
    exact ⟨m, (hiff _ _).2 ⟨by rw [hstack], rfl⟩, by rw [houtput]⟩
  · have hends' : EndsWith (fun k => Program.run ⟨"while(?)print ?;", echoTree.number, layout, ann⟩
        {} k (.ofBytes [49, 32, 53, 10] false) {})
        (.failed (.ofFault ⟨.inputExhausted, some ⟨6, 7⟩⟩ "while(?)print ?;"))
        ⟨.zeros layout.slotCount, ⟨[], [], false⟩, { written := #[53, 10] }, 1⟩ := by
      refine ⟨by simp, 2, ?_⟩
      dsimp only [run, start]
      rw [hexhausted]
    exact (later_input_harmless (.inr rfl) b hends').2 o m hends

end Program

end IntScript
