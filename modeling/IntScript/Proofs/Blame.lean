import IntScript.Proofs.Diagnostics
import IntScript.Proofs.Parse.Nesting
import IntScript.Proofs.ProgramLog

/-!
# Who is to blame

Four things that a compiled program does can be its own fault or that of its input: it divides by
zero, it takes a remainder by zero, it asks for a number when there is none, and it asks for one
when the next word is not a number. The error of each of them shows the operation or the question
mark at which it happened, and the operation is one whose right operand has just come out as zero.

A run can be repeated with more input only if it has asked for a number when the input had given all
that it had and was at its end.
-/

namespace IntScript

open IntScript.Eval (faultAt)

/-- Each way in which a program or its input fails has a code of its own. -/
theorem Fault.code_iff (f : Fault) :
    (f.diagnostic.code = some "R001" ↔ f.cause = .arithmetic .divisionByZero) ∧
      (f.diagnostic.code = some "R002" ↔ f.cause = .arithmetic .remainderByZero) ∧
      (f.diagnostic.code = some "R003" ↔ f.cause = .inputExhausted) ∧
      (f.diagnostic.code = some "R004" ↔ ∃ token, f.cause = .invalidInput token) := by
  obtain ⟨cause, span⟩ := f
  rcases cause with (_ | _) | _ | _ | _ | _ | _ | _ | _ | _ | _ <;>
    simp [diagnostic, Cause.code]

namespace Error

/-- An error of running is that of a fault of the program or its input. -/
theorem ofFault_eq_runtime {f : Fault} {source s : String} {d : Diagnostic} {r : Bool}
    (h : ofFault f source = .runtime d s r) :
    f.cause.group = .runtime ∧ d = f.diagnostic := by
  obtain ⟨cause, span⟩ := f
  cases cause <;> cases h <;> exact ⟨rfl, rfl⟩

/-- A fault of the program or its input is an error of running. -/
theorem ofFault_of_runtime {f : Fault} (h : f.cause.group = .runtime) (source : String) :
    ofFault f source = .runtime f.diagnostic source f.recoverable := by
  obtain ⟨cause, span⟩ := f
  cases cause <;> first | rfl | cases h

/-- Only the code R003 is that of an error that more input can mend. -/
theorem recoverable_ofFault (f : Fault) (source : String) :
    (ofFault f source).recoverable = true ↔
      ∃ d s r, ofFault f source = .runtime d s r ∧ d.code = some "R003" := by
  have hcause : (ofFault f source).recoverable = true ↔ f.cause = .inputExhausted := by
    obtain ⟨cause, span⟩ := f
    cases cause <;> simp [ofFault, Fault.Cause.group, recoverable, Fault.recoverable]
  have hcode := f.code_iff.2.2.1
  rw [hcause, ← hcode]
  constructor
  · intro h
    have hgroup : f.cause.group = .runtime := by
      rw [hcode.1 h]
      rfl
    exact ⟨_, _, _, ofFault_of_runtime hgroup source, h⟩
  · rintro ⟨d, s, r, heq, hd⟩
    rwa [← (ofFault_eq_runtime heq).2]

end Error

namespace Program

variable {p : Program} {source : String}

/-- The tree of a compiled program is that of its text, with numbers. -/
theorem root_of_compile (h : compile source = .ok p) :
    ∃ t, parse source = .ok t ∧ p.source = source ∧ p.root = t.number := by
  obtain ⟨t, hparse, hsource, -⟩ := isCompiled h
  rw [compile_of_parse hparse] at h
  cases h
  exact ⟨t, hparse, hsource, rfl⟩

/-- The nodes of a compiled program have places. -/
theorem isLocated_of_compile (h : compile source = .ok p) : p.root.IsLocated := by
  obtain ⟨t, -, -, hroot⟩ := root_of_compile h
  rw [hroot]
  exact t.isLocated_numberFrom 0

/-- The nodes of a compiled program are not shared. -/
theorem unshared_of_compile (h : compile source = .ok p) : p.root.Unshared := by
  obtain ⟨t, -, -, hroot⟩ := root_of_compile h
  rw [hroot]
  exact t.number_unshared

/-- A node that asks for a number stands at a question mark. -/
theorem input_spelled (h : compile source = .ok p) {a : Mark} (hn : .input a ∈ p.root.nodes) :
    ∃ s, a.span = some s ∧ s.textIn source.toList = ['?'] := by
  obtain ⟨t, hparse, -, hroot⟩ := root_of_compile h
  obtain ⟨s, hs⟩ := Option.isSome_iff_exists.1 (isLocated_of_compile h _ hn)
  rw [hroot] at hn
  have hspan : a.span = some s := hs
  have hmem : Tree.input s ∈ t.nodes := by
    have hmem := Tree.unmarked_mem_nodes hn
    rw [Tree.unmarked, Tree.relabel, hspan] at hmem
    exact hmem
  exact ⟨s, hspan, ((parse_nests hparse).2 _ hmem).leaf⟩

/-- The log ends where the right operand of an operation has yielded zero. The operator of the
operation and its place in the source are given. -/
def HandsZero (p : Program) (log : Log) (op : BinaryOp) (place : Option Span) : Prop :=
  ∃ a l r before m, .binary a op l r ∈ p.root.nodes ∧ place = a.span ∧
    log = before ++ [(.yield r 0, m)]

/-- The log ends with a question for a number that comes when all that the input gives was handed
out before and the reader is at the end of the input. -/
def AsksInVain (p : Program) (input : Input) (log : Log) : Prop :=
  ∃ before a m, .input a ∈ p.root.nodes ∧ log = before ++ [(.ask (.input a), m)] ∧
    input.remaining = Log.asked before ∧ m.input.remaining = [] ∧ m.input.fails = false

/-- A diagnostic of a run blames the right place for what the log ends with. -/
structure BlamesRightly (p : Program) (log : Log) (d : Diagnostic) : Prop where
  /-- The diagnostic shows a place. -/
  located : d.span.isSome = true
  /-- It has one of four codes. -/
  coded : d.code = some "R001" ∨ d.code = some "R002" ∨ d.code = some "R003" ∨
    d.code = some "R004"
  /-- It is for a division if and only if it shows one that was just handed zero. -/
  division : d.code = some "R001" ↔ p.HandsZero log .div d.span
  /-- It is for a remainder if and only if it shows one that was just handed zero. -/
  remainder : d.code = some "R002" ↔ p.HandsZero log .mod d.span
  /-- It is for the input only if it shows a question mark. -/
  input : d.code = some "R003" ∨ d.code = some "R004" →
    ∃ s, d.span = some s ∧ s.textIn p.source.toList = ['?']

/-- How a run fails for which the program or its input is to blame, with its log. -/
inductive Blame (p : Program) : Log → Fault → Prop
  | division {a : Mark} {l r : Tree Mark} (hn : .binary a .div l r ∈ p.root.nodes)
    (before : Log) (m : Machine) :
    Blame p (before ++ [(.yield r 0, m)]) ⟨.arithmetic .divisionByZero, a.span⟩
  | remainder {a : Mark} {l r : Tree Mark} (hn : .binary a .mod l r ∈ p.root.nodes)
    (before : Log) (m : Machine) :
    Blame p (before ++ [(.yield r 0, m)]) ⟨.arithmetic .remainderByZero, a.span⟩
  | exhausted {a : Mark} (hn : .input a ∈ p.root.nodes) (before : Log) {m : Machine}
    (hnext : m.input.next.1 = .error .exhausted) :
    Blame p (before ++ [(.ask (.input a), m)]) ⟨.inputExhausted, a.span⟩
  | invalid {a : Mark} (hn : .input a ∈ p.root.nodes) (before : Log) {m : Machine}
    {token : String} (hnext : m.input.next.1 = .error (.invalid token)) :
    Blame p (before ++ [(.ask (.input a), m)]) ⟨.invalidInput token, a.span⟩

end Program

/-- The only step that fails by the fault of the input is the one that asks for a number. -/
theorem Request.eq_ask_of_failed {ctx : Eval.Context} {r : Request} {m m' : Machine} {f : Fault}
    (h : r.exec ctx m = (.failed f, m')) (hgroup : f.cause.group = .runtime) :
    ∃ n e, r = .ask n ∧ m.input.next.1 = .error e ∧ f = faultAt ctx n (.ofInput e) := by
  cases r with
  | ask node =>
    have hfst : (Eval.readInput ctx node m).1 = _ := Eval.readInput_fst
    change Eval.readInput ctx node m = _ at h
    rw [h] at hfst
    cases hnext : m.input.next.1 with
    | ok v =>
      rw [hnext] at hfst
      cases hfst
    | error e =>
      rw [hnext] at hfst
      cases hfst
      exact ⟨node, e, rfl, rfl, rfl⟩
  | print node v =>
    have hfst : (Eval.printLine ctx node v m).1 = _ := Eval.printLine_fst
    change Eval.printLine ctx node v m = _ at h
    rw [h] at hfst
    generalize (m.output.write _).1 = written at hfst
    cases written <;> cases hfst
    cases hgroup
  | _ => exact absurd hgroup ((exec_silent (by rfl) m).2.2 f (congrArg Prod.fst h))

namespace Program

variable {p : Program} {source : String} {limits : Limits} {patience : Nat} {input : Input}
  {output : Output}

/-- A course that fails by the fault of the program or its input fails in one of the four ways. -/
theorem blame_of_failed {f : Fault} {m : Machine}
    (h : (p.course limits patience).exec (p.context limits patience) (p.start input output) =
      (.failed f, m)) (hgroup : f.cause.group = .runtime) :
    p.Blame (p.log limits patience input output) f := by
  have habides := p.abides_course limits patience
  rcases habides.failed_cases h with hmay | ⟨before, r, n, hlog, hfail⟩
  · cases hmay with
    | division hn hlast =>
      obtain ⟨before, n, hlog⟩ := Log.exists_of_last? hlast
      change p.log limits patience input output = _ at hlog
      rw [hlog]
      exact .division hn before n
    | remainder hn hlast =>
      obtain ⟨before, n, hlog⟩ := Log.exists_of_last? hlast
      change p.log limits patience input output = _ at hlog
      rw [hlog]
      exact .remainder hn before n
    | other hother => exact absurd hgroup hother
  · obtain ⟨node, e, rfl, hnext, rfl⟩ := Request.eq_ask_of_failed hfail hgroup
    have hmay := habides.log hlog
    change p.log limits patience input output = _ at hlog
    rw [hlog]
    cases hmay with
    | ask hn _ =>
      cases e with
      | exhausted => exact .exhausted hn before hnext
      | invalid token => exact .invalid hn before hnext
      | device fault => cases hgroup

/-- Two operations that were just handed zero at the end of one log are the same. -/
theorem HandsZero.op_eq (h : p.root.Unshared) {before : Log} {op op' : BinaryOp} {a : Mark}
    {l r : Tree Mark} {m : Machine} {place : Option Span} (hn : .binary a op l r ∈ p.root.nodes)
    (hzero : p.HandsZero (before ++ [(.yield r 0, m)]) op' place) : op' = op := by
  obtain ⟨a', l', r', before', m', hn', -, hlog⟩ := hzero
  obtain ⟨-, hlast⟩ := List.append_inj' hlog rfl
  cases hlast
  have hright : ∀ (a : Mark) op (l : Tree Mark), (Role.right, r) ∈ (Tree.binary a op l r).children :=
    fun _ _ _ => List.mem_cons_of_mem _ List.mem_cons_self
  have hsame := h.eq_of_child hn' hn (hright a' op' l') (hright a op l)
  cases hsame
  rfl

/-- A log that ends with a question does not end with a zero. -/
theorem not_handsZero_of_ask {before : Log} {n : Tree Mark} {m : Machine} {op : BinaryOp}
    {place : Option Span} : ¬p.HandsZero (before ++ [(.ask n, m)]) op place := by
  rintro ⟨a, l, r, before', m', -, -, hlog⟩
  obtain ⟨-, hlast⟩ := List.append_inj' hlog rfl
  cases hlast

/-- A question for a number that fails with one of the two codes for it is blamed rightly. -/
theorem BlamesRightly.of_ask (h : compile source = .ok p) {a : Mark}
    (hn : .input a ∈ p.root.nodes) (before : Log) (m : Machine) {d : Diagnostic}
    (hspan : d.span = a.span) (hcode : d.code = some "R003" ∨ d.code = some "R004") :
    p.BlamesRightly (before ++ [(.ask (.input a), m)]) d := by
  obtain ⟨-, -, hsource, -⟩ := root_of_compile h
  have hlocated : d.span.isSome = true := hspan ▸ isLocated_of_compile h _ hn
  have hother : ∀ code, code ≠ "R003" → code ≠ "R004" → d.code ≠ some code := by
    intro code hthree hfour heq
    rw [heq, Option.some_inj, Option.some_inj] at hcode
    exact hcode.elim hthree hfour
  refine ⟨hlocated, .inr (.inr hcode), ?_, ?_, fun _ => ?_⟩
  · exact iff_of_false (hother _ (by decide) (by decide)) not_handsZero_of_ask
  · exact iff_of_false (hother _ (by decide) (by decide)) not_handsZero_of_ask
  · rw [hspan, hsource]
    exact input_spelled h hn

/-- An operation that was just handed zero is blamed rightly with the code for its operator. -/
theorem BlamesRightly.of_zero (h : compile source = .ok p) {a : Mark} {op : BinaryOp}
    {l r : Tree Mark} (hn : .binary a op l r ∈ p.root.nodes) (before : Log) (m : Machine)
    {d : Diagnostic} (hspan : d.span = a.span)
    (hcode : op = .div ∧ d.code = some "R001" ∨ op = .mod ∧ d.code = some "R002") :
    p.BlamesRightly (before ++ [(.yield r 0, m)]) d := by
  have hunshared := unshared_of_compile h
  have hlocated : d.span.isSome = true := hspan ▸ isLocated_of_compile h _ hn
  have hzero : p.HandsZero (before ++ [(.yield r 0, m)]) op d.span :=
    ⟨a, l, r, before, m, hn, hspan, rfl⟩
  rcases hcode with ⟨rfl, hd⟩ | ⟨rfl, hd⟩
  · refine ⟨hlocated, .inl hd, iff_of_true hd hzero, ?_, ?_⟩
    · exact iff_of_false (by rw [hd]; decide) fun hmod => by
        cases hmod.op_eq hunshared hn
    · rw [hd]
      exact fun hinput => absurd hinput (by decide)
  · refine ⟨hlocated, .inr (.inl hd), ?_, iff_of_true hd hzero, ?_⟩
    · exact iff_of_false (by rw [hd]; decide) fun hdiv => by
        cases hdiv.op_eq hunshared hn
    · rw [hd]
      exact fun hinput => absurd hinput (by decide)

/-- Each of the four ways to fail is blamed on the right place. -/
theorem Blame.rightly (h : compile source = .ok p) {log : Log} {f : Fault} (hf : p.Blame log f) :
    p.BlamesRightly log f.diagnostic := by
  cases hf with
  | division hn before m => exact .of_zero h hn before m rfl (.inl ⟨rfl, rfl⟩)
  | remainder hn before m => exact .of_zero h hn before m rfl (.inr ⟨rfl, rfl⟩)
  | exhausted hn before _ => exact .of_ask h hn before _ rfl (.inl rfl)
  | invalid hn before _ => exact .of_ask h hn before _ rfl (.inr rfl)

/-- A run asks in vain if it fails with an error that more input can mend, and only then. -/
theorem recoverable_iff_asksInVain :
    (∃ e m, p.run limits patience input output = (.failed e, m) ∧ e.recoverable = true) ↔
      p.AsksInVain input (p.log limits patience input output) := by
  constructor
  · rintro ⟨e, m, hrun, hrecoverable⟩
    rcases course_failed_of_run hrun with ⟨f, rfl, hcourse⟩ | ⟨message, rfl⟩
    · obtain ⟨d, s, r, heq, hcode⟩ := (Error.recoverable_ofFault f p.source).1 hrecoverable
      obtain ⟨hgroup, rfl⟩ := Error.ofFault_eq_runtime heq
      have hcause := f.code_iff.2.2.1.1 hcode
      have hblame := blame_of_failed hcourse hgroup
      generalize hlog : p.log limits patience input output = log at hblame
      cases hblame with
      | exhausted hn before hnext =>
        obtain ⟨hnone, hfails⟩ := Input.next_eq_exhausted_iff.1 hnext
        have hremaining := Course.remaining_log hlog
        rw [hnone, List.append_nil] at hremaining
        exact ⟨before, _, _, hn, rfl, hremaining, hnone, hfails⟩
      | _ => cases hcause
    · cases hrecoverable
  · rintro ⟨before, a, m, -, hlog, -, hnone, hfails⟩
    have hmem : (Request.ask (.input a), m) ∈ p.log limits patience input output := by
      rw [hlog]
      exact List.mem_append_right _ List.mem_cons_self
    have hask : Request.exec (p.context limits patience) (.ask (.input a)) m =
        (.failed (faultAt (p.context limits patience) (.input a) .inputExhausted),
          { m with input := m.input.next.2 }) := by
      refine Prod.ext ?_ Eval.readInput_snd
      refine Eval.readInput_fst.trans ?_
      rw [Input.next_eq_exhausted_iff.2 ⟨hnone, hfails⟩]
      rfl
    have hrun := run_of_course_failed (Course.exec_of_mem_log hmem hask)
    exact ⟨_, _, hrun, rfl⟩

/-- Runtime errors blame the right place and can be mended only where input is missing. Every one of
a compiled program shows a place: that of a division or remainder whose right operand has just
yielded zero, as its code says, or that of a question mark. An error of compiling or running can be
mended if and only if it has the code R003, and a run fails with such an error if and only if it
comes to a question mark when all of its input was consumed and the reader is at the end. -/
theorem runtime_errors_blame_rightly {p : Program} {source : String}
    (h : compile source = .ok p) (limits : Limits) (patience : Nat) (input : Input)
    (output : Output) :
    (∀ d s r m, p.run limits patience input output = (.failed (.runtime d s r), m) →
      p.BlamesRightly (p.log limits patience input output) d) ∧
    (∀ e : Error, e.Of source →
      (e.recoverable = true ↔ ∃ d s r, e = .runtime d s r ∧ d.code = some "R003")) ∧
    ((∃ e m, p.run limits patience input output = (.failed e, m) ∧ e.recoverable = true) ↔
      p.AsksInVain input (p.log limits patience input output)) := by
  refine ⟨fun d s r m hrun => ?_, fun e he => ?_, recoverable_iff_asksInVain⟩
  · rcases course_failed_of_run hrun with ⟨f, hf, hcourse⟩ | ⟨message, hdevice⟩
    · obtain ⟨hgroup, rfl⟩ := Error.ofFault_eq_runtime hf.symm
      exact (blame_of_failed hcourse hgroup).rightly h
    · cases hdevice
  · cases he with
    | compiling hcompile =>
      rw [compile_eq] at hcompile
      split at hcompile
      · cases hcompile
      · cases hcompile
        simp [Error.ofParse, Error.recoverable]
    | running _ hrun =>
      rcases course_failed_of_run hrun with ⟨f, rfl, -⟩ | ⟨message, rfl⟩
      · exact Error.recoverable_ofFault f _
      · simp [Error.recoverable]

/-- With the input `1 2 1 0` the loop fails at its division, whose right operand has just come out as
zero. With the input `1 2` it asks in vain for a number to go on with. -/
theorem runtime_errors_blame_rightly_division :
    ∃ p, compile "while(?)print 6/?;" = .ok p ∧
      (∃ d s r m, p.run {} 9 (.ofBytes [49, 32, 50, 32, 49, 32, 48] false) {} =
          (.failed (.runtime d s r), m) ∧ d.span = some ⟨14, 17⟩ ∧
        p.HandsZero (p.log {} 9 (.ofBytes [49, 32, 50, 32, 49, 32, 48] false) {}) .div d.span) ∧
      p.AsksInVain (.ofBytes [49, 32, 50] false) (p.log {} 9 (.ofBytes [49, 32, 50] false) {}) := by
  have hparse : parse "while(?)print 6/?;" = .ok divisionLoop := by cbv
  have hcompile := compile_of_parse hparse
  generalize (resolve .empty _).1 = layout at hcompile
  generalize (resolve .empty _).2 = ann at hcompile
  have hdivides : ∀ stack, Eval.run ⟨{}, ann, true, 9⟩ divisionLoop.number
        ⟨stack, .ofBytes [49, 32, 50, 32, 49, 32, 48] false, {}, 0⟩ =
      (.failed ⟨.arithmetic .divisionByZero, some ⟨14, 17⟩⟩,
        ⟨stack, ⟨[], [], false⟩, ⟨#[51, 10], none, .outputFull, false⟩, 2⟩) := by
    intro stack
    cbv
  have hasks : ∀ stack, Eval.run ⟨{}, ann, true, 9⟩ divisionLoop.number
        ⟨stack, .ofBytes [49, 32, 50] false, {}, 0⟩ =
      (.failed ⟨.inputExhausted, some ⟨6, 7⟩⟩,
        ⟨stack, ⟨[], [], false⟩, ⟨#[51, 10], none, .outputFull, false⟩, 1⟩) := by
    intro stack
    cbv
  have hrun : ∃ m, Program.run ⟨"while(?)print 6/?;", divisionLoop.number, layout, ann⟩ {} 9
      (.ofBytes [49, 32, 50, 32, 49, 32, 48] false) {} = (.failed (.ofFault
        ⟨.arithmetic .divisionByZero, some ⟨14, 17⟩⟩ "while(?)print 6/?;"), m) := by
    dsimp only [run, start]
    rw [hdivides]
    exact ⟨_, rfl⟩
  have hrun' : ∃ m, Program.run ⟨"while(?)print 6/?;", divisionLoop.number, layout, ann⟩ {} 9
      (.ofBytes [49, 32, 50] false) {} = (.failed (.ofFault
        ⟨.inputExhausted, some ⟨6, 7⟩⟩ "while(?)print 6/?;"), m) := by
    dsimp only [run, start]
    rw [hasks]
    exact ⟨_, rfl⟩
  obtain ⟨m, hrun⟩ := hrun
  obtain ⟨m', hrun'⟩ := hrun'
  obtain ⟨hblame, -, -⟩ := runtime_errors_blame_rightly hcompile {} 9
    (.ofBytes [49, 32, 50, 32, 49, 32, 48] false) {}
  obtain ⟨-, -, hvain⟩ := runtime_errors_blame_rightly hcompile {} 9
    (.ofBytes [49, 32, 50] false) {}
  refine ⟨_, hcompile, ⟨_, _, _, m, hrun, rfl, ?_⟩, hvain.1 ⟨_, m', hrun', rfl⟩⟩
  exact (hblame _ _ _ m hrun).division.1 rfl

end Program
end IntScript
