import IntScript.Program
import IntScript.Proofs.Eval.Statements
import IntScript.Proofs.Parse.Shape
import IntScript.Proofs.Tree.Identity

/-!
# Compiled programs

What is known of every program that was compiled: its tree has the shape of a program, its nodes
have spans, and its variables have the slots of their names. From this follows which faults a run
can end with, and that a run does what the semantics by names says about the tree that was parsed.
-/

namespace IntScript

/-- The faults of programs that are what they should be: the program, its input, a limit or a device
is to blame. -/
inductive Fault.Cause.IsOrdinary (limits : Limits) : Fault.Cause → Prop
  | arithmetic (fault : ArithmeticFault) : IsOrdinary limits (.arithmetic fault)
  | inputExhausted : IsOrdinary limits .inputExhausted
  | invalidInput (token : String) : IsOrdinary limits (.invalidInput token)
  | depthLimit {d : Nat} (h : limits.maxDepth ≤ d) :
      IsOrdinary limits (.depthLimit d limits.maxDepth)
  | iterationLimit {n : Nat} (h : limits.maxIterations = some n) :
      IsOrdinary limits (.iterationLimit n)
  | device (fault : DeviceFault) : IsOrdinary limits (.device fault)

/-- An ordinary fault is not reported as an internal error. -/
theorem Error.ofFault_ne_internal {limits : Limits} {f : Fault} (h : f.cause.IsOrdinary limits)
    (source message : String) : Error.ofFault f source ≠ .internal message := by
  obtain ⟨cause, span⟩ := f
  cases h <;> simp [Error.ofFault, Fault.Cause.group]

namespace Reference

variable {limits : Limits} {d : Nat} {w w' : World} {f : Fault}

/-- The faults of expressions are ordinary. -/
theorem Evaluates.ordinary {e : Tree Span} {r : Except Fault Value}
    (h : Evaluates limits d e w r w') (hr : r = .error f) : f.cause.IsOrdinary limits := by
  induction h with
  | tooDeep hd =>
    cases hr
    exact .depthLimit hd
  | literal => cases hr
  | @input _ _ _ result _ _ _ =>
    cases result with
    | ok v => cases hr
    | error fault =>
      cases hr
      cases fault with
      | exhausted => exact .inputExhausted
      | invalid token => exact .invalidInput token
      | device fault => exact .device fault
  | var => cases hr
  | binaryLeft _ _ ih => exact ih hr
  | binaryRight _ _ _ _ ih => exact ih hr
  | @binary _ _ op _ _ _ _ _ x y _ _ _ _ _ =>
    cases happly : op.apply x y with
    | ok v =>
      rw [happly] at hr
      cases hr
    | error fault =>
      rw [happly] at hr
      cases hr
      exact .arithmetic fault
  | unaryFails _ _ _ ih => exact ih hr
  | unary => cases hr
  | change => cases hr
  | assignFails _ _ ih => exact ih hr
  | assign => cases hr
  | printFails _ _ ih => exact ih hr
  | @print _ _ _ _ _ _ written _ _ _ _ _ =>
    cases written with
    | ok u => cases hr
    | error fault =>
      cases hr
      exact .device fault
  | condition _ _ ih => exact ih hr

/-- The faults of statements are ordinary. -/
theorem Executes.ordinary {s : Tree Span} {r : Except Fault Unit}
    (h : Executes limits d s w r w') (hr : r = .error f) : f.cause.IsOrdinary limits := by
  induction h with
  | tooDeep hd =>
    cases hr
    exact .depthLimit hd
  | @expression _ _ _ _ _ r _ he =>
    cases r with
    | ok v => cases hr
    | error fault =>
      cases hr
      exact he.ordinary rfl
  | blockEnd => cases hr
  | blockStop _ _ ih => exact ih hr
  | blockNext _ _ _ _ ih => exact ih hr
  | ifFails _ hc =>
    cases hr
    exact hc.ordinary rfl
  | ifTrue _ _ _ _ ih => exact ih hr
  | ifFalse _ _ _ _ ih => exact ih hr
  | ifNone => cases hr
  | whileFails _ hc =>
    cases hr
    exact hc.ordinary rfl
  | whileEnd => cases hr
  | whileLimit _ _ _ hn _ =>
    cases hr
    exact .iterationLimit hn
  | whileStop _ _ _ _ _ ih => exact ih hr
  | whileNext _ _ _ _ _ _ _ ih => exact ih hr

/-- The faults of programs are ordinary. -/
theorem Runs.ordinary {t : Tree Span} {r : Except Fault Unit} (h : Runs limits t w r w')
    (hr : r = .error f) : f.cause.IsOrdinary limits := by
  cases h with
  | fails h =>
    cases hr
    exact h.ordinary rfl
  | ends h =>
    cases hflush : w'.output.flush with
    | ok u =>
      rw [hflush] at hr
      cases hr
    | error fault =>
      rw [hflush] at hr
      cases hr
      exact .device fault

end Reference

namespace Eval

/-- A run executes the tree and flushes the output. -/
theorem run_discard (ctx : Context) (root : Tree Mark) :
    (run ctx root >>= fun _ => pure ()) = exec ctx 0 root >>= fun _ => finish ctx root := by
  rw [run_eq_bind, exec]
  simp only [bind_assoc, pure_bind]
  exact congrArg _ (funext fun _ => bind_pure _)

end Eval

/-- A name is used somewhere in a tree. -/
def Tree.Mentions {α : Type} (t : Tree α) (name : String) : Prop := ∃ a, .var a name ∈ t.nodes

namespace Program

open Reference

/-- What is known of a program that was compiled from a text with the given tree. -/
structure IsCompiled (p : Program) (t : Tree Span) : Prop where
  /-- The numbered tree is that of a program. -/
  shape : p.root.IsProgram
  /-- Without its numbers it is the tree that was parsed. -/
  root : p.root.unmarked = t
  /-- All nodes have spans. -/
  located : p.root.IsLocated
  /-- The variables have the slots of their names. -/
  fits : p.layout.Fits p.annotations p.root

/-- Compiling parses the text, numbers the nodes of its tree one after the other, since none of them
is shared, and resolves the names. -/
theorem compile_eq (source : String) :
    compile source = match parse source with
      | .ok t => .ok ⟨source, t.number, (resolve .empty t.number).1, (resolve .empty t.number).2⟩
      | .error e => .error (.ofParse e source) := by
  unfold compile parse
  cases hnodes : parseNodes source with
  | error e => rfl
  | ok nodes =>
    have horder : nodes.inOrder = nodes.unmarked.number :=
      Tree.inOrder_eq_number (parseNodes_nodup hnodes) (parseNodes_isLocated hnodes)
    dsimp only [Except.map]
    rw [horder]

/-- A text with a tree is compiled. -/
theorem compile_of_parse {source : String} {t : Tree Span} (h : parse source = .ok t) :
    compile source =
      .ok ⟨source, t.number, (resolve .empty t.number).1, (resolve .empty t.number).2⟩ := by
  rw [compile_eq, h]

/-- What is known of every program that was compiled. -/
theorem isCompiled {source : String} {p : Program} (h : compile source = .ok p) :
    ∃ t, parse source = .ok t ∧ p.source = source ∧ p.IsCompiled t := by
  cases hparse : parse source with
  | error e =>
    rw [compile_eq, hparse] at h
    cases h
  | ok t =>
    rw [compile_of_parse hparse] at h
    cases h
    have hagree : Resolve.NamesAgree t.number.nodes := by
      intro n hn n' hn' hid
      rw [List.inj_on_of_nodup_map (Tree.number_nodup t) hn hn' hid]
    exact ⟨t, rfl, rfl, (parse_isProgram hparse).number, Tree.unmarked_numberFrom t 0,
      Tree.isLocated_numberFrom t 0, resolve_fits .empty hagree⟩

variable {p : Program} {t : Tree Span}

/-- A compiled program can be executed. -/
theorem IsCompiled.ready (h : p.IsCompiled t) : Ready p.layout p.annotations p.root :=
  ⟨h.located, h.fits.slot⟩

/-- A run starts on a machine that mirrors the world in which all names are zero. -/
theorem IsCompiled.start (h : p.IsCompiled t) (input : Input) (output : Output) :
    Mirrors p.layout (p.start input output) (.initial input output) := by
  refine ⟨Array.size_replicate, fun name slot hslot => ?_, rfl, rfl, rfl⟩
  have hname := (h.fits.oneToOne name slot).1 hslot
  have hlt : slot < p.layout.slotCount := (Array.getElem?_eq_some_iff.1 hname).1
  change (Array.replicate p.layout.slotCount 0)[slot]? = some 0
  rw [Array.getElem?_replicate, if_pos hlt]

/-- The names with slots are those that the program uses. -/
theorem IsCompiled.mentions_iff (h : p.IsCompiled t) (name : String) :
    t.Mentions name ↔ ∃ slot, p.layout.slotOf? name = some slot := by
  have hnodes : t.nodes = p.root.nodes.map (Tree.relabel fun m => m.span.getD ⟨0, 0⟩) := by
    rw [← h.root, Tree.unmarked, Tree.nodes_relabel]
  constructor
  · rintro ⟨a, ha⟩
    rw [hnodes] at ha
    obtain ⟨n, hn, hvar⟩ := List.mem_map.1 ha
    cases n with
    | var m name' =>
      cases hvar
      obtain ⟨slot, -, hslot⟩ := h.fits.slot m name hn
      exact ⟨slot, hslot⟩
    | sequence _ _ rest => cases rest <;> cases hvar
    | ifElse _ _ _ e => cases e <;> cases hvar
    | _ => cases hvar
  · rintro ⟨slot, hslot⟩
    obtain ⟨m, hm⟩ := h.fits.name name slot hslot
    refine ⟨m.span.getD ⟨0, 0⟩, ?_⟩
    rw [hnodes]
    exact List.mem_map.2 ⟨_, hm, rfl⟩

/-- The execution behind a run, with its value left out. -/
def execution (p : Program) (limits : Limits) (patience : Nat) : Exec Unit := do
  Eval.exec ⟨limits, p.annotations, true, patience⟩ 0 p.root
  Eval.finish ⟨limits, p.annotations, true, patience⟩ p.root

/-- What is reported of an execution at its end. -/
def report (p : Program) : Outcome Fault Unit × Machine → Outcome Error Stack × Machine
  | (.done _, m) => (.done m.stack, m)
  | (.failed f, m) => (.failed (.ofFault f p.source), m)
  | (.unfinished, m) => (.unfinished, m)

/-- A run reports the end of the execution behind it. -/
theorem run_eq (p : Program) (limits : Limits) (patience : Nat) (input : Input)
    (output : Output) :
    p.run limits patience input output =
      p.report (p.execution limits patience (p.start input output)) := by
  rw [execution, ← Eval.run_discard, run]
  change _ = p.report (Exec.bind (Eval.run _ _) _ _)
  rw [Exec.bind]
  rcases Eval.run _ p.root (p.start input output) with ⟨v | f | _, m⟩ <;> rfl

/-- The output is flushed alike. -/
theorem IsCompiled.finish (h : p.IsCompiled t) {limits : Limits} {patience : Nat} {m : Machine}
    {w : World} (hm : Mirrors p.layout m w) :
    Ends p.layout (Eval.finish ⟨limits, p.annotations, true, patience⟩ p.root) m
      (w.output.flush.mapError fun f => ⟨.device f, some t.label⟩) w := by
  cases hflush : w.output.flush with
  | ok u =>
    refine .done ?_ hm
    rw [Eval.finish, hm.output, hflush]
  | error f =>
    refine .failed ?_ hm
    rw [Eval.finish, hm.output, hflush]
    dsimp only
    rw [h.ready.blame, h.root]

/-- The trees of programs are statements. -/
theorem isStatement_of_isProgram {α : Type} {t : Tree α} (h : t.IsProgram) : t.IsStatement := by
  obtain ⟨a, ts, rfl, hts⟩ := h
  exact .block hts

/-- An execution that is not given up ends as the semantics allows. -/
theorem IsCompiled.follows (h : p.IsCompiled t) (limits : Limits) (patience : Nat) (input : Input)
    (output : Output) :
    Follows p.layout (p.execution limits patience) (p.start input output)
      (Runs limits t (.initial input output)) := by
  have hstatement : p.root.IsStatement := isStatement_of_isProgram h.shape
  have hexec : Follows p.layout (Eval.exec ⟨limits, p.annotations, true, patience⟩ 0 p.root)
      (p.start input output) (Executes limits 0 p.root.unmarked (.initial input output)) :=
    exec_follows h.fits.oneToOne hstatement h.ready (h.start input output)
  rw [h.root] at hexec
  refine hexec.bind (fun e w he => .fails he) fun _ w m hok hm => ?_
  exact (h.finish hm).follows (.ends hok)

/-- An execution with enough patience ends as the semantics says. -/
theorem IsCompiled.settles (h : p.IsCompiled t) {limits : Limits} {w w' : World}
    {r : Except Fault Unit} (hrun : Runs limits t w r w') :
    Settles p.layout (p.execution limits) w r w' := by
  have hstatement : p.root.IsStatement := isStatement_of_isProgram h.shape
  rw [← h.root] at hrun
  cases hrun with
  | fails hexec => exact (exec_settles h.fits.oneToOne hstatement h.ready hexec).stop
  | ends hexec =>
    refine (exec_settles h.fits.oneToOne hstatement h.ready hexec).next ?_
    refine settles_of_ends fun patience m hm => ?_
    rw [h.root]
    exact h.finish hm

/-- A stack holds the values of the names of a tree, each in its slot, and nothing else. -/
structure Holds (layout : Layout) (t : Tree Span) (stack : Stack) (store : String → Value) :
    Prop where
  /-- Every name has its value in its slot. -/
  value : ∀ name, t.Mentions name →
    ∃ slot, layout.slotOf? name = some slot ∧ stack.read slot = .ok (store name)
  /-- Every slot is that of one name. -/
  only : ∀ slot, slot < stack.size → ∃! name, t.Mentions name ∧ layout.slotOf? name = some slot

/-- A run and a derivation come to the same end: the devices are left alike, errors are those of the
same fault, and a final stack holds the final values of all names. -/
inductive SameEnd (p : Program) (t : Tree Span) :
    Outcome Error Stack × Machine → Except Fault Unit → World → Prop
  | failed {f : Fault} {m : Machine} {w : World} (hinput : m.input = w.input)
      (houtput : m.output = w.output) :
      SameEnd p t (.failed (.ofFault f p.source), m) (.error f) w
  | done {stack : Stack} {m : Machine} {w : World} (hinput : m.input = w.input)
      (houtput : m.output = w.output) (hstack : Holds p.layout t stack w.store) :
      SameEnd p t (.done stack, m) (.ok ()) w

/-- A stack that mirrors a world holds the values of its names. -/
theorem IsCompiled.holds (h : p.IsCompiled t) {m : Machine} {w : World}
    (hm : Mirrors p.layout m w) : Holds p.layout t m.stack w.store := by
  refine ⟨fun name hname => ?_, fun slot hslot => ?_⟩
  · obtain ⟨slot, hslot⟩ := (h.mentions_iff name).1 hname
    exact ⟨slot, hslot, hm.read hslot⟩
  · rw [hm.size] at hslot
    have hname : p.layout.nameOf? slot = some p.layout.names[slot] :=
      Array.getElem?_eq_getElem hslot
    have hof := (h.fits.oneToOne _ _).2 hname
    refine ⟨p.layout.names[slot], ⟨(h.mentions_iff _).2 ⟨slot, hof⟩, hof⟩, ?_⟩
    rintro name ⟨-, hother⟩
    have hsame := (h.fits.oneToOne _ _).1 hother
    rw [hname] at hsame
    exact (Option.some.inj hsame).symm

/-- A run comes to the end that its execution comes to. -/
theorem IsCompiled.sameEnd (h : p.IsCompiled t) {limits : Limits} {patience : Nat} {input : Input}
    {output : Output} {r : Except Fault Unit} {w : World}
    (hends : Ends p.layout (p.execution limits patience) (p.start input output) r w) :
    p.SameEnd t (p.run limits patience input output) r w := by
  rw [run_eq]
  cases hends with
  | done hx hm =>
    rw [hx]
    exact .done hm.input hm.output (h.holds hm)
  | failed hx hm =>
    rw [hx]
    exact .failed hm.input hm.output

/-- A compiled program never fails for a reason that lies in its tree or its slots: whatever the
limits, the input and the output are, a run can only fail by an operator that cannot be applied, by
input that is missing or malformed, by a limit, or by a device. -/
theorem run_fails_ordinarily {source : String} {p : Program} (h : compile source = .ok p)
    (limits : Limits) (patience : Nat) (input : Input) (output : Output) {e : Error} {m : Machine}
    (hrun : p.run limits patience input output = (.failed e, m)) :
    (∀ message, e ≠ .internal message) ∧
      ∃ f : Fault,
        Eval.run ⟨limits, p.annotations, true, patience⟩ p.root (p.start input output) =
          (.failed f, m) ∧
        e = .ofFault f source ∧ f.cause.IsOrdinary limits := by
  obtain ⟨t, -, hsource, hp⟩ := isCompiled h
  rw [run] at hrun
  cases hrun' : Eval.run ⟨limits, p.annotations, true, patience⟩ p.root (p.start input output) with
  | mk outcome m' =>
    rw [hrun'] at hrun
    cases outcome with
    | done v => cases hrun
    | unfinished => cases hrun
    | failed f =>
      cases hrun
      have hfailed : p.execution limits patience (p.start input output) = (.failed f, m) := by
        rw [execution, ← Eval.run_discard]
        exact Exec.bind_failed hrun'
      have hordinary : f.cause.IsOrdinary limits := by
        rcases hp.follows limits patience input output with ⟨m'', hgive⟩ | ⟨r, w, hruns, hends⟩
        · rw [hfailed] at hgive
          cases hgive
        · cases hends with
          | done hx => rw [hfailed] at hx; cases hx
          | failed hx =>
            rw [hfailed] at hx
            cases hx
            exact hruns.ordinary rfl
      exact ⟨Error.ofFault_ne_internal hordinary p.source, f, rfl, by rw [hsource], hordinary⟩

/-- The tree of a loop that divides by numbers from the input. -/
def divisionLoop : Tree Span :=
  .block ⟨0, 18⟩ [.whileLoop ⟨0, 18⟩ (.condition ⟨6, 7⟩ (.input ⟨6, 7⟩))
    (.block ⟨8, 18⟩ [.sequence ⟨8, 18⟩ (.print ⟨8, 17⟩
      (.binary ⟨14, 17⟩ .div (.literal ⟨14, 15⟩ 6) (.input ⟨16, 17⟩))) none])]

/-- With the input `1 2 1 0` the loop fails in its second round, and for no reason of its own. -/
theorem run_fails_ordinarily_division :
    ∃ p e m, compile "while(?)print 6/?;" = .ok p ∧
      p.run {} 9 (.ofBytes [49, 32, 50, 32, 49, 32, 48] false) {} = (.failed e, m) ∧
      ∀ message, e ≠ .internal message := by
  have hparse : parse "while(?)print 6/?;" = .ok divisionLoop := by cbv
  have hcompile := compile_of_parse hparse
  generalize (resolve .empty _).1 = layout at hcompile
  generalize (resolve .empty _).2 = ann at hcompile
  have heval : ∀ stack, Eval.run ⟨{}, ann, true, 9⟩ divisionLoop.number
        ⟨stack, .ofBytes [49, 32, 50, 32, 49, 32, 48] false, {}, 0⟩ =
      (.failed ⟨.arithmetic .divisionByZero, some ⟨14, 17⟩⟩,
        ⟨stack, ⟨[], [], false⟩, ⟨#[51, 10], none, .outputFull, false⟩, 2⟩) := by
    intro stack
    cbv
  have hrun : ∃ e m, Program.run ⟨"while(?)print 6/?;", divisionLoop.number, layout, ann⟩ {} 9
      (.ofBytes [49, 32, 50, 32, 49, 32, 48] false) {} = (.failed e, m) := by
    rw [run]
    dsimp only [start]
    rw [heval]
    exact ⟨_, _, rfl⟩
  obtain ⟨e, m, hrun⟩ := hrun
  exact ⟨_, e, m, hcompile, hrun, (run_fails_ordinarily hcompile _ _ _ _ hrun).1⟩

/-- Running a compiled program with slots does what the semantics by names says about its tree: a
run that is not given up comes to an end that the semantics allows, and every end that the semantics
allows is that of all runs with enough patience. -/
theorem run_refines_names {source : String} {p : Program} (h : compile source = .ok p) :
    ∃ t, parse source = .ok t ∧ ∀ limits input output,
      (∀ patience, (p.run limits patience input output).1 ≠ .unfinished →
        ∃ r w, Runs limits t (.initial input output) r w ∧
          p.SameEnd t (p.run limits patience input output) r w) ∧
      (∀ r w, Runs limits t (.initial input output) r w →
        ∃ enough, ∀ patience, enough ≤ patience →
          p.SameEnd t (p.run limits patience input output) r w) := by
  obtain ⟨t, hparse, -, hp⟩ := isCompiled h
  refine ⟨t, hparse, fun limits input output => ⟨fun patience hrun => ?_, fun r w hruns => ?_⟩⟩
  · rcases hp.follows limits patience input output with ⟨m, hgive⟩ | ⟨r, w, hruns, hends⟩
    · rw [run_eq, hgive] at hrun
      exact absurd rfl hrun
    · exact ⟨r, w, hruns, hp.sameEnd hends⟩
  · obtain ⟨enough, hsettles⟩ := hp.settles hruns
    exact ⟨enough, fun patience hle => hp.sameEnd (hsettles patience hle _ (hp.start input output))⟩

/-- A loop that counts a variable up to a number from the input, at all limits and inputs. -/
theorem run_refines_names_counter :
    ∃ p t, compile "while(x<?)x++;" = .ok p ∧ parse "while(x<?)x++;" = .ok t ∧
      ∀ limits input output r w, Runs limits t (.initial input output) r w →
        ∃ enough, ∀ patience, enough ≤ patience →
          p.SameEnd t (p.run limits patience input output) r w := by
  have hok : (parse "while(x<?)x++;").isOk = true := by cbv
  cases hparse : parse "while(x<?)x++;" with
  | ok t =>
    have hcompile := compile_of_parse hparse
    obtain ⟨t', hparse', hrefines⟩ := run_refines_names hcompile
    refine ⟨_, t', hcompile, hparse.symm.trans hparse', ?_⟩
    exact fun limits input output => (hrefines limits input output).2
  | error e =>
    rw [hparse] at hok
    cases hok

end Program

end IntScript
