import IntScript.Proofs.Eval.Conduct
import IntScript.Proofs.Eval.Limits
import Mathlib.Algebra.Group.Nat.Defs
import Mathlib.Order.Nat

/-!
# The iteration limit

All loops share one counter, which goes up whenever the condition of a loop comes out true. With a
limit on it every evaluation ends: inside of a loop the number of bodies that are left goes down
from round to round, however the loops are nested, and the rest is structural recursion.

Over the whole life of an evaluator the counter is the number of loop conditions that have come out
true, and no more bodies are started than the limit allows. The limit is reported exactly when a
condition comes out true after as many others as the limit allows, and then its body is not started.
-/

namespace IntScript

open IntScript.Eval (Context faultAt)

/-- Whether a loop condition has come out true. -/
def Event.isPassed : Event → Bool
  | .passed _ => true
  | _ => false

/-- Whether a loop body is started. -/
def Event.isStarted : Event → Bool
  | .started _ => true
  | _ => false

/-- The fault is that there were too many loop bodies. -/
def Fault.IsIterationLimit (f : Fault) : Prop := ∃ n, f.cause = .iterationLimit n

namespace Evaluator

/-- The number of loop conditions that have come out true so far. -/
def passes (e : Evaluator) : Nat := e.history.countP Event.isPassed

/-- The number of loop bodies started so far. -/
def starts (e : Evaluator) : Nat := e.history.countP Event.isStarted

/-- The evaluator with one more loop body counted. -/
def counted (e : Evaluator) : Evaluator :=
  { e with machine := { e.machine with iterations := e.machine.iterations + 1 } }

/-- A condition that comes out true counts as one, and other events do not count. -/
@[simp]
theorem passes_note (e : Evaluator) (event : Event) :
    (e.note event).passes = e.passes + if event.isPassed then 1 else 0 := by
  rw [passes, note, List.countP_append, List.countP_singleton]
  rfl

/-- A loop body that is started counts as one, and other events do not count. -/
@[simp]
theorem starts_note (e : Evaluator) (event : Event) :
    (e.note event).starts = e.starts + if event.isStarted then 1 else 0 := by
  rw [starts, note, List.countP_append, List.countP_singleton]
  rfl

/-- The counter has no part in the history. -/
@[simp]
theorem passes_counted (e : Evaluator) : e.counted.passes = e.passes := rfl

/-- The counter has no part in the history. -/
@[simp]
theorem starts_counted (e : Evaluator) : e.counted.starts = e.starts := rfl

end Evaluator

namespace Evaluation

variable {α β : Type} {ctx : Context} {t : Tree Mark} {n : Nat} {e : Evaluator}

/-- First it is noted that the condition of a loop has come out true, then its body is counted and
started. -/
theorem startBody_eq (ctx : Context) (t : Tree Mark) (e : Evaluator) :
    startBody ctx t e =
      (ofExec (Eval.countIteration ctx t) >>= fun _ => note (.started t)) (e.note (.passed t)) :=
  rfl

/-- The body of a loop is started if the limit allows one more. -/
theorem startBody_of_le (hn : ctx.limits.maxIterations = some n)
    (hle : e.machine.iterations + 1 ≤ n) :
    startBody ctx t e = (.done (), (e.note (.passed t)).counted.note (.started t)) := by
  have hcount : Eval.countIteration ctx t (e.note (.passed t)).machine =
      (.done (), (e.note (.passed t)).counted.machine) := by
    refine Eval.countIteration_of_le fun k hk => ?_
    rw [hn] at hk
    cases hk
    exact hle
  rw [startBody_eq, bind_done (ofExec_eq hcount)]
  rfl

/-- The body of a loop that is one too many is not started. -/
theorem startBody_of_lt (hn : ctx.limits.maxIterations = some n)
    (hlt : n < e.machine.iterations + 1) :
    startBody ctx t e =
      (.failed (faultAt ctx t (.iterationLimit n)), (e.note (.passed t)).counted) := by
  have hcount : Eval.countIteration ctx t (e.note (.passed t)).machine =
      (.failed (faultAt ctx t (.iterationLimit n)), (e.note (.passed t)).counted.machine) :=
    Eval.countIteration_of_lt hn hlt
  rw [startBody_eq, bind_failed (ofExec_eq hcount)]
  rfl

section Termination

/-- From here on something ends, and the counter of loop bodies does not go down. -/
def EndsFrom (x : Evaluation α) (e : Evaluator) : Prop :=
  (x e).1 ≠ .unfinished ∧ e.machine.iterations ≤ (x e).2.machine.iterations

/-- The counter does not go down. -/
theorem EndsFrom.le {x : Evaluation α} {o : Outcome Fault α} {e' : Evaluator} (hx : x.EndsFrom e)
    (h : x e = (o, e')) : e.machine.iterations ≤ e'.machine.iterations := by
  have hle := hx.2
  rw [h] at hle
  exact hle

/-- One thing after another ends. -/
theorem EndsFrom.bind {x : Evaluation α} {f : α → Evaluation β} (hx : x.EndsFrom e)
    (hf : ∀ a e', x e = (.done a, e') → (f a).EndsFrom e') : (x >>= f).EndsFrom e := by
  refine bind_cases (motive := fun o e' => o ≠ .unfinished ∧ _ ≤ e'.machine.iterations)
    (fun a e' h => ?_) (fun fault e' h => ?_) fun e' h => ?_
  · obtain ⟨hends, hle⟩ := hf a e' h
    exact ⟨hends, (hx.le h).trans hle⟩
  · exact ⟨nofun, hx.le h⟩
  · exact absurd (congrArg Prod.fst h) hx.1

/-- A loop ends that may take more rounds than there are bodies left to be started. -/
theorem endsFrom_loop {test : Evaluation Bool} {body : Evaluation Unit}
    (hn : ctx.limits.maxIterations = some n) (htest : ∀ e, test.EndsFrom e)
    (hbody : ∀ e, body.EndsFrom e) (k : Nat) (e : Evaluator) (hk : n - e.machine.iterations < k) :
    ((steps ctx).loop test (startBody ctx t >>= fun _ => body) k).EndsFrom e := by
  induction k generalizing e with
  | zero => omega
  | succ k ih =>
    refine (htest e).bind fun b e₁ h₁ => ?_
    have hle₁ := (htest e).le h₁
    cases b with
    | false => exact ⟨nofun, le_rfl⟩
    | true =>
      by_cases hle : e₁.machine.iterations + 1 ≤ n
      · -- one body more is started, so fewer are left
        have hstart := startBody_of_le (t := t) hn hle
        have hround : (startBody ctx t >>= fun _ => body).EndsFrom e₁ := by
          refine EndsFrom.bind ?_ fun _ e₂ _ => hbody e₂
          rw [EndsFrom, hstart]
          exact ⟨nofun, Nat.le_succ _⟩
        refine hround.bind fun _ e₃ h₃ => ih e₃ ?_
        rw [bind_done hstart] at h₃
        have hle₃ : e₁.machine.iterations + 1 ≤ e₃.machine.iterations := (hbody _).le h₃
        omega
      · have hstart := startBody_of_lt (t := t) hn (Nat.lt_of_not_le hle)
        have hround : (startBody ctx t >>= fun _ => body) e₁ = _ := bind_failed hstart
        change ((startBody ctx t >>= fun _ => body) >>= fun _ => _).EndsFrom e₁
        rw [EndsFrom, bind_failed hround]
        exact ⟨nofun, Nat.le_succ _⟩

/-- Coming to a node ends if what is done inside of it ends. -/
theorem endsFrom_atNode {x : Evaluation α} (hx : ∀ e, x.EndsFrom e) (e : Evaluator) :
    (atNode ctx t x).EndsFrom e := by
  unfold EndsFrom atNode
  split
  · exact ⟨nofun, le_rfl⟩
  · exact hx _

/-- With a limit on loop bodies, and loops that may take more rounds, everything ends. -/
theorem closed_endsFrom (hn : ctx.limits.maxIterations = some n) (hpatience : n < ctx.patience) :
    Closed ctx fun _ {_} x => ∀ e, x.EndsFrom e where
  quiet hy e := ⟨hy.ends e.machine, (hy.iterations e.machine).ge⟩
  bind hx hf e := (hx e).bind fun a e' _ => hf a e'
  loop htest hbody e := endsFrom_loop hn htest hbody _ e (by omega)
  visit _ hx := endsFrom_atNode hx

/-- With a limit on loop bodies every run ends. -/
theorem run_endsFrom (hn : ctx.limits.maxIterations = some n) (hpatience : n < ctx.patience)
    (root : Tree Mark) (e : Evaluator) : (run ctx root).EndsFrom e := by
  have hvisit : (visit ctx root).EndsFrom e :=
    endsFrom_atNode ((closed_endsFrom hn hpatience).inside root) e
  refine hvisit.bind fun v e₁ _ => EndsFrom.bind ?_ fun _ e₂ _ => ⟨nofun, le_rfl⟩
  exact (closed_endsFrom hn hpatience).quiet (t := root) (Eval.isQuiet_finish ctx root) e₁

/-- With a limit on loop bodies a run ends in one way, given more rounds for each loop than the
limit. -/
theorem run_ends {limits : Limits} (hn : limits.maxIterations = some n) (ann : Annotations)
    (located : Bool) (root : Tree Mark) (m : Machine) :
    ∃ o m', o ≠ .unfinished ∧
      ∀ patience, n < patience → Eval.run ⟨limits, ann, located, patience⟩ root m = (o, m') := by
  let ctx : Context := ⟨limits, ann, located, n + 1⟩
  have hends : (run ctx root ⟨m, 0, []⟩).1 ≠ .unfinished :=
    (run_endsFrom hn (Nat.lt_succ_self n) root _).1
  have hpatient := Eval.isPatient_run limits ann located root m (n + 1)
  rcases hrun : Eval.run ctx root m with ⟨o, m'⟩
  have ho : o ≠ .unfinished := by
    rw [(agrees_run ctx root ⟨m, 0, []⟩ rfl).1, hrun] at hends
    exact hends
  exact ⟨o, m', ho, fun patience hpatience => hpatient patience hpatience o m' ho hrun⟩

end Termination

end Evaluation

namespace Evaluator

variable {n : Nat} {e e' : Evaluator}

/-- The counter of loop bodies is the number of loop conditions that have come out true, and the
first `n` of them are followed by loop bodies. -/
structure Counts (n : Nat) (e : Evaluator) : Prop where
  /-- The counter is the number of conditions. -/
  iterations : e.machine.iterations = e.passes
  /-- A body is started for each of them up to the limit. -/
  starts : e.starts = min e.passes n

/-- What the limit `n` means for what leads from one evaluator to another. -/
structure Limited (ctx : Context) (n : Nat) (e : Evaluator) (fault : Option Fault)
    (e' : Evaluator) : Prop where
  /-- The counts are right in the end. -/
  counts : e'.Counts n
  /-- Conditions that have come out true stay noted. -/
  le : e.passes ≤ e'.passes
  /-- No condition comes out true beyond the limit unless that is reported. -/
  within : (∀ f ∈ fault, ¬f.IsIterationLimit) → e'.passes ≤ max n e.passes
  /-- The limit is reported at the first condition that comes out true beyond it. -/
  beyond : ∀ f ∈ fault, f.IsIterationLimit → e'.passes = max n e.passes + 1 ∧
    ∃ loop, f = faultAt ctx loop (.iterationLimit n) ∧
      e'.history.getLast? = some (.passed loop)

/-- Whatever leaves the counts as they are stays within the limit. -/
theorem Limited.of_same {ctx : Context} {fault : Option Fault} (h : e.Counts n)
    (hpasses : e'.passes = e.passes) (hstarts : e'.starts = e.starts)
    (hiterations : e'.machine.iterations = e.machine.iterations)
    (hfault : ∀ f ∈ fault, ¬f.IsIterationLimit) : Limited ctx n e fault e' where
  counts := ⟨by rw [hiterations, hpasses, h.iterations], by rw [hstarts, hpasses, h.starts]⟩
  le := hpasses.ge
  within _ := hpasses.le.trans (le_max_right _ _)
  beyond f hf hlimit := absurd hlimit (hfault f hf)

/-- At most one condition comes out true beyond the limit. -/
theorem Limited.passes_le {ctx : Context} {fault : Option Fault} (h : Limited ctx n e fault e') :
    e'.passes ≤ max n e.passes + 1 := by
  by_cases hno : ∀ f ∈ fault, ¬f.IsIterationLimit
  · exact Nat.le_succ_of_le (h.within hno)
  · push Not at hno
    obtain ⟨f, hf, hlimit⟩ := hno
    exact (h.beyond f hf hlimit).1.le

/-- What goes on after something without a fault. -/
theorem Limited.trans {ctx : Context} {e₁ e₂ e₃ : Evaluator} {fault : Option Fault}
    (h : Limited ctx n e₁ none e₂) (h' : Limited ctx n e₂ fault e₃) :
    Limited ctx n e₁ fault e₃ := by
  have hle := h.le
  have hwithin := h.within fun f hf => nomatch hf
  have hmax : max n e₂.passes = max n e₁.passes := by omega
  exact ⟨h'.counts, hle.trans h'.le, hmax ▸ h'.within, hmax ▸ h'.beyond⟩

/-- If the counts are right, then the limit `n` is obeyed on the way to another evaluator. -/
def StaysLimited (ctx : Context) (n : Nat) (e : Evaluator) (fault : Option Fault) (e' : Evaluator) :
    Prop :=
  e.Counts n → Limited ctx n e fault e'

/-- Quiet steps obey the limit, and it can be obeyed on and on. -/
theorem isPassage_staysLimited (ctx : Context) (n : Nat) :
    Evaluation.IsPassage (StaysLimited ctx n) where
  quiet {e e' fault} hhistory _ hiterations hfault he := by
    refine .of_same he (congrArg (List.countP _) hhistory) (congrArg (List.countP _) hhistory)
      hiterations fun f hf => ?_
    rintro ⟨l, hl⟩
    refine hfault f hf ?_
    rw [hl]
    trivial
  trans h h' he := (h he).trans (h' (h he).counts)

end Evaluator

namespace Evaluation

variable {α : Type} {ctx : Context} {t : Tree Mark} {n : Nat} {e : Evaluator}

/-- Loop bodies are started within the limit. -/
theorem startBody_staysLimited (hn : ctx.limits.maxIterations = some n) :
    (startBody ctx t).Follows (Evaluator.StaysLimited ctx n) := by
  intro e he
  have hiterations := he.iterations
  have hstarts := he.starts
  by_cases hle : e.machine.iterations + 1 ≤ n
  · have hpasses' : ((e.note (.passed t)).counted.note (.started t)).passes = e.passes + 1 := by
      simp [Event.isPassed]
    have hstarts' : ((e.note (.passed t)).counted.note (.started t)).starts = e.starts + 1 := by
      simp [Event.isStarted]
    rw [startBody_of_le hn hle]
    dsimp only
    refine ⟨⟨?_, ?_⟩, ?_, fun _ => ?_, fun f hf => nomatch hf⟩
    · rw [hpasses', ← hiterations]
      rfl
    · omega
    · omega
    · omega
  · have hpasses' : (e.note (.passed t)).counted.passes = e.passes + 1 := by
      simp [Event.isPassed]
    have hstarts' : (e.note (.passed t)).counted.starts = e.starts := by
      simp [Event.isStarted]
    rw [startBody_of_lt hn (Nat.lt_of_not_le hle)]
    dsimp only
    refine ⟨⟨?_, ?_⟩, ?_, fun hno => ?_, fun f hf _ => ?_⟩
    · rw [hpasses', ← hiterations]
      rfl
    · omega
    · omega
    · exact absurd ⟨n, rfl⟩ (hno _ rfl)
    · cases hf
      exact ⟨by omega, t, rfl, List.getLast?_concat⟩

/-- Coming to a node is within the limit if what is done inside of it is. -/
theorem atNode_staysLimited {x : Evaluation α} (hx : x.Follows (Evaluator.StaysLimited ctx n)) :
    (atNode ctx t x).Follows (Evaluator.StaysLimited ctx n) := by
  intro e he
  have hpasses : (e.note (.reached e.depth t)).passes = e.passes := by simp [Event.isPassed]
  have hstarts : (e.note (.reached e.depth t)).starts = e.starts := by simp [Event.isStarted]
  unfold atNode
  split
  · refine .of_same he hpasses hstarts rfl fun f hf => ?_
    cases hf
    rintro ⟨l, hl⟩
    cases hl
  · have hreach : Evaluator.Limited ctx n e none
        ((e.note (.reached e.depth t)).atDepth (e.depth + 1)) :=
      .of_same he hpasses hstarts rfl fun f hf => nomatch hf
    obtain ⟨hcounts, hle, hwithin, hbeyond⟩ := hreach.trans (hx _ hreach.counts)
    exact ⟨⟨hcounts.iterations, hcounts.starts⟩, hle, hwithin, hbeyond⟩

/-- Whole runs are within the limit. -/
theorem run_staysLimited (hn : ctx.limits.maxIterations = some n) (root : Tree Mark) :
    (run ctx root).Follows (Evaluator.StaysLimited ctx n) := by
  have hpassage := Evaluator.isPassage_staysLimited ctx n
  have hclosed : Closed ctx fun _ {_} x => x.Follows (Evaluator.StaysLimited ctx n) :=
    closed_follows (fun _ => hpassage) (fun _ => startBody_staysLimited hn)
      fun _ hx => atNode_staysLimited hx
  exact hpassage.run (atNode_staysLimited (hclosed.inside root))

end Evaluation

namespace Evaluator

variable {limits : Limits} {n : Nat} {past : List (Outcome Fault (Option Value))} {e : Evaluator}

/-- All through the life of an evaluator the counts are right. -/
theorem Life.counts (hn : limits.maxIterations = some n) (h : Life limits past e) :
    e.Counts n := by
  induction h with
  | new stack input output => exact ⟨rfl, (Nat.zero_min n).symm⟩
  | next ctx root _ hlimits _ ih =>
    exact (Evaluation.run_staysLimited (hlimits ▸ hn) root _ ih).counts

/-- The limit has been reported if and only if more conditions have come out true than it allows
loop bodies. -/
theorem Life.passes_le_iff (hn : limits.maxIterations = some n) (h : Life limits past e) :
    e.passes ≤ n ↔ ∀ f, .failed f ∈ past → ¬f.IsIterationLimit := by
  induction h with
  | new stack input output => simp [passes]
  | @next past e ctx root hlife hlimits _ ih =>
    obtain ⟨-, hle, hwithin, hbeyond⟩ :=
      Evaluation.run_staysLimited (hlimits ▸ hn) root e (hlife.counts hn)
    constructor
    · intro hn' f hf
      rcases List.mem_append.1 hf with hf | hf
      · exact ih.1 (by omega) f hf
      · intro hlimit
        have hfault := Outcome.mem_fault?.2 (List.mem_singleton.1 hf).symm
        obtain ⟨hpasses, -⟩ := hbeyond f hfault hlimit
        omega
    · intro hno
      have hpasses := ih.2 fun f hf => hno f (List.mem_append_left _ hf)
      have hpasses' := hwithin fun f hf =>
        hno f (List.mem_append_right _ (List.mem_singleton.2 (Outcome.mem_fault?.1 hf).symm))
      omega

/-- What the limit `n` means for an evaluation of `root` in the life of an evaluator, after the
outcomes in `past`. -/
structure ObeysLimit (ctx : Context) (n : Nat) (past : List (Outcome Fault (Option Value)))
    (e : Evaluator) (root : Tree Mark) (o : Outcome Fault (Option Value)) (e' : Evaluator) :
    Prop where
  /-- The evaluation ends. -/
  ends : o ≠ .unfinished
  /-- It is what a run does on the machine. -/
  run_eq : Eval.run ctx root e.machine = (o, e'.machine)
  /-- At most `n` loop bodies have been started in the whole life, in all loops together. -/
  starts_le : e'.starts ≤ n
  /-- The limit is reported exactly if a loop condition comes out true when `n` others have. -/
  reported_iff : (∃ f, o = .failed f ∧ f.IsIterationLimit) ↔ e.passes < e'.passes ∧ n < e'.passes
  /-- It is reported for the loop of that condition when the condition has just come out true, and
  the body is not started. -/
  reported : ∀ f, o = .failed f → f.IsIterationLimit → e'.starts = n ∧
    ∃ loop, f = faultAt ctx loop (.iterationLimit n) ∧ e'.history.getLast? = some (.passed loop)
  /-- Until it has been reported at most `n` conditions have come out true, and it is reported at
  number `n + 1`. The counter of the loop bodies fits into 64 bits. -/
  first : (∀ f, .failed f ∈ past → ¬f.IsIterationLimit) → e.passes ≤ n ∧
    e'.machine.iterations < 2 ^ 64 ∧
    ((∃ f, o = .failed f ∧ f.IsIterationLimit) ↔ e'.passes = n + 1)

/-- All through its life an evaluator obeys the limit. -/
theorem Life.obeysLimit (hn : limits.maxIterations = some n) (hmax : n < 2 ^ 64 - 1)
    (hlife : Life limits past e) {ctx : Context} (root : Tree Mark) (hlimits : ctx.limits = limits)
    (hpatience : n < ctx.patience) :
    ObeysLimit ctx n past e root (Evaluation.run ctx root e).1 (Evaluation.run ctx root e).2 := by
  rcases hrun : Evaluation.run ctx root e with ⟨o, e'⟩
  have hn' : ctx.limits.maxIterations = some n := hlimits ▸ hn
  have hends := (Evaluation.run_endsFrom hn' hpatience root e).1
  have hmachine := hlife.run_eq ctx root
  have hlimited := Evaluation.run_staysLimited hn' root e (hlife.counts hn)
  rw [hrun] at hends hmachine hlimited
  dsimp only at hends hmachine hlimited ⊢
  have hpasses' := hlimited.passes_le
  obtain ⟨⟨hiterations, hstarts⟩, hle, hwithin, hbeyond⟩ := hlimited
  have hreported : ∀ f, o = .failed f → f.IsIterationLimit → _ :=
    fun f hf => hbeyond f (Outcome.mem_fault?.2 hf)
  have hiff : (∃ f, o = .failed f ∧ f.IsIterationLimit) ↔
      e.passes < e'.passes ∧ n < e'.passes := by
    constructor
    · rintro ⟨f, hf, hlimit⟩
      obtain ⟨hpasses, -⟩ := hreported f hf hlimit
      omega
    · intro hlt
      by_contra hno
      have hpasses := hwithin fun f hf hlimit => hno ⟨f, Outcome.mem_fault?.1 hf, hlimit⟩
      omega
  refine ⟨hends, hmachine, by omega, hiff, fun f hf hlimit => ?_, fun hno => ?_⟩
  · obtain ⟨hpasses, hloop⟩ := hreported f hf hlimit
    exact ⟨by omega, hloop⟩
  · have hpasses := (hlife.passes_le_iff hn).2 hno
    exact ⟨hpasses, by omega, hiff.trans (by omega)⟩

/-- With a limit on loop bodies the evaluation of every tree ends, from every machine and in one
way: it is enough that each loop may take `n + 1` rounds. All through its life an evaluator obeys
the limit. -/
theorem iteration_limit (hn : limits.maxIterations = some n) (hmax : n < 2 ^ 64 - 1) :
    (∀ ann located root m, ∃ o m', o ≠ .unfinished ∧
      ∀ patience, n < patience → Eval.run ⟨limits, ann, located, patience⟩ root m = (o, m')) ∧
    ∀ past e, Life limits past e → ∀ ctx root, ctx.limits = limits → n < ctx.patience →
      ObeysLimit ctx n past e root (Evaluation.run ctx root e).1 (Evaluation.run ctx root e).2 :=
  ⟨Evaluation.run_ends hn,
    fun _ _ hlife _ root hlimits hpatience => hlife.obeysLimit hn hmax root hlimits hpatience⟩

/-- A loop in a loop that prints numbers of the input. -/
def nestedLoops : Tree Mark :=
  .whileLoop ⟨0, none⟩ (.input ⟨1, none⟩)
    (.whileLoop ⟨2, none⟩ (.input ⟨3, none⟩) (.print ⟨4, none⟩ (.input ⟨5, none⟩)))

/-- Two loop bodies may be started. -/
def twoBodies : Context := ⟨⟨10, some 2⟩, .empty, true, 3⟩

/-- An evaluator that has the numbers `1 0 0 1 1 7` to read. -/
def untriedEvaluator : Evaluator :=
  ⟨⟨.zeros 0, ⟨["1", "0", "0", "1", "1", "7"].map String.toList, [], false⟩, {}, 0⟩, 0, []⟩

/-- The evaluator after the loops were run on the numbers `1 0 0`. -/
def usedEvaluator : Evaluator := (Evaluation.run twoBodies nestedLoops untriedEvaluator).2

/-- The first run starts the body of the outer loop once. In the second run that body is started
again, and the limit is reported when the condition of the inner loop comes out true, before
anything is printed. -/
theorem iteration_limit_nestedLoops :
    ∃ e', Evaluation.run twoBodies nestedLoops usedEvaluator =
        (.failed ⟨.iterationLimit 2, none⟩, e') ∧
      usedEvaluator.starts = 1 ∧ e'.starts = 2 ∧ e'.passes = 3 ∧
      e'.machine.output.written = #[] := by
  have hfirst : (Evaluation.run twoBodies nestedLoops untriedEvaluator).1 = .done none := rfl
  have hsecond : (Evaluation.run twoBodies nestedLoops usedEvaluator).1 =
      .failed ⟨.iterationLimit 2, none⟩ := rfl
  have hnew : Life twoBodies.limits [] untriedEvaluator := .new _ _ _
  have hused : Life twoBodies.limits [.done none] usedEvaluator := by
    have hnext := hnew.next twoBodies nestedLoops rfl (by rw [hfirst]; nofun)
    rw [hfirst] at hnext
    exact hnext
  have hobeys := (iteration_limit rfl (by decide)).2 _ _ hused twoBodies nestedLoops rfl
    (by decide)
  have hfault : Fault.IsIterationLimit ⟨.iterationLimit 2, none⟩ := ⟨2, rfl⟩
  obtain ⟨-, -, hreported⟩ := hobeys.first fun f hf => by cases List.mem_singleton.1 hf
  exact ⟨_, Prod.ext hsecond rfl, rfl, (hobeys.reported _ hsecond hfault).1,
    hreported.1 ⟨_, hsecond, hfault⟩, rfl⟩

end Evaluator

end IntScript
