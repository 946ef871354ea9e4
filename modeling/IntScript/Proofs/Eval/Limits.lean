import IntScript.Proofs.Eval.Coupling
import Mathlib

/-!
# Limits are transparent

A run depends on two bounds that are not part of the program: the limits that are set for it, and
the patience that its loops are given. Neither changes what the program does. A run that is given
enough patience ends in one way only, and more patience changes nothing. A run that reaches no limit
ends in the same way under all wider limits, and one that reaches a limit has written the beginning
of what it writes under wider ones.
-/

namespace IntScript

/-- The coupling of runs on the same devices. -/
def Coupling.same (cuts : Fault.Cause → Prop) : Coupling :=
  .ofInput Eq cuts fun h => .inl (h ▸ ⟨rfl, rfl⟩)

/-- Machines with the same devices are the same if they agree. -/
theorem Coupling.same_agree_iff {cuts : Fault.Cause → Prop} {m n : Machine} :
    (Coupling.same cuts).Agree m n ↔ m = n := by
  constructor
  · rintro ⟨hstack, hinput, houtput, hiterations⟩
    cases m
    cases n
    cases hstack
    cases hinput
    cases houtput
    cases hiterations
    rfl
  · rintro rfl
    exact ⟨rfl, rfl, rfl, rfl⟩

namespace Eval

/-- Patience does not change how a run ends. -/
theorem isPatient_run (limits : Limits) (ann : Annotations) (located : Bool) (root : Tree Mark)
    (m : Machine) : IsPatient fun k => run ⟨limits, ann, located, k⟩ root m := by
  have haligned : ∀ k k', k ≤ k' → Aligned (.same fun _ => False) ⟨limits, ann, located, k⟩
      ⟨limits, ann, located, k'⟩ :=
    fun k k' hk => ⟨rfl, rfl, hk, .refl limits, .inl rfl⟩
  have hruns := Exec.Tracks.runs (fun k k' hk => (haligned k k' hk).run root)
    (Coupling.same_agree_iff.2 (rfl : m = m))
  refine hruns.isPatient (fun m m' => Coupling.same_agree_iff.1) ?_
  rintro o ⟨f, -, hcut⟩
  exact hcut

/-- Under wider limits a run goes along until the other one reaches a limit. -/
theorem run_goesAlong_of_within {limits limits' : Limits} (hwithin : limits.Within limits')
    (ann : Annotations) (located : Bool) (root : Tree Mark) (m : Machine) :
    GoesAlong (Coupling.same Fault.Cause.IsLimit).Agree
      (fun o => ∃ f, o = .failed f ∧ f.cause.IsLimit)
      (fun k => run ⟨limits, ann, located, k⟩ root m)
      (fun k => run ⟨limits', ann, located, k⟩ root m) := by
  have haligned : ∀ k k', k ≤ k' → Aligned (.same Fault.Cause.IsLimit)
      ⟨limits, ann, located, k⟩ ⟨limits', ann, located, k'⟩ :=
    fun k k' hk => ⟨rfl, rfl, hk, hwithin, .inr fun _ hcause => hcause⟩
  exact Exec.Tracks.runs (fun k k' hk => (haligned k k' hk).run root)
    (Coupling.same_agree_iff.2 rfl)

/-- Limits are transparent. A run that ends without reaching a limit ends under all wider limits
with the same value or fault, leaves the same stack, input and output, and ends in no other way. Any
run that ends, also by reaching a limit, has written the beginning of what it writes under wider
limits under which it ends. -/
theorem limits_transparent {limits limits' : Limits} (hwithin : limits.Within limits')
    {ann : Annotations} {located : Bool} {root : Tree Mark} {m m' : Machine}
    {o : Outcome Fault (Option Value)}
    (hends : EndsWith (fun k => run ⟨limits, ann, located, k⟩ root m) o m') :
    ((∀ f, o = .failed f → ¬f.cause.IsLimit) → ∀ o' n,
      EndsWith (fun k => run ⟨limits', ann, located, k⟩ root m) o' n ↔ o' = o ∧ n = m') ∧
    (∀ o' n, EndsWith (fun k => run ⟨limits', ann, located, k⟩ root m) o' n →
      m'.output.Precedes n.output) := by
  have hpatient := isPatient_run limits' ann located root m
  have halong := run_goesAlong_of_within hwithin ann located root m
  constructor
  · intro hno
    have hcut : ¬∃ f, o = .failed f ∧ f.cause.IsLimit := by
      rintro ⟨f, hf, hlimit⟩
      exact hno f hf hlimit
    obtain ⟨n, hagree, hiff⟩ := halong.endsWith_iff hpatient hends hcut
    rw [Coupling.same_agree_iff.1 hagree]
    exact hiff
  · intro o' n hends'
    exact halong.precedes_of_endsWith hpatient hends hends'

/-- A loop that prints every other number of the input for as long as the numbers between them are
not zero. -/
def echoLoop : Tree Mark :=
  .whileLoop ⟨0, none⟩ (.input ⟨1, none⟩) (.print ⟨2, none⟩ (.input ⟨3, none⟩))

/-- The machine on which the loop finds the input `1 5 1 6 0`. -/
def echoStart : Machine := ⟨.zeros 0, .ofBytes [49, 32, 53, 32, 49, 32, 54, 32, 48] false, {}, 0⟩

/-- Two loop bodies are enough for this input, so the loop ends in the same way without limits.
If only one may be started, what it prints is the beginning of what the loop prints. -/
theorem limits_transparent_echo :
    EndsWith (fun k => run ⟨{}, .empty, true, k⟩ echoLoop echoStart) (.done none)
        ⟨.zeros 0, ⟨[], [], false⟩, { written := #[53, 10, 54, 10] }, 2⟩ ∧
      EndsWith (fun k => run ⟨⟨3, some 1⟩, .empty, true, k⟩ echoLoop echoStart)
        (.failed ⟨.iterationLimit 1, none⟩)
        ⟨.zeros 0, ⟨["6".toList, "0".toList], [], false⟩, { written := #[53, 10] }, 2⟩ ∧
      ∀ o m, EndsWith (fun k => run ⟨{}, .empty, true, k⟩ echoLoop echoStart) o m →
        [53, 10] <+: m.output.written.toList := by
  have hwide : EndsWith (fun k => run ⟨⟨3, some 2⟩, .empty, true, k⟩ echoLoop echoStart)
      (.done none) ⟨.zeros 0, ⟨[], [], false⟩, { written := #[53, 10, 54, 10] }, 2⟩ :=
    ⟨by decide, 3, by cbv⟩
  have hnarrow : EndsWith (fun k => run ⟨⟨3, some 1⟩, .empty, true, k⟩ echoLoop echoStart)
      (.failed ⟨.iterationLimit 1, none⟩)
      ⟨.zeros 0, ⟨["6".toList, "0".toList], [], false⟩, { written := #[53, 10] }, 2⟩ :=
    ⟨by decide, 3, by cbv⟩
  have hdepth : 3 ≤ 1000 := by decide
  have hwithin : ∀ n, Limits.Within ⟨3, some n⟩ {} := fun n => ⟨hdepth, fun _ hn => by cases hn⟩
  refine ⟨?_, hnarrow, ?_⟩
  · exact ((limits_transparent (hwithin 2) hwide).1 (fun f hf => by cases hf) _ _).2 ⟨rfl, rfl⟩
  · intro o m hends
    exact (limits_transparent (hwithin 1) hnarrow).2 o m hends

end Eval

end IntScript
