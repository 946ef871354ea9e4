import IntScript.Proofs.Eval.Refinement

/-!
# Statements end alike

Two directions. Whatever an execution comes to that is not given up, there is a derivation for it.
And an execution with enough patience comes to the end that a derivation gives it. How much patience
is enough depends on the derivation alone, since loops take as many rounds as it has.
-/

namespace IntScript.Reference

open Eval (eval evalStatements exec)

variable {layout : Layout} {ann : Annotations}

/-- An execution is given up, or it ends in a way that a relation allows. -/
def Follows (layout : Layout) {α : Type} (x : Exec α) (m : Machine)
    (R : Except Fault α → World → Prop) : Prop :=
  (∃ m', x m = (.unfinished, m')) ∨ ∃ r w, R r w ∧ Ends layout x m r w

/-- An execution with enough patience ends in the given way on all machines that mirror a world. -/
def Settles (layout : Layout) {α : Type} (x : Nat → Exec α) (w : World) (r : Except Fault α)
    (w' : World) : Prop :=
  ∃ enough, ∀ patience, enough ≤ patience → ∀ m, Mirrors layout m w →
    Ends layout (x patience) m r w'

section Follows

variable {α β : Type} {x : Exec α} {m : Machine} {R : Except Fault α → World → Prop}

/-- An execution that ends follows a relation that allows its end. -/
theorem Ends.follows {r : Except Fault α} {w : World} (h : Ends layout x m r w) (hR : R r w) :
    Follows layout x m R := .inr ⟨r, w, hR, h⟩

/-- A relation that allows more is followed as well. -/
theorem Follows.weaken {R' : Except Fault α → World → Prop} (h : Follows layout x m R)
    (hR : ∀ r w, R r w → R' r w) : Follows layout x m R' := by
  rcases h with hgive | ⟨r, w, hr, hends⟩
  · exact .inl hgive
  · exact .inr ⟨r, w, hR r w hr, hends⟩

/-- Two executions in a row follow a relation that allows the faults of the first one and the ends
of the second one. -/
theorem Follows.bind {f : α → Exec β} {R' : Except Fault β → World → Prop}
    (h : Follows layout x m R) (hstop : ∀ e w, R (.error e) w → R' (.error e) w)
    (hnext : ∀ a w m', R (.ok a) w → Mirrors layout m' w → Follows layout (f a) m' R') :
    Follows layout (x >>= f) m R' := by
  rcases h with ⟨m', hgive⟩ | ⟨r, w, hr, hends⟩
  · exact .inl ⟨m', Exec.bind_unfinished hgive⟩
  · cases hends with
    | failed hx hm => exact (Ends.stop (.failed hx hm)).follows (hstop _ _ hr)
    | done hx hm =>
      rcases hnext _ _ _ hr hm with ⟨m'', hgive⟩ | ⟨r', w', hr', hends'⟩
      · exact .inl ⟨m'', (Exec.bind_done hx).trans hgive⟩
      · cases hends' with
        | failed h' hm' => exact .inr ⟨_, _, hr', .failed ((Exec.bind_done hx).trans h') hm'⟩
        | done h' hm' => exact .inr ⟨_, _, hr', .done ((Exec.bind_done hx).trans h') hm'⟩

end Follows

section Settles

variable {α β : Type} {x : Nat → Exec α} {f : Nat → α → Exec β} {w w' w'' : World}

/-- An execution that ends whatever its patience settles. -/
theorem settles_of_ends {r : Except Fault α}
    (h : ∀ patience m, Mirrors layout m w → Ends layout (x patience) m r w') :
    Settles layout x w r w' := ⟨0, fun patience _ => h patience⟩

/-- Two executions in a row settle if both do. -/
theorem Settles.next {a : α} {r : Except Fault β} (h : Settles layout x w (.ok a) w')
    (hf : Settles layout (fun patience => f patience a) w' r w'') :
    Settles layout (fun patience => x patience >>= f patience) w r w'' := by
  obtain ⟨n, hn⟩ := h
  obtain ⟨k, hk⟩ := hf
  refine ⟨max n k, fun patience hp m hm => ?_⟩
  exact (hn patience (by omega) m hm).next fun m' hm' => hk patience (by omega) m' hm'

/-- Nothing follows an execution that settles with a fault. -/
theorem Settles.stop {e : Fault} (h : Settles layout x w (.error e) w') :
    Settles layout (fun patience => x patience >>= f patience) w (.error e) w' := by
  obtain ⟨n, hn⟩ := h
  exact ⟨n, fun patience hp m hm => (hn patience hp m hm).stop⟩

end Settles

section Parts

variable {limits : Limits} {patience : Nat} {m : Machine} {w w' : World} {d : Nat}

/-- The parts of a branch are ready if it is. -/
theorem Ready.ifElse {a : Mark} {c t : Tree Mark} {e : Option (Tree Mark)}
    (h : Ready layout ann (.ifElse a c t e)) :
    Ready layout ann c ∧ Ready layout ann t ∧ ∀ s ∈ e, Ready layout ann s := by
  refine ⟨h.subtree ?_, h.subtree ?_, fun s hs => h.subtree ?_⟩
  · cases e <;> simp [Tree.subtrees, Tree.children]
  · cases e <;> simp [Tree.subtrees, Tree.children]
  · cases hs
    simp [Tree.subtrees, Tree.children]

/-- The parts of a loop are ready if it is. -/
theorem Ready.whileLoop {a : Mark} {c b : Tree Mark} (h : Ready layout ann (.whileLoop a c b)) :
    Ready layout ann c ∧ Ready layout ann b := by
  refine ⟨h.subtree ?_, h.subtree ?_⟩ <;> simp [Tree.subtrees, Tree.children]

/-- An expression in the place of a statement ends as it is evaluated. -/
theorem exec_of_evaluates (hinv : layout.OneToOne) {e : Tree Mark} (he : e.IsExpression)
    (hready : Ready layout ann e) {r : Except Fault Value} (hm : Mirrors layout m w)
    (h : Evaluates limits d e.unmarked w r w') :
    Ends layout (exec ⟨limits, ann, true, patience⟩ d e) m (r.map fun _ => ()) w' := by
  cases r with
  | ok v => exact (eval_of_evaluates hinv he hready hm h).map fun _ => ()
  | error f => exact (eval_of_evaluates hinv he hready hm h).stop

/-- A condition comes to the value of its expression. -/
theorem condition_of_evaluates (hinv : layout.OneToOne) {a : Mark} {t : Tree Mark}
    (ht : t.IsExpression) (hready : Ready layout ann (.condition a t)) {r : Except Fault Value}
    (hm : Mirrors layout m w) (h : Evaluates limits d (Tree.condition a t).unmarked w r w') :
    Ends layout
      (Eval.needValue ⟨limits, ann, true, patience⟩ (.condition a t)
        (eval ⟨limits, ann, true, patience⟩ d (.condition a t))) m r w' := by
  have hready' : Ready layout ann t := hready.subtree (by simp [Tree.subtrees, Tree.children])
  refine Ends.needValue ?_
  rw [eval]
  cases h with
  | tooDeep hd => exact hready.tooDeep _ hd hm
  | condition hd hx =>
    rw [Eval.atDepth_of_lt _ hd]
    exact (eval_of_evaluates hinv ht hready' hm hx).needValue.map some

/-- A condition follows the semantics. -/
theorem condition_follows (hinv : layout.OneToOne) {a : Mark} {t : Tree Mark}
    (ht : t.IsExpression) (hready : Ready layout ann (.condition a t))
    (hm : Mirrors layout m w) :
    Follows layout
      (Eval.needValue ⟨limits, ann, true, patience⟩ (.condition a t)
        (eval ⟨limits, ann, true, patience⟩ d (.condition a t))) m
      (Evaluates limits d (Tree.condition a t).unmarked w) := by
  have htotal : ∃ r w', Evaluates limits d (Tree.condition a t).unmarked w r w' := by
    refine evaluates_of_lt fun hd => ?_
    obtain ⟨r, w', h⟩ := evaluates_total limits (ht.relabel _) (d + 1) w
    exact ⟨r, w', .condition hd h⟩
  obtain ⟨r, w', h⟩ := htotal
  exact (condition_of_evaluates hinv ht hready hm h).follows h

/-- A loop body that would be one too many is not started. -/
theorem Ready.countTooMany {t : Tree Mark} (h : Ready layout ann t) (hm : Mirrors layout m w)
    {n : Nat} (hn : limits.maxIterations = some n) (hlt : n < w.count.iterations) :
    Ends layout (Eval.countIteration ⟨limits, ann, true, patience⟩ t) m
      (.error ⟨.iterationLimit n, some t.unmarked.label⟩) w.count := by
  have hm' : Mirrors layout { m with iterations := m.iterations + 1 } w.count :=
    ⟨hm.size, hm.slot, hm.input, hm.output, congrArg (· + 1) hm.iterations⟩
  have hcount : n < m.iterations + 1 := by
    rw [hm.iterations]
    exact hlt
  refine .failed ?_ hm'
  dsimp only [Eval.countIteration]
  rw [hn]
  dsimp only
  rw [if_pos hcount]
  exact h.blame _ _

/-- A loop body within the limit is counted. -/
theorem countIteration_ends {t : Tree Mark} (hm : Mirrors layout m w)
    (hn : ∀ n, limits.maxIterations = some n → w.count.iterations ≤ n) :
    Ends layout (Eval.countIteration ⟨limits, ann, true, patience⟩ t) m (.ok ()) w.count := by
  have hm' : Mirrors layout { m with iterations := m.iterations + 1 } w.count :=
    ⟨hm.size, hm.slot, hm.input, hm.output, congrArg (· + 1) hm.iterations⟩
  refine .done ?_ hm'
  dsimp only [Eval.countIteration]
  cases hlimit : limits.maxIterations with
  | none => rfl
  | some n =>
    have hle : ¬ n < m.iterations + 1 := by
      rw [hm.iterations]
      exact Nat.not_lt.2 (hn n hlimit)
    dsimp only
    rw [if_neg hle]

end Parts

section Following

variable {limits : Limits} {patience : Nat} {m : Machine} {w : World} {d : Nat}

/-- A tree that is nested too deeply is blamed for it. -/
theorem exec_tooDeep {t : Tree Mark} (hready : Ready layout ann t) (hm : Mirrors layout m w)
    (hd : limits.maxDepth ≤ d) :
    Ends layout (exec ⟨limits, ann, true, patience⟩ d t) m
      (.error ⟨.depthLimit d limits.maxDepth, some t.unmarked.label⟩) w := by
  rw [Eval.exec_of_le hd]
  exact .failed (hready.blame _ m) hm

/-- A tree that follows the semantics unless it is nested too deeply does so in any case. -/
theorem exec_follows_of_lt {t : Tree Mark} (hready : Ready layout ann t) (hm : Mirrors layout m w)
    (h : d < limits.maxDepth →
      Follows layout (exec ⟨limits, ann, true, patience⟩ d t) m
        (Executes limits d t.unmarked w)) :
    Follows layout (exec ⟨limits, ann, true, patience⟩ d t) m (Executes limits d t.unmarked w) := by
  rcases Nat.lt_or_ge d limits.maxDepth with hd | hd
  · exact h hd
  · exact (exec_tooDeep hready hm hd).follows (.tooDeep hd)

/-- Statements in order follow the semantics if each of them does. -/
theorem statements_follow {a : Span} {ts : List (Tree Mark)} (hd : d < limits.maxDepth)
    (h : ∀ t ∈ ts, ∀ m w, Mirrors layout m w →
      Follows layout (exec ⟨limits, ann, true, patience⟩ (d + 1) t) m
        (Executes limits (d + 1) t.unmarked w))
    (hm : Mirrors layout m w) :
    Follows layout (evalStatements ⟨limits, ann, true, patience⟩ (d + 1) ts) m
      (Executes limits d (.block a (Tree.relabelAll (fun m => m.span.getD ⟨0, 0⟩) ts)) w) := by
  induction ts generalizing m w with
  | nil =>
    rw [evalStatements]
    exact Ends.follows (.done rfl hm) (.blockEnd hd)
  | cons t ts ih =>
    rw [Eval.evalStatements_cons, Tree.relabelAll]
    refine (h t List.mem_cons_self m w hm).bind (fun e w' he => .blockStop hd he) ?_
    intro _ w' m' hok hm'
    refine (ih (fun t ht => h t (List.mem_cons_of_mem _ ht)) hm').weaken ?_
    intro r w'' hr
    exact .blockNext hd hok hr

/-- The rounds of a loop follow the semantics if its condition and its body do. -/
theorem loop_follows {a : Mark} {c b : Tree Mark} (hd : d < limits.maxDepth)
    (hready : Ready layout ann (.whileLoop a c b))
    (hc : ∀ m w, Mirrors layout m w →
      Follows layout (Eval.needValue ⟨limits, ann, true, patience⟩ c
        (eval ⟨limits, ann, true, patience⟩ (d + 1) c)) m (Evaluates limits (d + 1) c.unmarked w))
    (hb : ∀ m w, Mirrors layout m w →
      Follows layout (exec ⟨limits, ann, true, patience⟩ (d + 1) b) m
        (Executes limits (d + 1) b.unmarked w))
    (n : Nat) (hm : Mirrors layout m w) :
    Follows layout
      (Exec.loop (Eval.test ⟨limits, ann, true, patience⟩ (d + 1) c)
        (Eval.round ⟨limits, ann, true, patience⟩ (d + 1) (.whileLoop a c b) b) n) m
      (Executes limits d (Tree.whileLoop a c b).unmarked w) := by
  induction n generalizing m w with
  | zero => exact .inl ⟨m, rfl⟩
  | succ n ih =>
    rw [Exec.loop_succ, Eval.test, bind_assoc]
    refine (hc m w hm).bind (fun e w' he => .whileFails hd he) ?_
    intro x w' m' hx hm'
    rw [pure_bind]
    by_cases htrue : Value.truthy x = true
    · rw [if_pos htrue, Eval.round, bind_assoc]
      by_cases hn : ∀ n, limits.maxIterations = some n → w'.count.iterations ≤ n
      · refine Follows.bind (R := fun r w'' => r = .ok () ∧ w'' = w'.count)
          ((countIteration_ends hm' hn).follows ⟨rfl, rfl⟩) ?_ ?_
        · rintro e w'' ⟨he, -⟩
          cases he
        · rintro _ w'' m'' ⟨-, rfl⟩ hm''
          refine (hb m'' w'.count hm'').bind (fun e w₁ he => .whileStop hd hx htrue hn he) ?_
          intro _ w₁ m₁ hok hm₁
          refine (ih hm₁).weaken ?_
          intro r w₂ hr
          exact .whileNext hd hx htrue hn hok hr
      · have hmany : ∃ k, limits.maxIterations = some k ∧ k < w'.count.iterations := by
          simpa using hn
        obtain ⟨k, hk, hlt⟩ := hmany
        exact (hready.countTooMany hm' hk hlt).stop.follows (.whileLimit hd hx htrue hk hlt)
    · rw [if_neg htrue]
      exact Ends.follows (.done rfl hm') (.whileEnd hd hx (by simpa using htrue))

/-- An execution of a statement that is not given up follows the semantics. -/
theorem exec_follows (hinv : layout.OneToOne) {t : Tree Mark} (ht : t.IsStatement)
    (hready : Ready layout ann t) (hm : Mirrors layout m w) :
    Follows layout (exec ⟨limits, ann, true, patience⟩ d t) m
      (Executes limits d t.unmarked w) := by
  induction ht generalizing d m w with
  | @expression a e he =>
    have hready' : Ready layout ann e := hready.subtree (by simp [Tree.subtrees, Tree.children])
    refine exec_follows_of_lt hready hm fun hd => ?_
    obtain ⟨r, w', h⟩ := evaluates_total limits (he.relabel _) (d + 1) w
    rw [Eval.exec_expression hd]
    exact (exec_of_evaluates hinv he hready' hm h).follows (.expression hd h)
  | @block a ts _ ih =>
    refine exec_follows_of_lt hready hm fun hd => ?_
    rw [Eval.exec_block hd]
    refine statements_follow hd (fun t ht m w hm => ih t ht (hready.subtree ?_) hm) hm
    rw [Tree.subtrees_block]
    exact ht
  | @ifThen a b c e ts he _ ih =>
    obtain ⟨hcond, hthen, -⟩ := hready.ifElse
    refine exec_follows_of_lt hready hm fun hd => ?_
    rw [Eval.exec_ifElse hd]
    refine (condition_follows hinv he hcond hm).bind (fun e w' he => .ifFails hd he) ?_
    intro x w' m' hx hm'
    by_cases htrue : Value.truthy x = true
    · rw [if_pos htrue]
      exact (ih hthen hm').weaken fun r w'' hr => .ifTrue hd hx htrue hr
    · rw [if_neg htrue]
      exact Ends.follows (.done rfl hm') (.ifNone hd hx (by simpa using htrue))
  | @ifElse a b c d' e ts es he _ _ iht ihe =>
    obtain ⟨hcond, hthen, helse⟩ := hready.ifElse
    refine exec_follows_of_lt hready hm fun hd => ?_
    rw [Eval.exec_ifElse hd]
    refine (condition_follows hinv he hcond hm).bind (fun e w' he => .ifFails hd he) ?_
    intro x w' m' hx hm'
    by_cases htrue : Value.truthy x = true
    · rw [if_pos htrue]
      exact (iht hthen hm').weaken fun r w'' hr => .ifTrue hd hx htrue hr
    · rw [if_neg htrue]
      exact (ihe (helse _ rfl) hm').weaken fun r w'' hr => .ifFalse hd hx (by simpa using htrue) hr
  | @whileLoop a b c e ts he _ ih =>
    obtain ⟨hcond, hbody⟩ := hready.whileLoop
    refine exec_follows_of_lt hready hm fun hd => ?_
    rw [Eval.exec_whileLoop hd]
    exact loop_follows hd hready (fun m w hm => condition_follows hinv he hcond hm)
      (fun m w hm => ih hbody hm) patience hm

end Following

section Settling

variable {limits : Limits} {w w' : World} {d : Nat} {r : Except Fault Unit}

/-- Statements in order settle if each of them does. -/
theorem statements_settle {a : Span} {ts : List (Tree Mark)} (hd : d < limits.maxDepth)
    (h : ∀ t ∈ ts, ∀ w r w', Executes limits (d + 1) t.unmarked w r w' →
      Settles layout (fun patience => exec ⟨limits, ann, true, patience⟩ (d + 1) t) w r w')
    (hts : Executes limits d (.block a (Tree.relabelAll (fun m => m.span.getD ⟨0, 0⟩) ts)) w r w') :
    Settles layout (fun patience => evalStatements ⟨limits, ann, true, patience⟩ (d + 1) ts)
      w r w' := by
  induction ts generalizing w with
  | nil =>
    cases hts with
    | tooDeep hle => omega
    | blockEnd =>
      refine settles_of_ends fun patience m hm => ?_
      rw [evalStatements]
      exact .done rfl hm
  | cons t ts ih =>
    simp only [Eval.evalStatements_cons]
    cases hts with
    | tooDeep hle => omega
    | blockStop _ hs => exact (h t List.mem_cons_self _ _ _ hs).stop
    | blockNext _ hs hss =>
      have hrest := ih (fun t ht => h t (List.mem_cons_of_mem _ ht)) hss
      exact (h t List.mem_cons_self _ _ _ hs).next hrest

/-- The rounds of a loop settle if its condition ends and its body settles: enough patience for
every body and enough rounds for all of them. -/
theorem loop_settles {a : Mark} {c b : Tree Mark} (hready : Ready layout ann (.whileLoop a c b))
    (hc : ∀ w r w', Evaluates limits (d + 1) c.unmarked w r w' → ∀ patience m,
      Mirrors layout m w →
        Ends layout (Eval.needValue ⟨limits, ann, true, patience⟩ c
          (eval ⟨limits, ann, true, patience⟩ (d + 1) c)) m r w')
    (hb : ∀ w r w', Executes limits (d + 1) b.unmarked w r w' →
      Settles layout (fun patience => exec ⟨limits, ann, true, patience⟩ (d + 1) b) w r w')
    (hd : d < limits.maxDepth)
    (h : Executes limits d (Tree.whileLoop a c b).unmarked w r w') :
    ∃ enough, ∀ patience, enough ≤ patience → ∀ n, enough ≤ n → ∀ m, Mirrors layout m w →
      Ends layout
        (Exec.loop (Eval.test ⟨limits, ann, true, patience⟩ (d + 1) c)
          (Eval.round ⟨limits, ann, true, patience⟩ (d + 1) (.whileLoop a c b) b) n) m r w' := by
  -- induction on the derivation: one round for every rule of the loop in it
  generalize hs : (Tree.whileLoop a c b).unmarked = s at h
  induction h with
  | tooDeep hle => omega
  | whileFails _ hx =>
    cases hs
    refine ⟨1, fun patience _ n hn m hm => ?_⟩
    obtain ⟨k, rfl⟩ : ∃ k, n = k + 1 := ⟨n - 1, by omega⟩
    rw [Exec.loop_succ, Eval.test, bind_assoc]
    exact (hc _ _ _ hx patience m hm).stop
  | whileEnd _ hx hfalse =>
    cases hs
    refine ⟨1, fun patience _ n hn m hm => ?_⟩
    obtain ⟨k, rfl⟩ : ∃ k, n = k + 1 := ⟨n - 1, by omega⟩
    rw [Exec.loop_succ, Eval.test, bind_assoc]
    refine (hc _ _ _ hx patience m hm).next fun m' hm' => ?_
    rw [pure_bind, if_neg (by simp [hfalse])]
    exact .done rfl hm'
  | whileLimit _ hx htrue hk hlt =>
    cases hs
    refine ⟨1, fun patience _ n hn m hm => ?_⟩
    obtain ⟨k, rfl⟩ : ∃ k, n = k + 1 := ⟨n - 1, by omega⟩
    rw [Exec.loop_succ, Eval.test, bind_assoc]
    refine (hc _ _ _ hx patience m hm).next fun m' hm' => ?_
    rw [pure_bind, if_pos htrue, Eval.round, bind_assoc]
    exact (hready.countTooMany hm' hk hlt).stop
  | whileStop _ hx htrue hn hbody =>
    cases hs
    obtain ⟨p, hp⟩ := hb _ _ _ hbody
    refine ⟨max p 1, fun patience hpat n hn' m hm => ?_⟩
    obtain ⟨k, rfl⟩ : ∃ k, n = k + 1 := ⟨n - 1, by omega⟩
    rw [Exec.loop_succ, Eval.test, bind_assoc]
    refine (hc _ _ _ hx patience m hm).next fun m' hm' => ?_
    rw [pure_bind, if_pos htrue, Eval.round, bind_assoc]
    refine (countIteration_ends hm' hn).next fun m'' hm'' => ?_
    exact (hp patience (by omega) m'' hm'').stop
  | whileNext _ hx htrue hn hbody _ _ ih =>
    cases hs
    obtain ⟨p, hp⟩ := hb _ _ _ hbody
    obtain ⟨q, hq⟩ := ih hc hb hd rfl
    refine ⟨max p (q + 1), fun patience hpat n hn' m hm => ?_⟩
    obtain ⟨k, rfl⟩ : ∃ k, n = k + 1 := ⟨n - 1, by omega⟩
    rw [Exec.loop_succ, Eval.test, bind_assoc]
    refine (hc _ _ _ hx patience m hm).next fun m' hm' => ?_
    rw [pure_bind, if_pos htrue, Eval.round, bind_assoc]
    refine (countIteration_ends hm' hn).next fun m'' hm'' => ?_
    refine (hp patience (by omega) m'' hm'').next fun m₁ hm₁ => ?_
    exact hq patience (by omega) k (by omega) m₁ hm₁
  | _ => cases hs

/-- What is nested too deeply comes to no other end. -/
theorem Executes.eq_of_le {s : Tree Span} (h : Executes limits d s w r w')
    (hd : limits.maxDepth ≤ d) :
    r = .error ⟨.depthLimit d limits.maxDepth, some s.label⟩ ∧ w' = w := by
  cases h with
  | tooDeep _ => exact ⟨rfl, rfl⟩
  | _ => omega

/-- A tree that settles unless it is nested too deeply does so in any case. -/
theorem exec_settles_of_lt {t : Tree Mark} (hready : Ready layout ann t)
    (h : Executes limits d t.unmarked w r w')
    (hlt : d < limits.maxDepth →
      Settles layout (fun patience => exec ⟨limits, ann, true, patience⟩ d t) w r w') :
    Settles layout (fun patience => exec ⟨limits, ann, true, patience⟩ d t) w r w' := by
  rcases Nat.lt_or_ge d limits.maxDepth with hd | hd
  · exact hlt hd
  · obtain ⟨rfl, rfl⟩ := h.eq_of_le hd
    exact settles_of_ends fun patience m hm => exec_tooDeep hready hm hd

/-- A branch settles if its condition ends and the branch taken settles. -/
theorem branch_settles {a : Mark} {c t : Tree Mark} {e : Option (Tree Mark)}
    (hd : d < limits.maxDepth) {x : Value} {w'' : World}
    (hc : ∀ patience m, Mirrors layout m w →
      Ends layout (Eval.needValue ⟨limits, ann, true, patience⟩ c
        (eval ⟨limits, ann, true, patience⟩ (d + 1) c)) m (.ok x) w')
    (h : Settles layout (fun patience =>
      if Value.truthy x = true then exec ⟨limits, ann, true, patience⟩ (d + 1) t
      else match e with
        | some e => exec ⟨limits, ann, true, patience⟩ (d + 1) e
        | none => pure ()) w' r w'') :
    Settles layout (fun patience => exec ⟨limits, ann, true, patience⟩ d (.ifElse a c t e))
      w r w'' := by
  have heq : ∀ patience, exec ⟨limits, ann, true, patience⟩ d (.ifElse a c t e) = _ :=
    fun patience => Eval.exec_ifElse hd a c t e
  simp only [heq]
  exact (settles_of_ends hc).next h

/-- An execution of a statement with enough patience ends as the semantics says. -/
theorem exec_settles (hinv : layout.OneToOne) {t : Tree Mark} (ht : t.IsStatement)
    (hready : Ready layout ann t) (h : Executes limits d t.unmarked w r w') :
    Settles layout (fun patience => exec ⟨limits, ann, true, patience⟩ d t) w r w' := by
  induction ht generalizing d w w' r with
  | @expression a e he =>
    have hready' : Ready layout ann e := hready.subtree (by simp [Tree.subtrees, Tree.children])
    refine settles_of_ends fun patience m hm => ?_
    cases h with
    | tooDeep hd => exact exec_tooDeep hready hm hd
    | expression hd he' =>
      rw [Eval.exec_expression hd]
      exact exec_of_evaluates hinv he hready' hm he'
  | @block a ts _ ih =>
    refine exec_settles_of_lt hready h fun hd => ?_
    have heq : (fun patience => exec ⟨limits, ann, true, patience⟩ d (.block a ts)) =
        fun patience => evalStatements ⟨limits, ann, true, patience⟩ (d + 1) ts :=
      funext fun patience => Eval.exec_block hd a ts
    rw [heq]
    refine statements_settle hd (fun t ht w r w' h => ih t ht (hready.subtree ?_) h) h
    rw [Tree.subtrees_block]
    exact ht
  | @ifThen a b c e ts he _ ih =>
    obtain ⟨hcond, hthen, -⟩ := hready.ifElse
    cases h with
    | tooDeep hd => exact settles_of_ends fun patience m hm => exec_tooDeep hready hm hd
    | ifFails hd hx =>
      refine settles_of_ends fun patience m hm => ?_
      rw [Eval.exec_ifElse hd]
      exact (condition_of_evaluates hinv he hcond hm hx).stop
    | ifTrue hd hx htrue ht =>
      refine branch_settles hd (fun patience m hm => condition_of_evaluates hinv he hcond hm hx) ?_
      simp only [if_pos htrue]
      exact ih hthen ht
    | ifNone hd hx hfalse =>
      refine branch_settles hd (fun patience m hm => condition_of_evaluates hinv he hcond hm hx) ?_
      simp only [hfalse]
      exact settles_of_ends fun patience m hm => .done rfl hm
  | @ifElse a b c d' e ts es he _ _ iht ihe =>
    obtain ⟨hcond, hthen, helse⟩ := hready.ifElse
    cases h with
    | tooDeep hd => exact settles_of_ends fun patience m hm => exec_tooDeep hready hm hd
    | ifFails hd hx =>
      refine settles_of_ends fun patience m hm => ?_
      rw [Eval.exec_ifElse hd]
      exact (condition_of_evaluates hinv he hcond hm hx).stop
    | ifTrue hd hx htrue ht =>
      refine branch_settles hd (fun patience m hm => condition_of_evaluates hinv he hcond hm hx) ?_
      simp only [if_pos htrue]
      exact iht hthen ht
    | ifFalse hd hx hfalse he' =>
      refine branch_settles hd (fun patience m hm => condition_of_evaluates hinv he hcond hm hx) ?_
      simp only [hfalse]
      exact ihe (helse _ rfl) he'
  | @whileLoop a b c e ts he _ ih =>
    obtain ⟨hcond, hbody⟩ := hready.whileLoop
    refine exec_settles_of_lt hready h fun hd => ?_
    have hcond' : ∀ w r w', Evaluates limits (d + 1) (Tree.condition b e).unmarked w r w' →
        ∀ patience m, Mirrors layout m w →
          Ends layout (Eval.needValue ⟨limits, ann, true, patience⟩ (.condition b e)
            (eval ⟨limits, ann, true, patience⟩ (d + 1) (.condition b e))) m r w' :=
      fun w r w' hx patience m hm => condition_of_evaluates hinv he hcond hm hx
    obtain ⟨enough, hloop⟩ := loop_settles hready hcond' (fun w r w' hb => ih hbody hb) hd h
    refine ⟨enough, fun patience hp m hm => ?_⟩
    dsimp only
    rw [Eval.exec_whileLoop hd]
    exact hloop patience hp patience hp m hm

end Settling

end IntScript.Reference
