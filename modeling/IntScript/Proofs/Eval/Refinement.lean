import IntScript.Proofs.Eval.Laws
import IntScript.Proofs.Eval.Reference
import IntScript.Proofs.Resolve.Slots

/-!
# Slots stand for names

Evaluation with slots does what the semantics by names says. A machine mirrors a world if its stack
holds the value of every name in the slot of that name, and if devices and counters agree. From
states that mirror each other, evaluation and derivation come to the same end in states that mirror
each other again.
-/

namespace IntScript.Reference

open Eval (eval evalStatements)

/-- A machine holds the value of every name in the slot of that name, and agrees with the world in
everything else. -/
structure Mirrors (layout : Layout) (m : Machine) (w : World) : Prop where
  /-- The stack has the slots of the layout. -/
  size : m.stack.size = layout.slotCount
  /-- Slots hold the values of their names. -/
  slot : ∀ name slot, layout.slotOf? name = some slot →
    m.stack.values[slot]? = some (w.store name)
  /-- The same input is left. -/
  input : m.input = w.input
  /-- The same output was written. -/
  output : m.output = w.output
  /-- As many loop bodies were started. -/
  iterations : m.iterations = w.iterations

/-- What evaluation needs to know of a tree: all nodes have spans, and variables carry the slots of
their names. -/
structure Ready (layout : Layout) (ann : Annotations) (t : Tree Mark) : Prop where
  /-- All nodes have spans. -/
  located : t.IsLocated
  /-- Variables carry the slots of their names. -/
  slot : ∀ m name, .var m name ∈ t.nodes →
    ∃ slot, ann.slot? (.var m name) = some slot ∧ layout.slotOf? name = some slot

variable {layout : Layout} {ann : Annotations}

/-- A child is ready if its parent is. -/
theorem Ready.subtree {t s : Tree Mark} (h : Ready layout ann t) (hs : s ∈ t.subtrees) :
    Ready layout ann s :=
  ⟨fun n hn => h.located n (Tree.mem_nodes_of_subtree hs hn),
    fun m name hm => h.slot m name (Tree.mem_nodes_of_subtree hs hm)⟩

/-- The span of a node that is ready. -/
theorem Ready.span? {t : Tree Mark} (h : Ready layout ann t) : t.span? = some t.unmarked.label := by
  have hl := h.located t t.mem_nodes_self
  rw [Tree.unmarked, Tree.label_relabel]
  rw [Tree.span?] at hl ⊢
  cases hs : t.label.span with
  | none => rw [hs] at hl; cases hl
  | some s => rfl

/-- A variable that is ready is read from its slot. -/
theorem Mirrors.read {m : Machine} {w : World} (h : Mirrors layout m w) {name : String}
    {slot : Nat} (hslot : layout.slotOf? name = some slot) :
    m.stack.read slot = .ok (w.store name) := by
  rw [Stack.read, h.slot name slot hslot]

/-- Writing to the slot of a name gives that name a new value and no other. -/
theorem Mirrors.write {m : Machine} {w : World} (h : Mirrors layout m w)
    (hinv : layout.OneToOne)
    {name : String} {slot : Nat} (hslot : layout.slotOf? name = some slot) (v : Value) :
    ∃ stack, m.stack.write slot v = .ok stack ∧
      Mirrors layout { m with stack := stack } (w.set name v) := by
  have hlt : slot < m.stack.size := by
    have hs := h.slot name slot hslot
    exact (Array.getElem?_eq_some_iff.1 hs).1
  refine ⟨⟨m.stack.values.setIfInBounds slot v⟩, by rw [Stack.write, if_pos hlt], ?_⟩
  refine ⟨?_, fun x i hx => ?_, h.input, h.output, h.iterations⟩
  · rw [← h.size]
    exact Array.size_setIfInBounds
  · have hold := h.slot x i hx
    simp only [World.set, Array.getElem?_setIfInBounds]
    by_cases hi : slot = i
    · -- two names in one slot would both be the name of that slot
      have hname : name = x := by
        have h₁ := (hinv name slot).1 hslot
        have h₂ := (hinv x i).1 hx
        rw [hi, h₂] at h₁
        exact (Option.some.inj h₁).symm
      subst hi
      rw [if_pos rfl, if_pos (show slot < m.stack.values.size from hlt), if_pos hname.symm]
    · have hname : x ≠ name := by
        rintro rfl
        rw [hslot] at hx
        exact hi (Option.some.inj hx)
      rw [if_neg hi, if_neg hname]
      exact hold

/-- An execution ends with a result or a fault, on a machine that mirrors the given world. -/
inductive Ends (layout : Layout) {α : Type} (x : Exec α) (m : Machine) :
    Except Fault α → World → Prop
  | done {a : α} {m' : Machine} {w : World} (h : x m = (.done a, m'))
      (hm : Mirrors layout m' w) : Ends layout x m (.ok a) w
  | failed {f : Fault} {m' : Machine} {w : World} (h : x m = (.failed f, m'))
      (hm : Mirrors layout m' w) : Ends layout x m (.error f) w

namespace Ends

variable {α β : Type} {x : Exec α} {f : α → Exec β} {m : Machine} {w w' : World}

/-- What follows an execution that is done decides how both end. -/
theorem next {a : α} {r : Except Fault β} (h : Ends layout x m (.ok a) w)
    (hf : ∀ m', Mirrors layout m' w → Ends layout (f a) m' r w') :
    Ends layout (x >>= f) m r w' := by
  cases h with
  | done h hm =>
    have heq := Exec.bind_done (f := f) h
    cases hf _ hm with
    | done h' hm' => exact .done (heq.trans h') hm'
    | failed h' hm' => exact .failed (heq.trans h') hm'

/-- Nothing follows an execution that failed. -/
theorem stop {e : Fault} (h : Ends layout x m (.error e) w) :
    Ends layout (x >>= f) m (.error e) w := by
  cases h with
  | failed h hm => exact .failed (Exec.bind_failed h) hm

/-- The result of an execution is passed through a function. -/
theorem map {r : Except Fault α} (h : Ends layout x m r w) (g : α → β) :
    Ends layout (x >>= fun a => pure (g a)) m (r.map g) w := by
  cases r with
  | ok a => exact h.next fun m' hm' => .done rfl hm'
  | error e => exact h.stop

end Ends

section Steps

variable {limits : Limits} {patience : Nat} {t : Tree Mark} {m : Machine} {w : World}

/-- A node that is ready is blamed with its span. -/
theorem Ready.blame {α : Type} (h : Ready layout ann t) (cause : Fault.Cause) (m : Machine) :
    Eval.blame (α := α) ⟨limits, ann, true, patience⟩ t cause m =
      (.failed ⟨cause, some t.unmarked.label⟩, m) := by
  rw [Eval.blame, if_pos rfl, h.span?]
  rfl

/-- A node that is nested too deeply is blamed for it. -/
theorem Ready.tooDeep {α : Type} {d : Nat} (h : Ready layout ann t) (body : Exec α)
    (hd : limits.maxDepth ≤ d) (hm : Mirrors layout m w) :
    Ends layout (Eval.atDepth ⟨limits, ann, true, patience⟩ d t body) m
      (.error ⟨.depthLimit d limits.maxDepth, some t.unmarked.label⟩) w := by
  rw [Eval.atDepth_of_le body hd]
  exact .failed (h.blame _ m) hm

/-- The value that is needed is there. -/
theorem Ends.needValue {x : Exec (Option Value)} {r : Except Fault Value}
    (h : Ends layout x m (r.map some) w) :
    Ends layout (Eval.needValue ⟨limits, ann, true, patience⟩ t x) m r w := by
  cases r with
  | ok v =>
    cases h with
    | done h hm => exact .done (Eval.needValue_done h) hm
  | error f =>
    cases h with
    | failed h hm => exact .failed (Eval.needValue_failed h) hm

/-- A number is read from the same input. -/
theorem Ready.readInput (h : Ready layout ann t) (hm : Mirrors layout m w)
    {result : Except Input.Fault Value} {rest : Input} (hnext : w.input.next = (result, rest)) :
    Ends layout (Eval.readInput ⟨limits, ann, true, patience⟩ t) m
      (result.mapError fun f => ⟨.ofInput f, some t.unmarked.label⟩) { w with input := rest } := by
  have hm' : Mirrors layout { m with input := rest } { w with input := rest } :=
    ⟨hm.size, hm.slot, rfl, hm.output, hm.iterations⟩
  rw [← hm.input] at hnext
  cases result with
  | ok v => exact .done (by rw [Eval.readInput, hnext]) hm'
  | error f =>
    refine .failed ?_ hm'
    rw [Eval.readInput, hnext]
    exact h.blame _ _

/-- The line of a printed value is written to the same output. -/
theorem Ready.printLine (h : Ready layout ann t) (hm : Mirrors layout m w) {v : Value}
    {written : Except DeviceFault Unit} {output : Output}
    (hw : w.output.write (Text.encode (Value.chars v ++ ['\n'])) = (written, output)) :
    Ends layout (Eval.printLine ⟨limits, ann, true, patience⟩ t v) m
      (written.mapError fun f => ⟨.device f, some t.unmarked.label⟩)
      { w with output := output } := by
  have hm' : Mirrors layout { m with output := output } { w with output := output } :=
    ⟨hm.size, hm.slot, hm.input, rfl, hm.iterations⟩
  rw [← hm.output] at hw
  cases written with
  | ok u => exact .done (by rw [Eval.printLine, hw]) hm'
  | error f =>
    refine .failed ?_ hm'
    rw [Eval.printLine, hw]
    exact h.blame _ _

/-- An operator is applied to the same operands. -/
theorem Ready.applyBinary (h : Ready layout ann t) (hm : Mirrors layout m w) (op : BinaryOp)
    (x y : Value) :
    Ends layout (Eval.applyBinary ⟨limits, ann, true, patience⟩ t op x y) m
      ((op.apply x y).mapError fun f => ⟨.arithmetic f, some t.unmarked.label⟩) w := by
  rw [Eval.applyBinary]
  cases op.apply x y with
  | ok v => exact .done rfl hm
  | error f => exact .failed (h.blame _ m) hm

/-- A variable is found in its slot. -/
theorem Ready.slotOf {a : Mark} {name : String} (h : Ready layout ann (.var a name)) :
    ∃ slot, layout.slotOf? name = some slot ∧
      ∀ limits patience,
        Eval.slotOf ⟨limits, ann, true, patience⟩ (.var a name) name = pure slot := by
  obtain ⟨slot, hann, hslot⟩ := h.slot a name (Tree.mem_nodes_self _)
  refine ⟨slot, hslot, fun limits patience => ?_⟩
  rw [Eval.slotOf, hann]

/-- The slot of a name holds its value. -/
theorem Mirrors.readSlot (hm : Mirrors layout m w) {name : String} {slot : Nat}
    (hslot : layout.slotOf? name = some slot) (ctx : Eval.Context) :
    Ends layout (Eval.readSlot ctx t slot) m (.ok (w.store name)) w := by
  refine .done ?_ hm
  rw [Eval.readSlot, hm.read hslot]

/-- Writing to the slot of a name changes the value of the name. -/
theorem Mirrors.writeSlot (hm : Mirrors layout m w)
    (hinv : layout.OneToOne)
    {name : String} {slot : Nat} (hslot : layout.slotOf? name = some slot) (ctx : Eval.Context)
    (v : Value) : Ends layout (Eval.writeSlot ctx t slot v) m (.ok ()) (w.set name v) := by
  obtain ⟨stack, hwrite, hm'⟩ := hm.write hinv hslot v
  refine .done ?_ hm'
  rw [Eval.writeSlot, hwrite]

end Steps

section Expressions

variable {limits : Limits} {patience : Nat}

/-- An expression that comes to an end unless it is nested too deeply comes to an end. -/
theorem evaluates_of_lt {e : Tree Span} {d : Nat} {w : World}
    (h : d < limits.maxDepth → ∃ r w', Evaluates limits d e w r w') :
    ∃ r w', Evaluates limits d e w r w' := by
  rcases Nat.lt_or_ge d limits.maxDepth with hd | hd
  · exact h hd
  · exact ⟨_, _, .tooDeep hd⟩

/-- Every expression comes to a value or fails. -/
theorem evaluates_total (limits : Limits) {e : Tree Span} (he : e.IsExpression) (d : Nat)
    (w : World) : ∃ r w', Evaluates limits d e w r w' := by
  induction he generalizing d w with
  | literal h => exact evaluates_of_lt fun hd => ⟨_, _, .literal hd⟩
  | input => exact evaluates_of_lt fun hd => ⟨_, _, .input hd rfl⟩
  | var h => exact evaluates_of_lt fun hd => ⟨_, _, .var hd⟩
  | binary hl hr ihl ihr =>
    refine evaluates_of_lt fun hd => ?_
    obtain ⟨x | x, w₁, hx⟩ := ihl (d + 1) w
    · exact ⟨_, _, .binaryLeft hd hx⟩
    · obtain ⟨y | y, w₂, hy⟩ := ihr (d + 1) w₁
      · exact ⟨_, _, .binaryRight hd hx hy⟩
      · exact ⟨_, _, .binary hd hx hy⟩
  | unary hop ht ih =>
    refine evaluates_of_lt fun hd => ?_
    obtain ⟨x | x, w₁, hx⟩ := ih (d + 1) w
    · exact ⟨_, _, .unaryFails hd hop hx⟩
    · exact ⟨_, _, .unary hd hop hx⟩
  | change hop h => exact evaluates_of_lt fun hd => ⟨_, _, .change hd hop⟩
  | assign h hv ih =>
    refine evaluates_of_lt fun hd => ?_
    obtain ⟨x | x, w₁, hx⟩ := ih (d + 1) w
    · exact ⟨_, _, .assignFails hd hx⟩
    · exact ⟨_, _, .assign hd hx⟩
  | print ht ih =>
    refine evaluates_of_lt fun hd => ?_
    obtain ⟨x | x, w₁, hx⟩ := ih (d + 1) w
    · exact ⟨_, _, .printFails hd hx⟩
    · exact ⟨_, _, .print hd hx rfl⟩

/-- Evaluation takes an expression to the end that the semantics gives it. -/
theorem eval_of_evaluates (hinv : layout.OneToOne) {t : Tree Mark} (ht : t.IsExpression)
    (hready : Ready layout ann t) {d : Nat} {m : Machine} {w w' : World} {r : Except Fault Value}
    (hm : Mirrors layout m w)
    (h : Evaluates limits d t.unmarked w r w') :
    Ends layout (eval ⟨limits, ann, true, patience⟩ d t) m (r.map some) w' := by
  induction ht generalizing d m w w' r with
  | literal hv =>
    rw [eval]
    cases h with
    | tooDeep hd => exact hready.tooDeep _ hd hm
    | literal hd =>
      rw [Eval.atDepth_of_lt _ hd]
      exact .done rfl hm
  | input =>
    rw [eval]
    cases h with
    | tooDeep hd => exact hready.tooDeep _ hd hm
    | input hd hnext =>
      rw [Eval.atDepth_of_lt _ hd]
      exact (hready.readInput hm hnext).map some
  | @var a name hname =>
    rw [eval]
    cases h with
    | tooDeep hd => exact hready.tooDeep _ hd hm
    | var hd =>
      obtain ⟨slot, hslot, heq⟩ := hready.slotOf
      rw [Eval.atDepth_of_lt _ hd, heq]
      exact Ends.next (.done rfl hm) fun m' hm' => (hm'.readSlot hslot _).map some
  | @binary a op t₁ t₂ _ _ ihl ihr =>
    have hl : Ready layout ann t₁ := hready.subtree (by simp [Tree.subtrees, Tree.children])
    have hr : Ready layout ann t₂ := hready.subtree (by simp [Tree.subtrees, Tree.children])
    rw [eval]
    cases h with
    | tooDeep hd => exact hready.tooDeep _ hd hm
    | binaryLeft hd hx =>
      rw [Eval.atDepth_of_lt _ hd]
      exact (ihl hl hm hx).needValue.stop
    | binaryRight hd hx hy =>
      rw [Eval.atDepth_of_lt _ hd]
      exact (ihl hl hm hx).needValue.next fun m₁ hm₁ => (ihr hr hm₁ hy).needValue.stop
    | binary hd hx hy =>
      rw [Eval.atDepth_of_lt _ hd]
      exact (ihl hl hm hx).needValue.next fun m₁ hm₁ => (ihr hr hm₁ hy).needValue.next
        fun m₂ hm₂ => (hready.applyBinary hm₂ op _ _).map some
  | @unary a op s hop _ ih =>
    have hs : Ready layout ann s := hready.subtree (by simp [Tree.subtrees, Tree.children])
    rw [Tree.unmarked, Tree.relabel] at h
    rw [eval]
    generalize hu : s.relabel _ = u at h
    cases h with
    | tooDeep hd => exact hready.tooDeep _ hd hm
    | unaryFails hd _ hx =>
      subst hu
      rw [Eval.atDepth_of_lt _ hd, if_neg (by simp [hop])]
      exact (ih hs hm hx).needValue.stop
    | unary hd _ hx =>
      subst hu
      rw [Eval.atDepth_of_lt _ hd, if_neg (by simp [hop])]
      exact (ih hs hm hx).needValue.map _
    | change hd hop' => exact absurd (hop.symm.trans hop') (by decide)
  | @change a b op name hop hname =>
    have hb : Ready layout ann (.var b name) :=
      hready.subtree (by simp [Tree.subtrees, Tree.children])
    rw [eval]
    cases h with
    | tooDeep hd => exact hready.tooDeep _ hd hm
    | unaryFails hd hop' hx => exact absurd (hop.symm.trans hop') (by decide)
    | unary hd hop' hx => exact absurd (hop.symm.trans hop') (by decide)
    | change hd _ =>
      obtain ⟨slot, hslot, heq⟩ := hb.slotOf
      rw [Eval.atDepth_of_lt _ hd, if_pos hop, Eval.targetSlot]
      simp only [Tree.name?, heq]
      refine Ends.next (.done rfl hm) fun m₁ hm₁ => ?_
      refine (hm₁.readSlot hslot _).next fun m₂ hm₂ => ?_
      exact (hm₂.writeSlot hinv hslot _ _).map fun _ => some _
  | @assign a b name v hname _ ih =>
    have hb : Ready layout ann (.var b name) :=
      hready.subtree (by simp [Tree.subtrees, Tree.children])
    have hv : Ready layout ann v := hready.subtree (by simp [Tree.subtrees, Tree.children])
    obtain ⟨slot, hslot, heq⟩ := hb.slotOf
    rw [eval, Eval.targetSlot]
    simp only [Tree.name?, heq]
    cases h with
    | tooDeep hd => exact hready.tooDeep _ hd hm
    | assignFails hd hx =>
      rw [Eval.atDepth_of_lt _ hd]
      exact Ends.next (.done rfl hm) fun m₁ hm₁ => (ih hv hm₁ hx).needValue.stop
    | assign hd hx =>
      rw [Eval.atDepth_of_lt _ hd]
      refine Ends.next (.done rfl hm) fun m₁ hm₁ => ?_
      refine (ih hv hm₁ hx).needValue.next fun m₂ hm₂ => ?_
      exact (hm₂.writeSlot hinv hslot _ _).map fun _ => some _
  | @print a s _ ih =>
    have hs : Ready layout ann s := hready.subtree (by simp [Tree.subtrees, Tree.children])
    rw [eval]
    cases h with
    | tooDeep hd => exact hready.tooDeep _ hd hm
    | printFails hd hx =>
      rw [Eval.atDepth_of_lt _ hd]
      exact (ih hs hm hx).needValue.stop
    | @print _ _ _ _ _ x written _ hd hx hw =>
      rw [Eval.atDepth_of_lt _ hd]
      refine (ih hs hm hx).needValue.next fun m₁ hm₁ => ?_
      cases written with
      | ok u => exact (hready.printLine hm₁ hw).map fun _ => some x
      | error f => exact (hready.printLine hm₁ hw).map fun _ => some x

end Expressions

end IntScript.Reference
