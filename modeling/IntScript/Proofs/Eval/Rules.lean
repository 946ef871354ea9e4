import IntScript.Proofs.Arithmetic
import IntScript.Proofs.Eval.Log

/-!
# What evaluations are bound to

The steps of an evaluation do not come in any order. A number is asked for by a node for it that was
just reached. A value is printed by a statement whose operand has just yielded it, and the statement
yields what it has just printed. An operator fails if its right operand has just yielded zero, and
nothing else in the program or its input makes an evaluation fail.

That the course of a tree is bound to these rules is proved by induction over the tree, for all
answers that a machine may give. So the log of every evaluation is bound to them.
-/

namespace IntScript

open IntScript.Eval (Context faultAt)

variable {ctx : Context} {root : Tree Mark} {last : Option Request}

/-- Whether a step may come directly behind the last one, in an evaluation of the given tree. -/
inductive Request.MayFollow (root : Tree Mark) (last : Option Request) : Request → Prop
  | come {n : Tree Mark} (hn : n ∈ root.nodes) : MayFollow root last (.come n)
  /-- If it is a node for printing that yields a value, then it has just printed it. -/
  | yield {n : Tree Mark} (hn : n ∈ root.nodes) {v : Value}
    (hlast : ∀ a e, n = .print a e → last = some (.print n v)) : MayFollow root last (.yield n v)
  /-- A number is asked for by a node for it that was just reached. -/
  | ask {a : Mark} (hn : .input a ∈ root.nodes) (hlast : last = some (.come (.input a))) :
    MayFollow root last (.ask (.input a))
  | load (n : Tree Mark) (slot : Nat) : MayFollow root last (.load n slot)
  | store (n : Tree Mark) (slot : Nat) (v : Value) : MayFollow root last (.store n slot v)
  /-- A value is printed by a node for it whose operand has just yielded it. -/
  | print {a : Mark} {e : Tree Mark} {v : Value} (hn : .print a e ∈ root.nodes)
    (hlast : last = some (.yield e v)) : MayFollow root last (.print (.print a e) v)
  | count {n : Tree Mark} (hn : n ∈ root.nodes) : MayFollow root last (.count n)

/-- Whether an evaluation of the given tree may fail directly behind the last step without asking
its machine for anything. -/
inductive Fault.MayFollow (ctx : Context) (root : Tree Mark) (last : Option Request) : Fault → Prop
  /-- The right operand of a division has just yielded zero. -/
  | division {a : Mark} {l r : Tree Mark} (hn : .binary a .div l r ∈ root.nodes)
    (hlast : last = some (.yield r 0)) :
    MayFollow ctx root last (faultAt ctx (.binary a .div l r) (.arithmetic .divisionByZero))
  /-- The right operand of a remainder has just yielded zero. -/
  | remainder {a : Mark} {l r : Tree Mark} (hn : .binary a .mod l r ∈ root.nodes)
    (hlast : last = some (.yield r 0)) :
    MayFollow ctx root last (faultAt ctx (.binary a .mod l r) (.arithmetic .remainderByZero))
  /-- Neither the program nor its input is to blame. -/
  | other {f : Fault} (h : f.cause.group ≠ .runtime) : MayFollow ctx root last f

namespace Course

variable {α β : Type} {post : α → Option Request → Prop} {post' : β → Option Request → Prop}

/-- Behind a last step a course is bound to the rules, whatever the machine answers, and where it is
done its result and its own last step are as asked for. -/
inductive Abides (ctx : Context) (root : Tree Mark) {α : Type}
    (post : α → Option Request → Prop) : Option Request → Course α → Prop
  | done {last : Option Request} {a : α} (h : post a last) : Abides ctx root post last (.done a)
  | failed {last : Option Request} {f : Fault} (h : f.MayFollow ctx root last) :
    Abides ctx root post last (.failed f)
  | unfinished {last : Option Request} : Abides ctx root post last .unfinished
  | step {last : Option Request} {r : Request} {next : r.Answer → Course α}
    (h : r.MayFollow root last) (hnext : ∀ answer, Abides ctx root post (some r) (next answer)) :
    Abides ctx root post last (.step r next)

/-- A course is bound to the rules and nothing is asked of its result. -/
abbrev Conforms (ctx : Context) (root : Tree Mark) (last : Option Request) (x : Course α) : Prop :=
  Abides ctx root (fun _ _ => True) last x

/-- What a node yields is the last that it does. -/
def Announces (t : Tree Mark) (o : Option Value) (last : Option Request) : Prop :=
  ∀ v, o = some v → last = some (.yield t v)

/-- If a node is for printing, then what it is about to yield is the last that it has printed. -/
def Prints (t : Tree Mark) (o : Option Value) (last : Option Request) : Prop :=
  ∀ v, o = some v → ∀ a e, t = .print a e → last = some (.print t v)

namespace Abides

/-- One course after another. -/
theorem bind {x : Course α} {f : α → Course β} (hx : Abides ctx root post last x)
    (hf : ∀ a last, post a last → Abides ctx root post' last (f a)) :
    Abides ctx root post' last (x >>= f) := by
  induction hx with
  | done h => exact hf _ _ h
  | failed h => exact .failed h
  | unfinished => exact .unfinished
  | step h _ ih => exact .step h ih

/-- Less is asked of the result. -/
theorem weaken {x : Course α} {post' : α → Option Request → Prop}
    (hx : Abides ctx root post last x) (h : ∀ a last, post a last → post' a last) :
    Abides ctx root post' last x := by
  induction hx with
  | done ha => exact .done (h _ _ ha)
  | failed h => exact .failed h
  | unfinished => exact .unfinished
  | step h _ ih => exact .step h ih

/-- Nothing is asked of the result any more. -/
theorem conforms {x : Course α} (hx : Abides ctx root post last x) : Conforms ctx root last x :=
  hx.weaken fun _ _ _ => trivial

section Steps

variable {d : Nat} {x : ReaderT Nat Course α} {t : Tree Mark}

/-- One course after another at the same depth. -/
theorem andThen {f : α → ReaderT Nat Course β} (hx : Abides ctx root post last (x d))
    (hf : ∀ a last, post a last → Abides ctx root post' last (f a d)) :
    Abides ctx root post' last ((x >>= f) d) :=
  hx.bind hf

/-- A result passed through a function. -/
theorem map (hx : Abides ctx root post last (x d)) (f : α → β) :
    Conforms ctx root last ((x >>= fun a => pure (f a)) d) :=
  hx.andThen fun _ _ _ => .done trivial

/-- A single step. -/
theorem perform {r : Request} (h : r.MayFollow root last) :
    Conforms ctx root last (Course.perform r) :=
  .step h fun _ => .done trivial

/-- A node is blamed for something that is not the fault of the program or its input. -/
theorem blame {cause : Fault.Cause} (h : cause.group ≠ .runtime) :
    Abides ctx root post last (Course.blame ctx t cause) :=
  .failed (.other h)

/-- What is done with the slot of a variable. -/
theorem withSlot {name : String} {next : Nat → ReaderT Nat Course α}
    (h : ∀ slot, Abides ctx root post last (next slot d)) :
    Abides ctx root post last ((steps ctx).withSlot ctx t name next d) := by
  unfold Steps.withSlot
  cases ctx.annotations.slot? t with
  | some slot => exact h slot
  | none => exact .blame nofun

/-- What is done with the slot that an operator writes to. -/
theorem withTarget {node : Tree Mark} {symbol : String} {next : Nat → ReaderT Nat Course α}
    (h : ∀ slot, Abides ctx root post last (next slot d)) :
    Abides ctx root post last ((steps ctx).withTarget ctx node symbol t next d) := by
  unfold Steps.withTarget
  cases t.name? with
  | some name => exact .withSlot h
  | none => exact .blame nofun

/-- An operator fails if its right operand has just yielded zero. -/
theorem applyBinary {a : Mark} {op : BinaryOp} {l r : Tree Mark} {x y : Value}
    (hn : .binary a op l r ∈ root.nodes) (hlast : last = some (.yield r y)) :
    Conforms ctx root last ((steps ctx).applyBinary (.binary a op l r) op x y d) := by
  unfold Steps.applyBinary
  cases happly : op.apply x y with
  | ok v => exact .done trivial
  | error e =>
    obtain ⟨rfl, ⟨rfl, rfl⟩ | ⟨rfl, rfl⟩⟩ := BinaryOp.apply_eq_error_iff.1 happly
    · exact .failed (.division hn hlast)
    · exact .failed (.remainder hn hlast)

/-- A node is come to, and what it yields is told. -/
theorem atNode {body : ReaderT Nat Course (Option Value)} (ht : t ∈ root.nodes)
    (hbody : Abides ctx root (Prints t) (some (.come t)) (body (d + 1))) :
    Abides ctx root (Announces t) last ((steps ctx).atNode t body d) := by
  refine .step (.come ht) fun _ => ?_
  split
  · exact .blame nofun
  · refine hbody.bind fun o last hlast => ?_
    cases o with
    | none => exact .done nofun
    | some v =>
      refine .step (.yield ht (hlast v rfl)) fun _ => .done fun w hw => ?_
      cases hw
      rfl

/-- A node that is not for printing is come to. -/
theorem atOther {body : ReaderT Nat Course (Option Value)} (ht : t ∈ root.nodes)
    (hother : (t.kind == .print) = false)
    (hbody : Conforms ctx root (some (.come t)) (body (d + 1))) :
    Abides ctx root (Announces t) last ((steps ctx).atNode t body d) := by
  refine .atNode ht (hbody.weaken fun o last _ v _ a e hprint => ?_)
  rw [hprint] at hother
  cases hother

/-- A value that is needed was yielded last. -/
theorem needValue {x : ReaderT Nat Course (Option Value)}
    (hx : Abides ctx root (Announces t) last (x d)) :
    Abides ctx root (fun v last => last = some (.yield t v)) last
      ((steps ctx).needValue t x d) := by
  refine hx.andThen fun o last hlast => ?_
  cases o with
  | some v => exact .done (hlast v rfl)
  | none => exact .blame nofun

/-- The rounds of a loop. -/
theorem loop {test : ReaderT Nat Course Bool} {body : ReaderT Nat Course Unit}
    (ht : ∀ last, Conforms ctx root last (test d)) (hb : ∀ last, Conforms ctx root last (body d))
    (n : Nat) : Conforms ctx root last ((steps ctx).loop test body n d) := by
  induction n generalizing last with
  | zero => exact .unfinished
  | succ n ih =>
    refine (ht last).andThen fun b last _ => ?_
    cases b with
    | true => exact (hb last).andThen fun _ _ _ => ih
    | false => exact .done trivial

/-- Statements in order. -/
theorem insideAll {ts : List (Tree Mark)}
    (hts : ∀ t ∈ ts, ∀ last, Abides ctx root (Announces t) last (ofTree ctx d t)) :
    Conforms ctx root last ((steps ctx).insideAll ctx ts d) := by
  induction ts generalizing last with
  | nil =>
    rw [Steps.insideAll]
    exact .done trivial
  | cons t ts ih =>
    rw [Steps.insideAll]
    refine .andThen (hts t List.mem_cons_self last) fun _ _ _ => ?_
    exact ih fun t ht => hts t (List.mem_cons_of_mem _ ht)

end Steps

end Abides

/-- The course of a node is bound to the rules. -/
theorem abides_ofTree {t : Tree Mark} (ht : t ∈ root.nodes) (d : Nat) (last : Option Request) :
    Abides ctx root (Announces t) last (ofTree ctx d t) := by
  induction t using Tree.induction generalizing d last with
  | literal a v =>
    rw [ofTree, Steps.visit, Steps.inside]
    exact .atOther ht rfl (.done trivial)
  | input a =>
    rw [ofTree, Steps.visit, Steps.inside]
    exact .atOther ht rfl (.map (.perform (.ask ht rfl)) _)
  | var a name =>
    rw [ofTree, Steps.visit, Steps.inside]
    exact .atOther ht rfl (.withSlot fun slot => .map (.perform (.load _ slot)) _)
  | binary a op l r ihl ihr =>
    have hl : l ∈ root.nodes := Tree.mem_nodes_trans ht (.head _)
    have hr : r ∈ root.nodes := Tree.mem_nodes_trans ht (.tail _ (.head _))
    rw [ofTree, Steps.visit, Steps.inside]
    refine .atOther ht rfl (.andThen (.needValue (ihl hl _ _)) fun x _ _ => ?_)
    refine .andThen (.needValue (ihr hr _ _)) fun y last hlast => ?_
    exact .map (.applyBinary ht hlast) _
  | unary a op t ih =>
    have hop : t ∈ root.nodes := Tree.mem_nodes_trans ht (.head _)
    rw [ofTree, Steps.visit, Steps.inside]
    refine .atOther ht rfl ?_
    split
    · refine .withTarget fun slot => ?_
      refine .andThen (.perform (.load t slot)) fun x _ _ => ?_
      exact .map (.perform (.store t slot _)) _
    · exact .map (.needValue (ih hop _ _)) _
  | assign a t v iht ihv =>
    have hv : v ∈ root.nodes := Tree.mem_nodes_trans ht (.tail _ (.head _))
    rw [ofTree, Steps.visit, Steps.inside]
    refine .atOther ht rfl (.withTarget fun slot => ?_)
    refine .andThen (.needValue (ihv hv _ _)) fun x _ _ => ?_
    exact .map (.perform (.store t slot x)) _
  | sequence a c rest ihc ihr =>
    cases rest with
    | none =>
      have hc : c ∈ root.nodes := Tree.mem_nodes_trans ht (.head _)
      rw [ofTree, Steps.visit, Steps.inside]
      exact .atOther ht rfl (ihc hc _ _).conforms
    | some r =>
      have hc : c ∈ root.nodes := Tree.mem_nodes_trans ht (.head _)
      have hr : r ∈ root.nodes := Tree.mem_nodes_trans ht (.tail _ (.head _))
      rw [ofTree, Steps.visit, Steps.inside]
      exact .atOther ht rfl (.andThen (ihc hc _ _) fun _ _ _ => (ihr r rfl hr _ _).conforms)
  | block a ts ih =>
    rw [ofTree, Steps.visit, Steps.inside]
    refine .atOther ht rfl (.map (.insideAll fun s hs last => ?_) _)
    exact ih s hs (Tree.mem_nodes_trans ht (by rwa [Tree.subtrees_block])) _ _
  | condition a t ih =>
    have hop : t ∈ root.nodes := Tree.mem_nodes_trans ht (.head _)
    rw [ofTree, Steps.visit, Steps.inside]
    exact .atOther ht rfl (.map (.needValue (ih hop _ _)) _)
  | ifElse a c t e ihc iht ihe =>
    cases e with
    | none =>
      have hc : c ∈ root.nodes := Tree.mem_nodes_trans ht (.head _)
      have hy : t ∈ root.nodes := Tree.mem_nodes_trans ht (.tail _ (.head _))
      rw [ofTree, Steps.visit, Steps.inside]
      refine .atOther ht rfl (.andThen (.needValue (ihc hc _ _)) fun x _ _ => ?_)
      dsimp only
      split
      · exact .map (iht hy _ _) _
      · exact .done trivial
    | some e =>
      have hc : c ∈ root.nodes := Tree.mem_nodes_trans ht (.head _)
      have hy : t ∈ root.nodes := Tree.mem_nodes_trans ht (.tail _ (.head _))
      have he : e ∈ root.nodes := Tree.mem_nodes_trans ht (.tail _ (.tail _ (.head _)))
      rw [ofTree, Steps.visit, Steps.inside]
      refine .atOther ht rfl (.andThen (.needValue (ihc hc _ _)) fun x _ _ => ?_)
      dsimp only
      split
      · exact .map (iht hy _ _) _
      · exact .map (ihe e rfl he _ _) _
  | whileLoop a c b ihc ihb =>
    -- a round may begin behind any step, so the parts of the loop are taken for every last step
    have hc : c ∈ root.nodes := Tree.mem_nodes_trans ht (.head _)
    have hb : b ∈ root.nodes := Tree.mem_nodes_trans ht (.tail _ (.head _))
    rw [ofTree, Steps.visit, Steps.inside]
    refine .atOther ht rfl (.map (.loop (fun last => ?_) (fun last => ?_) _) _)
    · exact .map (.needValue (ihc hc _ last)) _
    · exact .andThen (.perform (.count ht)) fun _ last _ => .map (ihb hb _ last) _
  | print a t ih =>
    have hop : t ∈ root.nodes := Tree.mem_nodes_trans ht (.head _)
    rw [ofTree, Steps.visit, Steps.inside]
    refine .atNode ht (.andThen (.needValue (ih hop _ _)) fun x last hlast => ?_)
    refine .step (.print ht hlast) fun _ => .done fun v hv _ _ _ => ?_
    cases hv
    rfl

/-- Every step in the log of a course that is bound to the rules may follow the one before it. -/
theorem Abides.log {x : Course α} (h : Abides ctx root post last x) {m n : Machine}
    {before after : Log} {r : Request} (hlog : x.log ctx m = before ++ (r, n) :: after) :
    r.MayFollow root (Log.last? last before) := by
  induction h generalizing m before with
  | done _ => simp [Course.log] at hlog
  | failed _ => simp [Course.log] at hlog
  | unfinished => simp [Course.log] at hlog
  | @step last q next hq _ ih =>
    cases before with
    | nil =>
      rw [Course.log, List.nil_append] at hlog
      obtain ⟨hentry, -⟩ := List.cons.inj hlog
      cases hentry
      exact hq
    | cons entry before =>
      rcases hrun : q.exec ctx m with ⟨answer | f | _, m'⟩
      · rw [log_done hrun] at hlog
        obtain ⟨rfl, hlater⟩ := List.cons.inj hlog
        exact ih answer hlater
      · rw [log_failed hrun] at hlog
        simp at hlog
      · rw [log_unfinished hrun] at hlog
        simp at hlog

/-- A course that is bound to the rules fails as the rules allow behind the last step of its log, or
by the last step itself. -/
theorem Abides.failed_cases {x : Course α} (h : Abides ctx root post last x) {m m' : Machine}
    {f : Fault} (hrun : x.exec ctx m = (.failed f, m')) :
    f.MayFollow ctx root (Log.last? last (x.log ctx m)) ∨
      ∃ before r n, x.log ctx m = before ++ [(r, n)] ∧ r.exec ctx n = (.failed f, m') := by
  induction h generalizing m with
  | done _ => cases hrun
  | failed h =>
    cases hrun
    exact .inl h
  | unfinished => cases hrun
  | @step last q next hq _ ih =>
    rcases hstep : q.exec ctx m with ⟨answer | e | _, n⟩
    · rw [exec, Exec.bind_done hstep] at hrun
      rw [log_done hstep]
      rcases ih answer hrun with hmay | ⟨before, r, k, hlog, hfail⟩
      · exact .inl hmay
      · exact .inr ⟨(q, m) :: before, r, k, by rw [hlog]; rfl, hfail⟩
    · rw [exec, Exec.bind_failed hstep] at hrun
      cases hrun
      exact .inr ⟨[], q, m, log_failed hstep, hstep⟩
    · rw [exec, Exec.bind_unfinished hstep] at hrun
      cases hrun

end Course
end IntScript
