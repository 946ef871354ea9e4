import IntScript.Proofs.Eval.Keeping
import IntScript.Proofs.Parse.Spans
import IntScript.Proofs.Program

/-!
# Where diagnostics point

Every error that comes out of compiling or running a source and that shows a place shows a part of
the source. Errors of compiling point where parsing points. Errors of running are blamed on nodes of
the tree, which carry the spans that parsing has given them.
-/

namespace IntScript

namespace Eval

/-- Only nodes of the tree are blamed for anything. -/
theorem discipline_blame (limits : Limits) (ann : Annotations) (patience : Nat)
    (root : Tree Mark) :
    Discipline ⟨limits, ann, true, patience⟩ root (fun _ => True)
      (fun f => ∃ n ∈ root.nodes, f.span = n.span?) where
  stack _ _ := trivial
  blame t ht _ _ := ⟨t, ht, rfl⟩
  slot t ht _ _ _ := ⟨t, ht, rfl⟩
  read t ht _ _ _ _ _ _ _ := ⟨t, ht, rfl⟩
  write _ hn t ht _ _ _ _ _ _ :=
    ⟨fun _ _ => trivial, fun _ _ => ⟨t, Tree.mem_nodes_of_target hn ht, rfl⟩⟩

/-- A run that fails is blamed on a node of its tree. -/
theorem run_blames {limits : Limits} {ann : Annotations} {patience : Nat} {root : Tree Mark}
    {m m' : Machine} {f : Fault} (h : run ⟨limits, ann, true, patience⟩ root m = (.failed f, m')) :
    ∃ n ∈ root.nodes, f.span = n.span? := by
  have hkeeps := (discipline_blame limits ann patience root).keeps_run root.mem_nodes_self m trivial
  rw [h] at hkeeps
  exact hkeeps.1

end Eval

/-- Without their numbers the nodes of a numbered tree are those of the tree itself. -/
theorem Tree.unmarked_mem_nodes {t : Tree Span} {n : Tree Mark} (hn : n ∈ t.number.nodes) :
    n.unmarked ∈ t.nodes := by
  have hnodes : t.number.nodes.map Tree.unmarked = t.nodes :=
    (Tree.nodes_relabel _ t.number).symm.trans (congrArg Tree.nodes (t.unmarked_numberFrom 0))
  exact hnodes ▸ List.mem_map_of_mem hn

/-- The spans of a numbered tree are those of the tree itself. -/
theorem Tree.Labels.span_number {Q : Span → Prop} {t : Tree Span} (h : t.Labels Q) {n : Tree Mark}
    (hn : n ∈ t.number.nodes) {s : Span} (hs : n.span? = some s) : Q s := by
  have hlabel : n.unmarked.label = s := by
    rw [Tree.unmarked, Tree.label_relabel, show n.label.span = some s from hs, Option.getD_some]
  exact hlabel ▸ h _ (Tree.unmarked_mem_nodes hn)

/-- The errors of compiling a source and of running the compiled program. -/
inductive Error.Of (source : String) : Error → Prop
  | compiling {e : Error} (h : Program.compile source = .error e) : Of source e
  | running {e : Error} {p : Program} (hp : Program.compile source = .ok p) {limits : Limits}
      {patience : Nat} {input : Input} {output : Output} {m : Machine}
      (h : p.run limits patience input output = (.failed e, m)) : Of source e

/-- A fault has at most one diagnostic, and then it is an error of running. -/
theorem Error.ofFault_diagnostics {f : Fault} {source : String} {d : Diagnostic}
    (hd : d ∈ (Error.ofFault f source).diagnostics) :
    d = f.diagnostic ∧ Error.ofFault f source = .runtime d source f.recoverable := by
  unfold ofFault at hd ⊢
  split at hd
  · cases hd
  · cases List.mem_singleton.1 hd
    exact ⟨rfl, rfl⟩
  · cases hd
  · cases hd

/-- An error that has a diagnostic keeps the source and has no other diagnostic, and the diagnostic
points into the source. -/
theorem Error.Of.diagnostic {source : String} {e : Error} (he : e.Of source) {d : Diagnostic}
    (hd : d ∈ e.diagnostics) :
    e.source? = some source ∧ e.diagnostics = [d] ∧
      ∀ s, d.span = some s → s.In source.toList := by
  have hpoints := parse_points source
  cases he with
  | compiling h =>
    rw [Program.compile_eq] at h
    split at h
    · cases h
    · next e' hparse =>
      cases h
      rw [hparse] at hpoints
      cases List.mem_singleton.1 hd
      refine ⟨rfl, rfl, fun s hs => ?_⟩
      cases hs
      exact hpoints
  | running hp h =>
    rw [Program.compile_eq] at hp
    split at hp
    · next t hparse =>
      cases hp
      rw [hparse] at hpoints
      unfold Program.run at h
      split at h
      · cases h
      · next f m hrun =>
        cases h
        obtain ⟨rfl, hruntime⟩ := Error.ofFault_diagnostics hd
        rw [hruntime]
        refine ⟨rfl, rfl, fun s hs => ?_⟩
        obtain ⟨n, hn, hspan⟩ := Eval.run_blames hrun
        exact hpoints.span_number hn (hspan.symm.trans hs)
      · cases h
    · cases hp

end IntScript
