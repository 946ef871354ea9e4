import IntScript.Proofs.Program
import IntScript.Proofs.Tree.Captions
import IntScript.Proofs.Tree.Drawing
import Mathlib

/-!
# Trees back from their dumps

A tree can be read off its dump, whatever its nodes are called, as long as their names are words. A
dump is a row of lines, and each line tells whether it is the record of a node and with which
caption. The edges behind a record tell how many children the node has, and the records of the
children come next. So it does not matter where the edges lead: captions and counts, in pre-order,
are the tree.
-/

namespace IntScript

namespace Dot

/-- The caption, if a line is a record. -/
def Line.caption? (line : Line) : Option String := line.record?.map (·.2)

variable {name₁ name₂ : Nat → String}

/-- The text of a line tells whether it is a record, and with which caption. -/
theorem Line.caption?_eq_of_text (h₁ : NamesAreWords name₁) (h₂ : NamesAreWords name₂)
    {line line' : Line} (h : line.text name₁ = line'.text name₂) :
    line.caption? = line'.caption? := by
  have hlists := congrArg String.toList h
  cases line with
  | record id caption =>
    cases line' with
    | record id' caption' =>
      simp only [text, String.toList_append, List.append_assoc] at hlists
      have hrest := (append_stop_iff (h₁ id) (h₂ id') rfl).1 hlists
      have hcaption := String.toList_inj.1 (List.append_cancel_right hrest.2)
      exact congrArg some (escape_injective hcaption)
    | edge parent role child =>
      simp only [text, String.toList_append, List.append_assoc] at hlists
      have hrest := (append_cons_inj (h₁ id) (h₂ parent) (by decide) hlists).2
      cases hrest
  | edge parent role child =>
    cases line' with
    | record id' caption' =>
      simp only [text, String.toList_append, List.append_assoc] at hlists
      have hrest := (append_cons_inj (h₁ parent) (h₂ id') (by decide) hlists).2
      cases hrest
    | edge parent' role' child' => rfl

/-- A text that is put together from lines tells the lines. -/
theorem lines_eq_of_join {ls ms : List String} (hls : ∀ l ∈ ls, IsOneLine l)
    (hms : ∀ m ∈ ms, IsOneLine m) (h : String.join ls = String.join ms) : ls = ms := by
  induction ls generalizing ms with
  | nil =>
    cases ms with
    | nil => rfl
    | cons m ms =>
      obtain ⟨cs, hcs, -⟩ := hms m List.mem_cons_self
      have hlists := congrArg String.toList h
      rw [String.join_cons, String.toList_append, hcs] at hlists
      simp at hlists
  | cons l ls ih =>
    obtain ⟨cs, hcs, hl⟩ := hls l List.mem_cons_self
    have hlists := congrArg String.toList h
    rw [String.join_cons, String.toList_append, hcs] at hlists
    cases ms with
    | nil => simp at hlists
    | cons m ms =>
      obtain ⟨ds, hds, hm⟩ := hms m List.mem_cons_self
      rw [String.join_cons, String.toList_append, hds, List.append_assoc,
        List.append_assoc] at hlists
      have hall : ∀ cs : List Char, '\n' ∉ cs → cs.all (· != '\n') = true := by
        intro cs hmem
        exact List.all_eq_true.2 fun c hc => bne_iff_ne.2 (ne_of_mem_of_not_mem hc hmem)
      obtain ⟨rfl, hrest⟩ := append_cons_inj (hall cs hl) (hall ds hm) (by decide) hlists
      have hjoin := ih (fun l hl => hls l (List.mem_cons_of_mem _ hl))
        (fun m hm => hms m (List.mem_cons_of_mem _ hm)) (String.toList_inj.1 hrest)
      rw [String.toList_inj.1 (hcs.trans hds.symm), hjoin]

/-- The captions of a tree in pre-order, with a gap for each edge. -/
def outline (ann : Annotations) (t : Tree Mark) : List (Option String) :=
  (rendering ann t).map Line.caption?

variable {ann ann₁ ann₂ : Annotations}

/-- The outline of a tree has the caption of the root, a gap for each child, and then the outlines
of the children. -/
theorem outline_eq (t : Tree Mark) :
    outline ann t = some (t.caption ann) ::
      (List.replicate t.subtrees.length none ++ t.subtrees.flatMap (outline ann)) := by
  have hedges : (t.children.map fun p => Line.edge t.id p.1 p.2.id).map Line.caption? =
      List.replicate t.subtrees.length none := by
    rw [List.map_map, Tree.subtrees, List.length_map]
    exact List.map_const' ..
  rw [outline, rendering_eq, List.map_append, List.map_flatMap, Line.ofNode, List.map_cons, hedges]
  rfl

/-- Equal dumps have equal outlines. -/
theorem outline_eq_of_dumpAs (h₁ : NamesAreWords name₁) (h₂ : NamesAreWords name₂)
    {t u : Tree Mark} (h : dumpAs name₁ ann₁ t = dumpAs name₂ ann₂ u) :
    outline ann₁ t = outline ann₂ u := by
  have hone : ∀ {name : Nat → String}, NamesAreWords name → ∀ lines : List Line,
      ∀ l ∈ lines.map (Line.text name), IsOneLine l := by
    intro name hname lines l hl
    obtain ⟨line, -, rfl⟩ := List.mem_map.1 hl
    exact line.isOneLine_text hname
  rw [dumpAs_eq, dumpAs_eq, String.append_left_inj, String.append_right_inj] at h
  have hlines := lines_eq_of_join (hone h₁ _) (hone h₂ _) h
  have hpairs : List.Forall₂ (fun line line' => line.text name₁ = line'.text name₂)
      (rendering ann₁ t) (rendering ann₂ u) := by
    rw [← List.forall₂_map_right_iff, ← List.forall₂_map_left_iff, List.forall₂_eq_eq_eq]
    exact hlines
  have hcaptions := hpairs.imp fun _ _ hline => Line.caption?_eq_of_text h₁ h₂ hline
  rw [← List.forall₂_map_right_iff, ← List.forall₂_map_left_iff, List.forall₂_eq_eq_eq]
    at hcaptions
  exact hcaptions

/-- Gaps can be counted if no gap follows. -/
theorem replicate_none_append_inj {m n : Nat} {x y : List (Option String)}
    (hx : x.head? ≠ some none) (hy : y.head? ≠ some none)
    (h : List.replicate m none ++ x = List.replicate n none ++ y) : m = n ∧ x = y := by
  induction m generalizing n with
  | zero =>
    cases n with
    | zero => exact ⟨rfl, h⟩
    | succ n =>
      refine absurd ?_ hx
      rw [List.replicate_zero, List.nil_append] at h
      rw [h]
      rfl
  | succ m ih =>
    cases n with
    | zero =>
      refine absurd ?_ hy
      rw [List.replicate_zero, List.nil_append] at h
      rw [← h]
      rfl
    | succ n =>
      obtain ⟨hmn, hxy⟩ := ih (List.cons.inj h).2
      exact ⟨congrArg (· + 1) hmn, hxy⟩

/-- Outlines do not begin with gaps. -/
theorem head?_flatMap_outline (ts : List (Tree Mark)) {x : List (Option String)}
    (hx : x.head? ≠ some none) : (ts.flatMap (outline ann) ++ x).head? ≠ some none := by
  cases ts with
  | nil => exact hx
  | cons t ts =>
    rw [List.flatMap_cons, outline_eq]
    exact fun h => nomatch h

/-- Wherever it stands, the outline of a tree tells the tree, up to the first record behind it. -/
def OutlineTells (ann₁ ann₂ : Annotations) (t : Tree Mark) : Prop :=
  ∀ (u : Tree Mark) (x y : List (Option String)), x.head? ≠ some none → y.head? ≠ some none →
    outline ann₁ t ++ x = outline ann₂ u ++ y → t.withNotes ann₁ = u.withNotes ann₂ ∧ x = y

/-- The outlines of as many trees tell all of them. -/
theorem OutlineTells.all {ts us : List (Tree Mark)} (hts : ∀ t ∈ ts, OutlineTells ann₁ ann₂ t)
    (hlength : ts.length = us.length) {x y : List (Option String)} (hx : x.head? ≠ some none)
    (hy : y.head? ≠ some none)
    (h : ts.flatMap (outline ann₁) ++ x = us.flatMap (outline ann₂) ++ y) :
    ts.map (Tree.withNotes ann₁) = us.map (Tree.withNotes ann₂) ∧ x = y := by
  induction ts generalizing us with
  | nil =>
    cases us with
    | nil => exact ⟨rfl, h⟩
    | cons u us => cases hlength
  | cons t ts ih =>
    cases us with
    | nil => cases hlength
    | cons u us =>
      rw [List.flatMap_cons, List.flatMap_cons, List.append_assoc, List.append_assoc] at h
      obtain ⟨hroot, hrest⟩ := hts t List.mem_cons_self u _ _ (head?_flatMap_outline ts hx)
        (head?_flatMap_outline us hy) h
      obtain ⟨hmap, hxy⟩ := ih (fun t ht => hts t (List.mem_cons_of_mem _ ht))
        (Nat.succ.inj hlength) hrest
      exact ⟨by rw [List.map_cons, List.map_cons, hroot, hmap], hxy⟩

/-- The outline of a tree tells the tree. -/
theorem outlineTells (t : Tree Mark) : OutlineTells ann₁ ann₂ t := by
  induction t using Tree.induction_on_children with
  | step t ih =>
    intro u x y hx hy h
    rw [outline_eq, outline_eq, List.cons_append, List.cons_append, List.append_assoc,
      List.append_assoc] at h
    obtain ⟨hcaption, hbehind⟩ := List.cons.inj h
    -- the gaps end where the first child begins, so they count the children
    obtain ⟨hcount, hchildren⟩ := replicate_none_append_inj (head?_flatMap_outline _ hx)
      (head?_flatMap_outline _ hy) hbehind
    have hall : ∀ s ∈ t.subtrees, OutlineTells ann₁ ann₂ s := by
      intro s hs
      obtain ⟨p, hp, rfl⟩ := List.mem_map.1 hs
      exact ih p hp
    obtain ⟨hsub, hxy⟩ := OutlineTells.all hall hcount hx hy hchildren
    have hface : t.face ann₁ = u.face ann₂ := by
      rw [Option.some.injEq, Tree.caption_eq, Tree.caption_eq] at hcaption
      exact Face.text_injective hcaption
    exact ⟨Tree.withNotes_eq_of_face hface hsub, hxy⟩

/-- Whatever nodes are called, trees with equal dumps have the same structure, with the same slots
and numbers. -/
theorem withNotes_eq_of_dumpAs (h₁ : NamesAreWords name₁) (h₂ : NamesAreWords name₂)
    {t u : Tree Mark} (h : dumpAs name₁ ann₁ t = dumpAs name₂ ann₂ u) :
    t.withNotes ann₁ = u.withNotes ann₂ := by
  have houtline := congrArg (· ++ []) (outline_eq_of_dumpAs h₁ h₂ h)
  have hempty : ([] : List (Option String)).head? ≠ some none := fun h => nomatch h
  exact (outlineTells t u [] [] hempty hempty houtline).1

end Dot

/-- The dump of a program tells its tree: programs with equal dumps have trees of the same
structure, with the same slots and the same numbers of blocks, and this does not depend on the words
by which the nodes are called. Escaping tells different captions apart and leaves each record on a
line of its own; every quote inside a caption is escaped, and the one behind it is not. -/
theorem Program.dump_loses_nothing :
    (∀ p₁ p₂ : Program, p₁.dump = p₂.dump →
      p₁.root.withNotes p₁.annotations = p₂.root.withNotes p₂.annotations) ∧
    (∀ p₁ p₂ : Program, ∀ name₁ name₂ : Nat → String,
      Dot.NamesAreWords name₁ → Dot.NamesAreWords name₂ →
      Dot.dumpAs name₁ p₁.annotations p₁.root = Dot.dumpAs name₂ p₂.annotations p₂.root →
      p₁.root.withNotes p₁.annotations = p₂.root.withNotes p₂.annotations) ∧
    Function.Injective Dot.escape ∧
    (∀ s : String, '\n' ∉ (Dot.escape s).toList ∧ Dot.opensEscape (Dot.escape s).toList = false ∧
      ∀ before after : List Char, (Dot.escape s).toList = before ++ '"' :: after →
        Dot.opensEscape before = true) ∧
    ∀ name : Nat → String, Dot.NamesAreWords name → ∀ (id : Nat) (caption : String),
      Dot.IsOneLine (Dot.recordLine (name id) caption) := by
  refine ⟨?_, ?_, Dot.escape_injective, ?_, ?_⟩
  · intro p₁ p₂ h
    exact Dot.withNotes_eq_of_dumpAs (Dot.namesAreWords_nodeName _) (Dot.namesAreWords_nodeName _) h
  · intro p₁ p₂ name₁ name₂ h₁ h₂ h
    exact Dot.withNotes_eq_of_dumpAs h₁ h₂ h
  · intro s
    exact ⟨Dot.newline_not_mem_escape s, Dot.opensEscape_escape s,
      fun _ _ h => Dot.opensEscape_before_quote h⟩
  · intro name h id caption
    exact (Dot.Line.record id caption).isOneLine_text h

/-- Spaces in a program make no difference to its dump, and none to the structure of its tree. -/
theorem Program.dump_loses_nothing_spaced : ∃ p₁ p₂ : Program,
    compile "{x;}" = .ok p₁ ∧ compile "{ x ; }" = .ok p₂ ∧ p₁.root ≠ p₂.root ∧
      p₁.dump = p₂.dump ∧ p₁.root.withNotes p₁.annotations = p₂.root.withNotes p₂.annotations := by
  have h₁ : parse "{x;}" =
      .ok (.block ⟨0, 4⟩ [.block ⟨0, 4⟩ [.sequence ⟨1, 3⟩ (.var ⟨1, 2⟩ "x") none]]) := by cbv
  have h₂ : parse "{ x ; }" =
      .ok (.block ⟨0, 7⟩ [.block ⟨0, 7⟩ [.sequence ⟨2, 5⟩ (.var ⟨2, 3⟩ "x") none]]) := by cbv
  have hresolve : resolve .empty (Tree.number
      (.block ⟨0, 4⟩ [.block ⟨0, 4⟩ [.sequence ⟨1, 3⟩ (.var ⟨1, 2⟩ "x") none]])) =
      resolve .empty (Tree.number
        (.block ⟨0, 7⟩ [.block ⟨0, 7⟩ [.sequence ⟨2, 5⟩ (.var ⟨2, 3⟩ "x") none]])) := by cbv
  refine ⟨_, _, Program.compile_of_parse h₁, Program.compile_of_parse h₂, ?_,
    (fun hdump => ⟨hdump, dump_loses_nothing.1 _ _ hdump⟩) ?_⟩
  · intro h
    cases h
  · simp only [dump, Dot.dump, Dot.dumpAs_eq, Dot.rendering_eq_nodes, hresolve]
    rfl

end IntScript
