import IntScript.Proofs.Text.Codes
import IntScript.Proofs.Tree.Structure
import IntScript.Tree.Listing
import Mathlib.Data.List.Nodup

/-!
# Reading structural texts

The structural text of a tree can be read in one way only. It begins with the name of its kind, and
no name of a kind is the beginning of another one. What follows the name is a row of parts in which
every part ends where a mark stands that it cannot have itself, or where it is complete. So the
text, wherever it stands in front of other text, tells the structure of the tree with the slots of
its variables.

Names of variables must be words, since a name could otherwise hold any part of the text.
-/

namespace IntScript

/-- The names of operators in structural texts are different. -/
theorem BinaryOp.name_injective : Function.Injective BinaryOp.name := by
  have hdistinct : (all.map name).Nodup := by decide
  intro a b h
  exact List.inj_on_of_nodup_map hdistinct (by cases a <;> decide) (by cases b <;> decide) h

/-- The names of operators are letters. -/
theorem BinaryOp.name_all (op : BinaryOp) : op.name.toList.all Char.isAlpha = true := by
  cases op <;> decide

/-- The names of operators in structural texts are different. -/
theorem UnaryOp.name_injective : Function.Injective UnaryOp.name := by
  have hdistinct : (all.map name).Nodup := by decide
  intro a b h
  exact List.inj_on_of_nodup_map hdistinct (by cases a <;> decide) (by cases b <;> decide) h

/-- The names of operators are letters. -/
theorem UnaryOp.name_all (op : UnaryOp) : op.name.toList.all Char.isAlpha = true := by
  cases op <;> decide

/-- All kinds of node. -/
def Kind.all : List Kind :=
  [.literal, .input, .var, .binary, .unary, .assign, .sequence, .block, .condition, .ifElse,
    .whileLoop, .print]

/-- The word with which the structural text of a node begins. -/
def Kind.word : Kind → String
  | .literal => "Literal"
  | .input => "Input"
  | .var => "Variable"
  | .binary => "Binary"
  | .unary => "Unary"
  | .assign => "Assign"
  | .sequence => "Sequence"
  | .block => "Block"
  | .condition => "Condition"
  | .ifElse => "If"
  | .whileLoop => "While"
  | .print => "Print"

/-- No word of a kind is the beginning of another one. -/
theorem Kind.eq_of_word_prefix {k k' : Kind} (h : k.word.toList <+: k'.word.toList) : k = k' := by
  have hall : ∀ k ∈ all, ∀ k' ∈ all, k.word.toList <+: k'.word.toList → k = k' := by
    decide +kernel
  exact hall k (by cases k <;> decide) k' (by cases k' <;> decide) h

namespace Tree

variable {α : Type}

/-- All variables have words as names. -/
def HasWordNames (t : Tree α) : Prop :=
  ∀ n ∈ t.nodes, ∀ name, n.name? = some name → name.toList.all Grammar.isWordChar = true

/-- A structural text begins with the word of the kind. -/
theorem word_prefix_structureText (ann : Annotations) (t : Tree Mark) :
    t.kind.word.toList <+: (t.structureText ann).toList := by
  cases t with
  | sequence a c rest => cases rest <;> simp [structureText, braced, kind, Kind.word]
  | ifElse a c t e => cases e <;> simp [structureText, braced, kind, Kind.word]
  | _ => simp [structureText, braced, kind, Kind.word]

/-- Trees of different kinds have texts that go apart before they end. -/
theorem kind_eq_of_structureText_append {ann₁ ann₂ : Annotations} {t u : Tree Mark}
    {x y : List Char}
    (h : (t.structureText ann₁).toList ++ x = (u.structureText ann₂).toList ++ y) :
    t.kind = u.kind := by
  obtain ⟨r, hr⟩ := word_prefix_structureText ann₁ t
  obtain ⟨s, hs⟩ := word_prefix_structureText ann₂ u
  rw [← hr, ← hs, List.append_assoc, List.append_assoc] at h
  rcases List.append_eq_append_iff.1 h with ⟨z, hz, -⟩ | ⟨z, hz, -⟩
  · exact Kind.eq_of_word_prefix ⟨z, hz.symm⟩
  · exact (Kind.eq_of_word_prefix ⟨z, hz.symm⟩).symm

/-- No structural text begins like the end of a block. -/
theorem structureText_append_ne (ann : Annotations) (t : Tree Mark) (x y : List Char) :
    (t.structureText ann).toList ++ x ≠ "])".toList ++ y := by
  obtain ⟨r, hr⟩ := word_prefix_structureText ann t
  rw [← hr]
  cases t.kind <;> simp [Kind.word]

variable {ann₁ ann₂ : Annotations} {t : Tree Mark}

/-- Wherever it stands, the text of a tree tells its structure: the texts of two trees with other
text behind them are equal exactly if the trees have the same structure and the same stands behind
them. -/
def TellsStructure (ann₁ ann₂ : Annotations) (t : Tree Mark) : Prop :=
  ∀ u : Tree Mark, u.HasWordNames → ∀ x y : List Char,
    (t.structureText ann₁).toList ++ x = (u.structureText ann₂).toList ++ y ↔
      t.withSlots ann₁ = u.withSlots ann₂ ∧ x = y

/-- Only trees of one kind have to be compared. -/
theorem tellsStructure_of_kind
    (h : ∀ u : Tree Mark, u.HasWordNames → t.kind = u.kind → ∀ x y : List Char,
      (t.structureText ann₁).toList ++ x = (u.structureText ann₂).toList ++ y ↔
        t.withSlots ann₁ = u.withSlots ann₂ ∧ x = y) : TellsStructure ann₁ ann₂ t := by
  intro u hu x y
  by_cases hkind : t.kind = u.kind
  · exact h u hu hkind x y
  · refine iff_of_false (fun htext => hkind (kind_eq_of_structureText_append htext)) ?_
    rintro ⟨hsame, -⟩
    refine hkind ?_
    rw [← kind_annotate _ t, ← kind_annotate _ u]
    exact congrArg kind hsame

/-- The texts of statements behind a first one. -/
def furtherTexts (ann : Annotations) (ts : List (Tree Mark)) : List Char :=
  ts.flatMap fun t => ", ".toList ++ (t.structureText ann).toList

/-- The statements of a block are written one after the other, with commas between them. -/
theorem intercalate_structureTexts (ann : Annotations) (t : Tree Mark) (ts : List (Tree Mark)) :
    (", ".intercalate (structureTexts ann (t :: ts))).toList =
      (t.structureText ann).toList ++ furtherTexts ann ts := by
  induction ts generalizing t with
  | nil => simp [structureTexts, furtherTexts]
  | cons s ts ih =>
    have hs := ih s
    rw [structureTexts] at hs
    rw [structureTexts, structureTexts, String.intercalate_cons_cons, String.toList_append,
      String.toList_append, hs, furtherTexts, furtherTexts, List.flatMap_cons]
    simp only [List.append_assoc]

/-- The statements behind a first one tell their structures, up to the end of the block. -/
theorem furtherTexts_iff {ts us : List (Tree Mark)} (hts : ∀ t ∈ ts, TellsStructure ann₁ ann₂ t)
    (hus : ∀ u ∈ us, u.HasWordNames) (x y : List Char) :
    furtherTexts ann₁ ts ++ ("])".toList ++ x) = furtherTexts ann₂ us ++ ("])".toList ++ y) ↔
      ts.map (withSlots ann₁) = us.map (withSlots ann₂) ∧ x = y := by
  induction ts generalizing us with
  | nil =>
    cases us with
    | nil => simp [furtherTexts]
    | cons u us => simp [furtherTexts]
  | cons t ts ih =>
    cases us with
    | nil => simp [furtherTexts]
    | cons u us =>
      have ht := hts t List.mem_cons_self u (hus u List.mem_cons_self)
      have hrest := ih (fun s hs => hts s (List.mem_cons_of_mem _ hs))
        fun s (hs : s ∈ us) => hus s (List.mem_cons_of_mem _ hs)
      rw [furtherTexts, furtherTexts] at hrest
      rw [furtherTexts, furtherTexts, List.flatMap_cons, List.flatMap_cons]
      simp only [List.append_assoc, List.append_cancel_left_eq, ht, hrest, List.map_cons,
        List.cons.injEq, and_assoc]

/-- The statements of a block tell their structures. -/
theorem structureTexts_iff {ts us : List (Tree Mark)}
    (hts : ∀ t ∈ ts, TellsStructure ann₁ ann₂ t) (hus : ∀ u ∈ us, u.HasWordNames)
    (x y : List Char) :
    (", ".intercalate (structureTexts ann₁ ts)).toList ++ ("])".toList ++ x) =
        (", ".intercalate (structureTexts ann₂ us)).toList ++ ("])".toList ++ y) ↔
      ts.map (withSlots ann₁) = us.map (withSlots ann₂) ∧ x = y := by
  cases ts with
  | nil =>
    cases us with
    | nil => simp [structureTexts]
    | cons u us =>
      rw [intercalate_structureTexts, List.append_assoc]
      refine iff_of_false (fun h => ?_) fun h => List.cons_ne_nil _ _ h.1.symm
      exact structureText_append_ne ann₂ u _ _ (by simpa [structureTexts] using h.symm)
  | cons t ts =>
    cases us with
    | nil =>
      rw [intercalate_structureTexts, List.append_assoc]
      refine iff_of_false (fun h => ?_) fun h => List.cons_ne_nil _ _ h.1
      exact structureText_append_ne ann₁ t _ _ (by simpa [structureTexts] using h)
    | cons u us =>
      have ht := hts t List.mem_cons_self u (hus u List.mem_cons_self)
      have hrest := furtherTexts_iff (fun s hs => hts s (List.mem_cons_of_mem _ hs))
        fun s hs => hus s (List.mem_cons_of_mem _ hs)
      simp only [intercalate_structureTexts, List.append_assoc, ht, hrest, List.map_cons,
        List.cons.injEq, and_assoc]

/-- The text of a part that may be missing. -/
def partText (ann : Annotations) : Option (Tree Mark) → List Char
  | none => "None".toList
  | some t => "Some(".toList ++ ((t.structureText ann).toList ++ ")".toList)

/-- The text of a part that may be missing tells whether it is, and else its structure. -/
theorem partText_iff {o o' : Option (Tree Mark)} (ho : ∀ t ∈ o, TellsStructure ann₁ ann₂ t)
    (ho' : ∀ u ∈ o', u.HasWordNames) (x y : List Char) :
    partText ann₁ o ++ x = partText ann₂ o' ++ y ↔
      o.map (withSlots ann₁) = o'.map (withSlots ann₂) ∧ x = y := by
  cases o with
  | none =>
    cases o' with
    | none => simp [partText]
    | some u => simp [partText]
  | some t =>
    cases o' with
    | none => simp [partText]
    | some u =>
      have ht := ho t rfl u (ho' u rfl)
      simp only [partText, List.append_assoc, List.append_cancel_left_eq, ht, Option.map_some,
        Option.some.injEq]

/-- The text of a sequence is that of its expression, with what follows it or not. -/
theorem structureText_sequence (ann : Annotations) (a : Mark) (c : Tree Mark)
    (rest : Option (Tree Mark)) : (structureText ann (.sequence a c rest)).toList =
      "Sequence \x7b current: ".toList ++ ((c.structureText ann).toList ++
        (", rest: ".toList ++ (partText ann rest ++ " \x7d".toList))) := by
  cases rest <;> simp [structureText, braced, partText]

/-- The text of a branch is that of its condition and its alternatives. -/
theorem structureText_ifElse (ann : Annotations) (a : Mark) (c t : Tree Mark)
    (e : Option (Tree Mark)) : (structureText ann (.ifElse a c t e)).toList =
      "If \x7b condition: ".toList ++ ((c.structureText ann).toList ++
        (", then_branch: ".toList ++ ((t.structureText ann).toList ++
          (", else_branch: ".toList ++ (partText ann e ++ " \x7d".toList))))) := by
  cases e <;> simp [structureText, braced, partText]

/-- The names below a node are names of the whole tree. -/
theorem HasWordNames.subtree {t s : Tree α} (h : t.HasWordNames) (hs : s ∈ t.subtrees) :
    s.HasWordNames :=
  fun n hn => h n (mem_nodes_of_subtree hs hn)

/-- The expression of a sequence is a child of it. -/
theorem current_mem_subtrees (a : α) (c : Tree α) (rest : Option (Tree α)) :
    c ∈ (Tree.sequence a c rest).subtrees := by
  cases rest <;> exact .head _

/-- What follows an expression is a child of the sequence. -/
theorem rest_mem_subtrees {a : α} {c r : Tree α} {rest : Option (Tree α)} (h : r ∈ rest) :
    r ∈ (Tree.sequence a c rest).subtrees := by
  cases h
  exact .tail _ (.head _)

/-- The condition of a branch is a child of it. -/
theorem condition_mem_subtrees (a : α) (c t : Tree α) (e : Option (Tree α)) :
    c ∈ (Tree.ifElse a c t e).subtrees := by
  cases e <;> exact .head _

/-- The first alternative of a branch is a child of it. -/
theorem whenTrue_mem_subtrees (a : α) (c t : Tree α) (e : Option (Tree α)) :
    t ∈ (Tree.ifElse a c t e).subtrees := by
  cases e <;> exact .tail _ (.head _)

/-- The second alternative of a branch is a child of it. -/
theorem whenFalse_mem_subtrees {a : α} {c t r : Tree α} {e : Option (Tree α)} (h : r ∈ e) :
    r ∈ (Tree.ifElse a c t e).subtrees := by
  cases h
  exact .tail _ (.tail _ (.head _))

/-- The structure of a sequence is given by those of its parts. -/
theorem withSlots_sequence (ann : Annotations) (a : Mark) (c : Tree Mark)
    (rest : Option (Tree Mark)) : (Tree.sequence a c rest).withSlots ann =
      .sequence none (c.withSlots ann) (rest.map (withSlots ann)) := by
  cases rest <;> rfl

/-- The structure of a branch is given by those of its parts. -/
theorem withSlots_ifElse (ann : Annotations) (a : Mark) (c t : Tree Mark)
    (e : Option (Tree Mark)) : (Tree.ifElse a c t e).withSlots ann =
      .ifElse none (c.withSlots ann) (t.withSlots ann) (e.map (withSlots ann)) := by
  cases e <;> rfl

/-- The structure of a block is given by those of its statements. -/
theorem withSlots_block (ann : Annotations) (a : Mark) (ts : List (Tree Mark)) :
    (Tree.block a ts).withSlots ann = .block none (ts.map (withSlots ann)) := by
  rw [withSlots, annotate, annotateAll_eq_map]
  rfl

/-- The text of a variable is its name and its slot. -/
theorem structureText_var (ann : Annotations) (a : Mark) (name : String) :
    (structureText ann (.var a name)).toList = "Variable(".toList ++
      (name.toList ++ ("@".toList ++ (Decimal.ofOption ['?'] (ann.slot? (.var a name)) ++
        ")".toList))) := by
  rw [structureText]
  cases ann.slot? (.var a name) with
  | none => simp [Decimal.ofOption]
  | some slot => simp [Decimal.ofOption, Decimal.text]

section Kinds

-- A node is compared with one of its kind. Names and numbers end at the mark behind them, and the
-- text of a child tells by itself where it ends.

/-- A number ends at the parenthesis behind it. -/
theorem tellsStructure_literal (a : Mark) (v : Value) :
    TellsStructure ann₁ ann₂ (.literal a v) := by
  refine tellsStructure_of_kind fun u hu hkind x y => ?_
  cases u with
  | literal b w =>
    have hcut := append_stop_iff (x := x) (y := y) v.chars_all w.chars_all
      (by decide : ")".toList.head?.map _ = some false)
    simp only [structureText, Value.text, String.toList_append, String.toList_ofList,
      List.append_assoc, List.append_cancel_left_eq, hcut, Value.chars_injective.eq_iff,
      withSlots, annotate, note, literal.injEq, true_and]
  | _ => cases hkind

/-- There is one text for all nodes that ask for a number. -/
theorem tellsStructure_input (a : Mark) : TellsStructure ann₁ ann₂ (.input a) := by
  refine tellsStructure_of_kind fun u hu hkind x y => ?_
  cases u with
  | input b =>
    simp only [structureText, List.append_cancel_left_eq, withSlots, annotate, note, true_and]
  | _ => cases hkind

/-- The name of a variable ends at the sign behind it, and its slot at the parenthesis. -/
theorem tellsStructure_var {a : Mark} {name : String} (ht : (Tree.var a name).HasWordNames) :
    TellsStructure ann₁ ann₂ (.var a name) := by
  refine tellsStructure_of_kind fun u hu hkind x y => ?_
  cases u with
  | var b name' =>
    have hname := ht _ (mem_nodes_self _) name rfl
    have hname' := hu _ (mem_nodes_self _) name' rfl
    have hcut := fun x y => append_stop_iff (x := x) (y := y) hname hname'
      (by decide : "@".toList.head?.map _ = some false)
    have hall := Decimal.ofOption_all ['?'] (p := fun c => c.isDigit || c == '?')
      (fun c hc => Bool.or_eq_true_iff.2 (.inl hc)) rfl
    have hslot := append_stop_iff (x := x) (y := y) (hall (ann₁.slot? (.var a name)))
      (hall (ann₂.slot? (.var b name'))) (by decide : ")".toList.head?.map _ = some false)
    have hunknown := Decimal.ofOption_injective ['?'] rfl
    simp only [structureText_var, List.append_assoc, List.append_cancel_left_eq, hcut,
      String.toList_inj, hslot, hunknown.eq_iff]
    simp only [withSlots, annotate, note, var.injEq, and_comm, and_left_comm]
  | _ => cases hkind

/-- The name of an operator ends at the comma behind it, and then its operands follow. -/
theorem tellsStructure_binary {a : Mark} {op : BinaryOp} {l r : Tree Mark}
    (hl : TellsStructure ann₁ ann₂ l) (hr : TellsStructure ann₁ ann₂ r) :
    TellsStructure ann₁ ann₂ (.binary a op l r) := by
  refine tellsStructure_of_kind fun u hu hkind x y => ?_
  cases u with
  | binary b op' l' r' =>
    have hleft := hl l' (hu.subtree (.head _))
    have hright := hr r' (hu.subtree (.tail _ (.head _)))
    have hcut := fun x y => append_stop_iff (x := x) (y := y) op.name_all op'.name_all
      (by decide : ", left: ".toList.head?.map _ = some false)
    simp only [structureText, braced, String.toList_append, List.append_assoc,
      List.append_cancel_left_eq, hcut, String.toList_inj, BinaryOp.name_injective.eq_iff, hleft,
      hright]
    simp only [withSlots, annotate, note, binary.injEq, true_and, and_assoc]
  | _ => cases hkind

/-- The name of an operator ends at the comma behind it, and then its operand follows. -/
theorem tellsStructure_unary {a : Mark} {op : UnaryOp} (h : TellsStructure ann₁ ann₂ t) :
    TellsStructure ann₁ ann₂ (.unary a op t) := by
  refine tellsStructure_of_kind fun u hu hkind x y => ?_
  cases u with
  | unary b op' t' =>
    have hop := h t' (hu.subtree (.head _))
    have hcut := fun x y => append_stop_iff (x := x) (y := y) op.name_all op'.name_all
      (by decide : ", operand: ".toList.head?.map _ = some false)
    simp only [structureText, braced, String.toList_append, List.append_assoc,
      List.append_cancel_left_eq, hcut, String.toList_inj, UnaryOp.name_injective.eq_iff, hop]
    simp only [withSlots, annotate, note, unary.injEq, true_and, and_assoc]
  | _ => cases hkind

/-- An assignment has its target and then its value. -/
theorem tellsStructure_assign {a : Mark} {v : Tree Mark} (ht : TellsStructure ann₁ ann₂ t)
    (hv : TellsStructure ann₁ ann₂ v) : TellsStructure ann₁ ann₂ (.assign a t v) := by
  refine tellsStructure_of_kind fun u hu hkind x y => ?_
  cases u with
  | assign b t' v' =>
    have htarget := ht t' (hu.subtree (.head _))
    have hvalue := hv v' (hu.subtree (.tail _ (.head _)))
    simp only [structureText, braced, String.toList_append, List.append_assoc,
      List.append_cancel_left_eq, htarget, hvalue]
    simp only [withSlots, annotate, note, assign.injEq, true_and, and_assoc]
  | _ => cases hkind

/-- A sequence has its expression and then what follows, if anything does. -/
theorem tellsStructure_sequence {a : Mark} {c : Tree Mark} {rest : Option (Tree Mark)}
    (hc : TellsStructure ann₁ ann₂ c) (hr : ∀ r ∈ rest, TellsStructure ann₁ ann₂ r) :
    TellsStructure ann₁ ann₂ (.sequence a c rest) := by
  refine tellsStructure_of_kind fun u hu hkind x y => ?_
  cases u with
  | sequence b c' rest' =>
    have hcurrent := hc c' (hu.subtree (current_mem_subtrees b c' rest'))
    have hrest := partText_iff hr fun r hr => hu.subtree (rest_mem_subtrees hr)
    simp only [structureText_sequence, List.append_assoc, List.append_cancel_left_eq, hcurrent,
      hrest]
    simp only [withSlots_sequence, sequence.injEq, true_and, and_assoc]
  | _ => cases hkind

/-- A block has its statements in order. -/
theorem tellsStructure_block {a : Mark} {ts : List (Tree Mark)}
    (hts : ∀ t ∈ ts, TellsStructure ann₁ ann₂ t) : TellsStructure ann₁ ann₂ (.block a ts) := by
  refine tellsStructure_of_kind fun u hu hkind x y => ?_
  cases u with
  | block b us =>
    have hus : ∀ u ∈ us, u.HasWordNames := fun u hmem => hu.subtree (by rwa [subtrees_block])
    simp only [structureText, String.toList_append, List.append_assoc,
      List.append_cancel_left_eq, structureTexts_iff hts hus]
    simp only [withSlots_block, block.injEq, true_and]
  | _ => cases hkind

/-- A condition has its expression. -/
theorem tellsStructure_condition {a : Mark} (h : TellsStructure ann₁ ann₂ t) :
    TellsStructure ann₁ ann₂ (.condition a t) := by
  refine tellsStructure_of_kind fun u hu hkind x y => ?_
  cases u with
  | condition b t' =>
    have hop := h t' (hu.subtree (.head _))
    simp only [structureText, String.toList_append, List.append_assoc,
      List.append_cancel_left_eq, hop]
    simp only [withSlots, annotate, note, condition.injEq, true_and]
  | _ => cases hkind

/-- A branch has its condition, its first alternative and then the second one, if it has one. -/
theorem tellsStructure_ifElse {a : Mark} {c : Tree Mark} {e : Option (Tree Mark)}
    (hc : TellsStructure ann₁ ann₂ c) (ht : TellsStructure ann₁ ann₂ t)
    (he : ∀ r ∈ e, TellsStructure ann₁ ann₂ r) : TellsStructure ann₁ ann₂ (.ifElse a c t e) := by
  refine tellsStructure_of_kind fun u hu hkind x y => ?_
  cases u with
  | ifElse b c' t' e' =>
    have hcondition := hc c' (hu.subtree (condition_mem_subtrees b c' t' e'))
    have hthen := ht t' (hu.subtree (whenTrue_mem_subtrees b c' t' e'))
    have helse := partText_iff he fun r hr => hu.subtree (whenFalse_mem_subtrees hr)
    simp only [structureText_ifElse, List.append_assoc, List.append_cancel_left_eq, hcondition,
      hthen, helse]
    simp only [withSlots_ifElse, ifElse.injEq, true_and, and_assoc]
  | _ => cases hkind

/-- A loop has its condition and then its body. -/
theorem tellsStructure_whileLoop {a : Mark} {c b : Tree Mark} (hc : TellsStructure ann₁ ann₂ c)
    (hb : TellsStructure ann₁ ann₂ b) : TellsStructure ann₁ ann₂ (.whileLoop a c b) := by
  refine tellsStructure_of_kind fun u hu hkind x y => ?_
  cases u with
  | whileLoop a' c' b' =>
    have hcondition := hc c' (hu.subtree (.head _))
    have hbody := hb b' (hu.subtree (.tail _ (.head _)))
    simp only [structureText, braced, String.toList_append, List.append_assoc,
      List.append_cancel_left_eq, hcondition, hbody]
    simp only [withSlots, annotate, note, whileLoop.injEq, true_and, and_assoc]
  | _ => cases hkind

/-- A statement that prints has its expression. -/
theorem tellsStructure_print {a : Mark} (h : TellsStructure ann₁ ann₂ t) :
    TellsStructure ann₁ ann₂ (.print a t) := by
  refine tellsStructure_of_kind fun u hu hkind x y => ?_
  cases u with
  | print b t' =>
    have hop := h t' (hu.subtree (.head _))
    simp only [structureText, String.toList_append, List.append_assoc,
      List.append_cancel_left_eq, hop]
    simp only [withSlots, annotate, note, print.injEq, true_and]
  | _ => cases hkind

end Kinds

/-- The text of a tree whose names are words tells its structure. -/
theorem tellsStructure (ht : t.HasWordNames) : TellsStructure ann₁ ann₂ t := by
  induction t using Tree.induction with
  | literal a v => exact tellsStructure_literal a v
  | input a => exact tellsStructure_input a
  | var a name => exact tellsStructure_var ht
  | binary a op l r ihl ihr =>
    exact tellsStructure_binary (ihl (ht.subtree (.head _)))
      (ihr (ht.subtree (.tail _ (.head _))))
  | unary a op t ih => exact tellsStructure_unary (ih (ht.subtree (.head _)))
  | assign a t v iht ihv =>
    exact tellsStructure_assign (iht (ht.subtree (.head _)))
      (ihv (ht.subtree (.tail _ (.head _))))
  | sequence a c rest ihc ihr =>
    exact tellsStructure_sequence (ihc (ht.subtree (current_mem_subtrees a c rest)))
      fun r hr => ihr r hr (ht.subtree (rest_mem_subtrees hr))
  | block a ts ih =>
    refine tellsStructure_block fun t hmem => ih t hmem (ht.subtree ?_)
    rwa [subtrees_block]
  | condition a t ih => exact tellsStructure_condition (ih (ht.subtree (.head _)))
  | ifElse a c t e ihc iht ihe =>
    exact tellsStructure_ifElse (ihc (ht.subtree (condition_mem_subtrees a c t e)))
      (iht (ht.subtree (whenTrue_mem_subtrees a c t e)))
      fun r hr => ihe r hr (ht.subtree (whenFalse_mem_subtrees hr))
  | whileLoop a c b ihc ihb =>
    exact tellsStructure_whileLoop (ihc (ht.subtree (.head _)))
      (ihb (ht.subtree (.tail _ (.head _))))
  | print a t ih => exact tellsStructure_print (ih (ht.subtree (.head _)))

end Tree

end IntScript
