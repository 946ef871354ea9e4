import IntScript.Proofs.Grammar.Taking
import IntScript.Proofs.Parse.Shape
import IntScript.Proofs.Tree.Reading

/-!
# Structural texts of programs

The names of variables in a program are words, since the grammar reads no others. So the structural
text of a parsed tree tells its structure.
-/

namespace IntScript

namespace Tree

variable {α : Type}

/-- A node that is no variable has word names below it if its children have. -/
theorem hasWordNames_of_subtrees {t : Tree α} (hname : t.name? = none)
    (h : ∀ s ∈ t.subtrees, s.HasWordNames) : t.HasWordNames := by
  refine forall_nodes_iff.2 ⟨fun name heq => ?_, h⟩
  rw [hname] at heq
  cases heq

/-- A variable whose name can be written has a word as its name. -/
theorem hasWordNames_var {a : α} {name : String} (h : Grammar.isIdentifier name.toList = true) :
    (Tree.var a name).HasWordNames := by
  refine forall_nodes_iff.2 ⟨fun name' heq => ?_, fun s hs => nomatch hs⟩
  cases heq
  exact Grammar.Word.all_of_isIdentifier h

/-- The names in expressions are words. -/
theorem IsExpression.hasWordNames {t : Tree α} (h : t.IsExpression) : t.HasWordNames := by
  induction h with
  | literal h => exact hasWordNames_of_subtrees rfl fun s hs => nomatch hs
  | input => exact hasWordNames_of_subtrees rfl fun s hs => nomatch hs
  | var h => exact hasWordNames_var h
  | binary _ _ ihl ihr =>
    exact hasWordNames_of_subtrees rfl
      (List.forall_mem_cons.2 ⟨ihl, List.forall_mem_singleton.2 ihr⟩)
  | unary _ _ ih => exact hasWordNames_of_subtrees rfl (List.forall_mem_singleton.2 ih)
  | change _ h =>
    exact hasWordNames_of_subtrees rfl (List.forall_mem_singleton.2 (hasWordNames_var h))
  | assign h _ ih =>
    exact hasWordNames_of_subtrees rfl
      (List.forall_mem_cons.2 ⟨hasWordNames_var h, List.forall_mem_singleton.2 ih⟩)
  | print _ ih => exact hasWordNames_of_subtrees rfl (List.forall_mem_singleton.2 ih)

/-- The names in the condition of a statement are words. -/
theorem IsExpression.hasWordNames_condition {a : α} {t : Tree α} (h : t.IsExpression) :
    (Tree.condition a t).HasWordNames :=
  hasWordNames_of_subtrees rfl (List.forall_mem_singleton.2 h.hasWordNames)

/-- The names in statements are words. -/
theorem IsStatement.hasWordNames {t : Tree α} (h : t.IsStatement) : t.HasWordNames := by
  induction h with
  | expression ht =>
    exact hasWordNames_of_subtrees rfl (List.forall_mem_singleton.2 ht.hasWordNames)
  | block _ ih => exact hasWordNames_of_subtrees rfl (by rwa [subtrees_block])
  | ifThen ht _ ih =>
    exact hasWordNames_of_subtrees rfl
      (List.forall_mem_cons.2 ⟨ht.hasWordNames_condition, List.forall_mem_singleton.2 ih⟩)
  | ifElse ht _ _ iht ihe =>
    exact hasWordNames_of_subtrees rfl
      (List.forall_mem_cons.2 ⟨ht.hasWordNames_condition,
        List.forall_mem_cons.2 ⟨iht, List.forall_mem_singleton.2 ihe⟩⟩)
  | whileLoop ht _ ih =>
    exact hasWordNames_of_subtrees rfl
      (List.forall_mem_cons.2 ⟨ht.hasWordNames_condition, List.forall_mem_singleton.2 ih⟩)

/-- The names in programs are words. -/
theorem IsProgram.hasWordNames {t : Tree α} (h : t.IsProgram) : t.HasWordNames := by
  obtain ⟨a, ts, rfl, hts⟩ := h
  exact (IsStatement.block hts).hasWordNames

end Tree

/-- The structural texts of two parsed trees are equal exactly if the trees have the same structure,
with the slots that their variables have in any annotations. -/
theorem structureText_eq_iff {source₁ source₂ : String} {t₁ t₂ : Tree Span}
    (h₁ : parse source₁ = .ok t₁) (h₂ : parse source₂ = .ok t₂) (ann₁ ann₂ : Annotations) :
    t₁.number.structureText ann₁ = t₂.number.structureText ann₂ ↔
      t₁.number.withSlots ann₁ = t₂.number.withSlots ann₂ := by
  have hnames₁ := (parse_isProgram h₁).number.hasWordNames
  have hnames₂ := (parse_isProgram h₂).number.hasWordNames
  have hreads : Tree.TellsStructure ann₁ ann₂ t₁.number := Tree.tellsStructure hnames₁
  have htells := hreads _ hnames₂ [] []
  rwa [List.append_nil, List.append_nil, String.toList_inj, and_iff_left rfl] at htells

/-- Two differences grouped from the left and from the right have different structural texts. -/
theorem structureText_eq_iff_grouped : ∃ t₁ t₂ : Tree Span,
    parse "a-b-c;" = .ok t₁ ∧ parse "a-(b-c);" = .ok t₂ ∧
      ∀ ann₁ ann₂, t₁.number.structureText ann₁ ≠ t₂.number.structureText ann₂ := by
  have h₁ : parse "a-b-c;" = .ok (.block ⟨0, 6⟩ [.sequence ⟨0, 6⟩ (.binary ⟨0, 5⟩ .sub
      (.binary ⟨0, 3⟩ .sub (.var ⟨0, 1⟩ "a") (.var ⟨2, 3⟩ "b")) (.var ⟨4, 5⟩ "c")) none]) := by
    cbv
  have h₂ : parse "a-(b-c);" = .ok (.block ⟨0, 8⟩ [.sequence ⟨0, 8⟩ (.binary ⟨0, 6⟩ .sub
      (.var ⟨0, 1⟩ "a") (.binary ⟨3, 6⟩ .sub (.var ⟨3, 4⟩ "b") (.var ⟨5, 6⟩ "c"))) none]) := by
    cbv
  refine ⟨_, _, h₁, h₂, fun ann₁ ann₂ htext => ?_⟩
  cases (structureText_eq_iff h₁ h₂ ann₁ ann₂).1 htext

end IntScript
