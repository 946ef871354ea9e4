import IntScript.Proofs.Tree.Identity
import Mathlib.Data.List.Basic
import Mathlib.Data.List.Induction

/-!
# Numbers in place of identities

Numbering replaces the identities of a tree by the numbers of their first nodes in pre-order. If no
two nodes have the same identity, every node gets its own place, so that the tree is the one that
is numbered without any regard to the identities.
-/

namespace IntScript

/-- A table that gives different numbers, all of them smaller than its size. -/
structure IsNumbering (table : Std.HashMap Nat Nat) : Prop where
  lt : ∀ i k : Nat, table[i]? = some k → k < table.size
  inj : ∀ i j k : Nat, table[i]? = some k → table[j]? = some k → i = j

/-- A new identity gets the next number. -/
theorem IsNumbering.insert {table : Std.HashMap Nat Nat} (h : IsNumbering table) (id : Nat) :
    IsNumbering (table.insertIfNew id table.size) := by
  by_cases hid : id ∈ table
  · have hsame : ∀ i : Nat, (table.insertIfNew id table.size)[i]? = table[i]? := by
      intro i
      rw [Std.HashMap.getElem?_insertIfNew, if_neg fun hnew => hnew.2 hid]
    have hsize : (table.insertIfNew id table.size).size = table.size := by
      rw [Std.HashMap.size_insertIfNew, if_pos hid]
    refine ⟨fun i k hi => ?_, fun i j k hi hj => ?_⟩
    · rw [hsame] at hi
      rw [hsize]
      exact h.lt i k hi
    · rw [hsame] at hi hj
      exact h.inj i j k hi hj
  · have hsize : (table.insertIfNew id table.size).size = table.size + 1 := by
      rw [Std.HashMap.size_insertIfNew, if_neg hid]
    have hlookup : ∀ i k : Nat, (table.insertIfNew id table.size)[i]? = some k →
        i = id ∧ k = table.size ∨ table[i]? = some k := by
      intro i k hi
      rw [Std.HashMap.getElem?_insertIfNew] at hi
      split at hi
      · next hnew =>
        exact .inl ⟨(beq_iff_eq.1 hnew.1).symm, (Option.some.inj hi).symm⟩
      · exact .inr hi
    refine ⟨fun i k hi => ?_, fun i j k hi hj => ?_⟩
    · rw [hsize]
      rcases hlookup i k hi with ⟨-, rfl⟩ | hold
      · exact Nat.lt_succ_self _
      · exact Nat.lt_succ_of_lt (h.lt i k hold)
    · rcases hlookup i k hi with ⟨rfl, rfl⟩ | hold
      · rcases hlookup j _ hj with ⟨rfl, -⟩ | hold'
        · rfl
        · exact absurd (h.lt j _ hold') (Nat.lt_irrefl _)
      · rcases hlookup j k hj with ⟨rfl, rfl⟩ | hold'
        · exact absurd (h.lt i _ hold) (Nat.lt_irrefl _)
        · exact h.inj i j k hold hold'

/-- Identities that are numbered one after the other get different numbers. -/
theorem isNumbering_foldl {table : Std.HashMap Nat Nat} (h : IsNumbering table) (ids : List Nat) :
    IsNumbering (ids.foldl (fun table id => table.insertIfNew id table.size) table) ∧
      ∀ i, i ∈ table ∨ i ∈ ids →
        i ∈ ids.foldl (fun table id => table.insertIfNew id table.size) table := by
  induction ids generalizing table with
  | nil => exact ⟨h, fun i hi => hi.resolve_right List.not_mem_nil⟩
  | cons id ids ih =>
    obtain ⟨hnumbers, hmem⟩ := ih (h.insert id)
    refine ⟨hnumbers, fun i hi => hmem i ?_⟩
    rw [Std.HashMap.mem_insertIfNew, beq_iff_eq]
    rcases hi with hi | hi
    · exact .inl (.inr hi)
    · rcases List.mem_cons.1 hi with rfl | hi
      · exact .inl (.inl rfl)
      · exact .inr hi

/-- The numbers of a list of identities are a numbering, and every one of them has a number. -/
theorem isNumbering_numbering (ids : List Nat) :
    IsNumbering (numbering ids) ∧ ∀ i, i ∈ ids → i ∈ numbering ids := by
  have hempty : IsNumbering ∅ := ⟨fun i k hi => by simp at hi, fun i j k hi _ => by simp at hi⟩
  obtain ⟨hnumbering, hmem⟩ := isNumbering_foldl hempty ids
  exact ⟨hnumbering, fun i hi => hmem i (.inr hi)⟩

/-- An identity in the list has a number. -/
theorem exists_number {ids : List Nat} {i : Nat} (hi : i ∈ ids) :
    ∃ k : Nat, (numbering ids)[i]? = some k :=
  ⟨_, Std.HashMap.getElem?_eq_some_getElem ((isNumbering_numbering ids).2 i hi)⟩

/-- Different identities have different numbers. -/
theorem number_injective {ids : List Nat} {i j k : Nat} (hi : (numbering ids)[i]? = some k)
    (hj : (numbering ids)[j]? = some k) : i = j :=
  (isNumbering_numbering ids).1.inj i j k hi hj

/-- The table of different identities gives each of them its position. -/
theorem getElem?_numbering {ids : List Nat} (h : ids.Nodup) :
    (numbering ids).size = ids.length ∧
      ∀ i : Nat, (numbering ids)[i]? = if i ∈ ids then some (ids.idxOf i) else none := by
  -- from the end, as the table of all but the last identity is what the last one is put into
  induction ids using List.reverseRecOn with
  | nil => exact ⟨rfl, fun i => by simp [numbering]⟩
  | append_singleton ids id ih =>
    obtain ⟨hids, -, hnew⟩ := List.nodup_append.1 h
    obtain ⟨hsize, hlookup⟩ := ih hids
    have hid : id ∉ ids := fun hmem => hnew id hmem id List.mem_cons_self rfl
    have hstep : numbering (ids ++ [id]) = (numbering ids).insertIfNew id (numbering ids).size := by
      rw [numbering, List.foldl_append]
      rfl
    have habsent : id ∉ numbering ids := by
      rw [← Std.HashMap.isSome_getElem?_iff_mem, hlookup, if_neg hid]
      exact Bool.false_ne_true
    rw [hstep]
    refine ⟨?_, fun i => ?_⟩
    · rw [Std.HashMap.size_insertIfNew, if_neg habsent, hsize, List.length_append]
      rfl
    · rw [Std.HashMap.getElem?_insertIfNew, hlookup, hsize]
      by_cases hi : id = i
      · subst hi
        rw [if_pos ⟨beq_self_eq_true id, habsent⟩, if_pos (by simp),
          List.idxOf_append_of_notMem hid, List.idxOf_cons_self, Nat.add_zero]
      · rw [if_neg fun hsame => hi (beq_iff_eq.1 hsame.1)]
        by_cases hmem : i ∈ ids
        · rw [if_pos hmem, if_pos (List.mem_append_left _ hmem), List.idxOf_append_of_mem hmem]
        · rw [if_neg hmem, if_neg (by simp [hmem, Ne.symm hi])]

/-- Different identities are numbered from zero on. -/
theorem map_numbering {ids : List Nat} (h : ids.Nodup) :
    ids.map (fun i => (numbering ids)[i]?.getD 0) = List.range ids.length := by
  apply List.ext_getElem
  · rw [List.length_map, List.length_range]
  · intro k hk hk'
    have hlt : k < ids.length := by rwa [List.length_map] at hk
    rw [List.getElem_map, List.getElem_range, (getElem?_numbering h).2,
      if_pos (List.getElem_mem hlt), Option.getD_some, h.idxOf_getElem]

namespace Tree

/-- The marks of the nodes in pre-order. -/
def marks (t : Tree Mark) : List Mark := t.nodes.map label

/-- The mark of the root comes first, and those of its children follow in turn. -/
theorem marks_eq (t : Tree Mark) : t.marks = t.label :: t.subtrees.flatMap marks := by
  rw [marks, nodes_eq, List.map_cons, List.map_flatMap]
  rfl

/-- Marks with the same identities and the same spans are the same. -/
theorem marks_ext {as bs : List Mark} (hid : as.map Mark.id = bs.map Mark.id)
    (hspan : as.map Mark.span = bs.map Mark.span) : as = bs := by
  induction as generalizing bs with
  | nil => exact (List.map_eq_nil_iff.1 hid.symm).symm
  | cons a as ih =>
    cases bs with
    | nil => cases hid
    | cons b bs =>
      rw [List.map_cons, List.map_cons, List.cons_eq_cons] at hid hspan
      have hab : a = b := by
        cases a
        cases b
        exact congrArg₂ Mark.mk hid.1 hspan.1
      rw [hab, ih hid.2 hspan.2]

/-- The spans of a tree whose nodes all have spans are known without the identities. -/
theorem IsLocated.map_span {t : Tree Mark} (h : t.IsLocated) :
    t.marks.map Mark.span = t.unmarked.nodes.map fun n => some n.label := by
  rw [marks, unmarked, nodes_relabel, List.map_map, List.map_map]
  refine List.map_congr_left fun n hn => ?_
  obtain ⟨s, hs⟩ := Option.isSome_iff_exists.1 (h n hn)
  have hspan : n.label.span = some s := hs
  rw [Function.comp_apply, Function.comp_apply, label_relabel, hspan]
  rfl

/-- The root and its children are numbered apart from each other. -/
theorem relabel_eq_numberFrom_children {g : Mark → Mark} {t : Tree Mark} {k : Nat}
    (hlabel : g t.label = (t.unmarked.numberFrom k).1.label)
    (hsubtrees : t.subtrees.map (relabel g) = (t.unmarked.numberFrom k).1.subtrees) :
    t.relabel g = (t.unmarked.numberFrom k).1 := by
  cases t with
  | sequence a c rest =>
    cases rest <;> simp_all [relabel, unmarked, numberFrom, subtrees, children, label]
  | ifElse a c t e =>
    cases e <;> simp_all [relabel, unmarked, numberFrom, subtrees, children, label]
  | block a ts =>
    rw [subtrees_block] at hsubtrees
    rw [relabel, relabelAll_eq_map, hsubtrees]
    rw [unmarked, relabel, numberFrom] at hlabel ⊢
    rw [subtrees_block]
    exact congrArg (Tree.block · _) hlabel
  | _ => simp_all [relabel, unmarked, numberFrom, subtrees, children, label]

/-- A numbered tree has as many marks as the tree that was numbered. -/
theorem length_marks_numberFrom (t : Tree Mark) (k : Nat) :
    (t.unmarked.numberFrom k).1.marks.length = t.marks.length := by
  have hcounts := congrArg List.length (countsUp t.unmarked k).1
  rw [List.length_map, List.length_range', unmarked, nodes_relabel, List.length_map] at hcounts
  rwa [marks, marks, List.length_map, List.length_map]

/-- Statements are numbered one after the other if each of them is. -/
theorem relabel_eq_numberStatements {g : Mark → Mark} {ts : List (Tree Mark)}
    (h : ∀ t ∈ ts, ∀ k, t.marks.map g = (t.unmarked.numberFrom k).1.marks →
      t.relabel g = (t.unmarked.numberFrom k).1) {k : Nat}
    (hmarks : (ts.flatMap marks).map g =
      (numberStatements k (ts.map unmarked)).1.flatMap marks) :
    ts.map (relabel g) = (numberStatements k (ts.map unmarked)).1 := by
  induction ts generalizing k with
  | nil => rfl
  | cons t ts ih =>
    rw [List.map_cons, numberStatements, List.flatMap_cons, List.flatMap_cons,
      List.map_append] at hmarks
    -- both rows of marks are cut where the first statement ends
    have hlength : (t.marks.map g).length = (t.unmarked.numberFrom k).1.marks.length := by
      rw [List.length_map, length_marks_numberFrom]
    obtain ⟨ht, hts⟩ := List.append_inj hmarks hlength
    rw [List.map_cons, List.map_cons, numberStatements, h t List.mem_cons_self k ht,
      ih (fun s hs => h s (List.mem_cons_of_mem _ hs)) hts]

/-- A tree that gets the marks of the numbered tree becomes that tree. -/
theorem relabel_eq_numberFrom {g : Mark → Mark} {t : Tree Mark} {k : Nat}
    (h : t.marks.map g = (t.unmarked.numberFrom k).1.marks) :
    t.relabel g = (t.unmarked.numberFrom k).1 := by
  induction t using induction_on_children generalizing k with
  | step t ih =>
    have hall : ∀ s ∈ t.subtrees, ∀ k, s.marks.map g = (s.unmarked.numberFrom k).1.marks →
        s.relabel g = (s.unmarked.numberFrom k).1 := by
      intro s hs k
      obtain ⟨p, hp, rfl⟩ := List.mem_map.1 hs
      exact ih p hp
    have hsub : (t.unmarked.numberFrom k).1.subtrees =
        (numberStatements (k + 1) (t.subtrees.map unmarked)).1 := by
      rw [(numberFrom_eq k t.unmarked).2.1, unmarked, subtrees_relabel]
      rfl
    rw [marks_eq, marks_eq, List.map_cons, List.cons_eq_cons, hsub] at h
    refine relabel_eq_numberFrom_children h.1 ?_
    rw [hsub]
    exact relabel_eq_numberStatements hall h.2

/-- Numbers neither hide nor feign that a node is used twice: there is a number for two nodes exactly
if there was an identity for two nodes. -/
theorem nodup_inOrder_iff (t : Tree Mark) :
    (t.inOrder.nodes.map id).Nodup ↔ (t.nodes.map id).Nodup := by
  have hids : t.inOrder.nodes.map id =
      (t.nodes.map id).map fun i => (numbering (t.nodes.map id))[i]?.getD 0 := by
    rw [inOrder, nodes_relabel, List.map_map, List.map_map]
    exact List.map_congr_left fun n _ => congrArg Mark.id (label_relabel _ n)
  rw [hids]
  refine ⟨List.Nodup.of_map _, fun h => h.map_on fun i hi j hj hnumber => ?_⟩
  obtain ⟨k, hk⟩ := exists_number hi
  obtain ⟨l, hl⟩ := exists_number hj
  rw [hk, hl] at hnumber
  cases hnumber
  exact number_injective hk hl

/-- If no two nodes have the same identity, numbers take the place of the identities in pre-order. -/
theorem inOrder_eq_number {t : Tree Mark} (hids : (t.nodes.map id).Nodup) (hspans : t.IsLocated) :
    t.inOrder = t.unmarked.number := by
  refine relabel_eq_numberFrom (marks_ext ?_ ?_)
  · have hnumbers := map_numbering hids
    have hcounts := (countsUp t.unmarked 0).1
    rw [unmarked, nodes_relabel, List.length_map, ← List.range_eq_range'] at hcounts
    rw [List.map_map, List.length_map] at hnumbers
    rw [marks, marks, List.map_map, List.map_map, List.map_map]
    exact hnumbers.trans hcounts.symm
  · have hlocated := (isLocated_numberFrom t.unmarked 0).map_span
    rw [unmarked_numberFrom] at hlocated
    rw [List.map_map, hlocated, ← hspans.map_span]
    rfl

end Tree

end IntScript
