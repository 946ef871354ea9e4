import IntScript.Proofs.Text.Codes
import IntScript.Proofs.Tree.Identity
import IntScript.Tree.Dot

/-!
# Dumps by recursion

A dump is written from a pile of pending nodes. It is the same text as the one that a recursion on
the tree gives: the lines of a node, and then those of its children from left to right. So there is
a record for each node, the edges are those of the tree, and an edge stands in front of the record
of the node to which it leads.
-/

namespace IntScript.Dot

variable {ann : Annotations}

/-- A line of a dump between the first and the last one. -/
inductive Line where
  /-- The record of a node. -/
  | record (id : Nat) (caption : String)
  /-- An edge from a parent to a child. -/
  | edge (parent : Nat) (role : Role) (child : Nat)

namespace Line

/-- The text of a line. -/
def text (name : Nat → String) : Line → String
  | .record id caption => name id ++ " [shape = record, label=\"" ++ escape caption ++ "\"]\n"
  | .edge parent role child =>
    name parent ++ " -> " ++ name child ++ " [label=\"" ++ escape role.text ++ "\"]\n"

/-- The node of a record, with its caption. -/
def record? : Line → Option (Nat × String)
  | .record id caption => some (id, caption)
  | .edge .. => none

/-- The ends and the role of an edge. -/
def edge? : Line → Option (Nat × Role × Nat)
  | .record .. => none
  | .edge parent role child => some (parent, role, child)

/-- The lines of one node: its record, and directly behind it an edge to each child. -/
def ofNode (ann : Annotations) (t : Tree Mark) : List Line :=
  .record t.id (t.caption ann) :: t.children.map fun (role, child) => .edge t.id role child.id

end Line

/-- A line feed is escaped like all characters that have a meaning inside quotes. -/
theorem newline_not_mem_escape (s : String) : '\n' ∉ (escape s).toList := by
  rw [escape, String.toList_ofList, List.mem_flatMap]
  rintro ⟨c, -, hc⟩
  rw [escapeChar] at hc
  split at hc
  · simp at hc
  · next hne =>
    split at hc
    · simp only [List.mem_cons, List.not_mem_nil, or_false] at hc
      exact hc.elim (by decide) fun h => hne h.symm
    · exact hne (List.mem_singleton.1 hc).symm

/-- A text is one line if it ends with the only line feed that it has. -/
def IsOneLine (s : String) : Prop := ∃ cs : List Char, s.toList = cs ++ ['\n'] ∧ '\n' ∉ cs

/-- The names of nodes are words: they have no blanks and no line feeds. -/
def NamesAreWords (name : Nat → String) : Prop :=
  ∀ id, (name id).toList.all (fun c => c != ' ' && c != '\n') = true

/-- Words are in one line. -/
theorem NamesAreWords.newline_not_mem {name : Nat → String} (h : NamesAreWords name) (id : Nat) :
    '\n' ∉ (name id).toList := by
  intro hmem
  cases List.all_eq_true.1 (h id) _ hmem

/-- A word with a number behind it is a word. -/
theorem namesAreWords_numbered {word : String}
    (hword : word.toList.all (fun c => c != ' ' && c != '\n') = true) (number : Nat → Nat) :
    NamesAreWords fun id => word ++ Decimal.text (number id) := by
  intro id
  have hdigits := List.all_eq_true.1 (Decimal.ofNat_all (number id))
  rw [String.toList_append, List.all_append, hword, Decimal.text, String.toList_ofList,
    Bool.true_and, List.all_eq_true]
  intro c hc
  have hblank := bne_of_isDigit (hdigits c hc) (by decide : ' '.isDigit = false)
  have hnewline := bne_of_isDigit (hdigits c hc) (by decide : '\n'.isDigit = false)
  rw [hblank, hnewline, Bool.and_self]

/-- The names by order of first appearance are words. -/
theorem namesAreWords_nodeName (numbers : Std.HashMap Nat Nat) :
    NamesAreWords (nodeName numbers) :=
  namesAreWords_numbered (by decide) fun id => numbers[id]?.getD 0

namespace Line

/-- The characters of a line without the line feed at its end. -/
def chars (name : Nat → String) : Line → List Char
  | .record id caption =>
    (name id).toList ++ (" [shape = record, label=\"".toList ++
      ((escape caption).toList ++ "\"]".toList))
  | .edge parent role child =>
    (name parent).toList ++ (" -> ".toList ++ ((name child).toList ++
      (" [label=\"".toList ++ ((escape role.text).toList ++ "\"]".toList))))

/-- A line ends with a line feed. -/
theorem toList_text (name : Nat → String) (line : Line) :
    (line.text name).toList = line.chars name ++ ['\n'] := by
  cases line <;> simp [text, chars]

/-- Names that are words leave the other characters of a line in one line. -/
theorem newline_not_mem_chars {name : Nat → String} (hname : NamesAreWords name) (line : Line) :
    '\n' ∉ line.chars name := by
  cases line with
  | record id caption => simp [chars, hname.newline_not_mem, newline_not_mem_escape]
  | edge parent role child => simp [chars, hname.newline_not_mem, newline_not_mem_escape]

/-- Names that are words give lines that break at their ends only. -/
theorem isOneLine_text {name : Nat → String} (hname : NamesAreWords name) (line : Line) :
    IsOneLine (line.text name) :=
  ⟨line.chars name, line.toList_text name, line.newline_not_mem_chars hname⟩

end Line

/-- The lines of a tree by recursion: those of the root, and then those of each child in turn. -/
def rendering (ann : Annotations) (t : Tree Mark) : List Line :=
  Line.ofNode ann t ++ t.children.attach.flatMap fun p => rendering ann p.1.2
termination_by t
decreasing_by
  have hmem : p.1.2 ∈ t.children.map (·.2) := List.mem_map_of_mem p.2
  exact Nat.lt_of_le_of_lt (Tree.sizeOf_le_totalSize hmem) t.totalSize_children_lt

/-- The lines of a tree in terms of its subtrees. -/
theorem rendering_eq (t : Tree Mark) :
    rendering ann t = Line.ofNode ann t ++ t.subtrees.flatMap (rendering ann) := by
  rw [rendering, Tree.subtrees, List.flatMap_map]
  congr 1
  exact (List.flatMap_subtype fun _ _ => rfl).trans (by rw [List.unattach_attach])

/-- The lines of a tree are those of its nodes in pre-order. -/
theorem rendering_eq_nodes (t : Tree Mark) :
    rendering ann t = t.nodes.flatMap (Line.ofNode ann) := by
  induction t using Tree.induction_on_children with
  | step t ih =>
    have hsub : t.subtrees.flatMap (rendering ann) =
        t.subtrees.flatMap fun s => s.nodes.flatMap (Line.ofNode ann) := by
      refine List.flatMap_congr fun s hs => ?_
      obtain ⟨p, hp, rfl⟩ := List.mem_map.1 hs
      exact ih p hp
    rw [rendering_eq, hsub, Tree.nodes_eq, List.flatMap_cons, List.flatMap_assoc]

/-- The text of one node is that of its lines. -/
theorem nodeLines_eq (name : Nat → String) (t : Tree Mark) :
    nodeLines ann name t = String.join ((Line.ofNode ann t).map (Line.text name)) := by
  rw [nodeLines, Line.ofNode, List.map_cons, String.join_cons, List.map_map]
  rfl

/-- What is written from a pile of nodes is what stands already, and then the lines of each pending
tree in turn, the one on top first. -/
theorem write_eq (name : Nat → String) (out : String) (pending : List (Tree Mark)) :
    write ann name out pending =
      out ++ String.join ((pending.flatMap (rendering ann)).map (Line.text name)) := by
  induction out, pending using write.induct ann name with
  | case1 out => simp [write]
  | case2 out t pending ih =>
    have htop : (t :: pending).flatMap (rendering ann) =
        Line.ofNode ann t ++ (pile pending t.children).flatMap (rendering ann) := by
      rw [List.flatMap_cons, rendering_eq, pile_eq, List.flatMap_append, List.append_assoc]
      rfl
    rw [write, ih, nodeLines_eq, htop, List.map_append, String.join_append, String.append_assoc]

/-- Whatever the nodes are called, the dump of a tree is its rendering between the first and the last
line. -/
theorem dumpAs_eq (name : Nat → String) (root : Tree Mark) :
    dumpAs name ann root =
      "digraph G \x7b\n" ++ String.join ((rendering ann root).map (Line.text name)) ++ "\x7d\n" := by
  rw [dumpAs, write_eq, List.flatMap_singleton]

/-- The records are those of the nodes in pre-order. -/
theorem records_rendering (root : Tree Mark) :
    (rendering ann root).filterMap Line.record? =
      root.nodes.map fun t => (t.id, t.caption ann) := by
  have hnode : ∀ t, (Line.ofNode ann t).filterMap Line.record? = [(t.id, t.caption ann)] := by
    intro t
    simp [Line.ofNode, Line.record?, List.filterMap_map, Function.comp_def]
  rw [rendering_eq_nodes, List.filterMap_flatMap]
  simp only [hnode]
  exact List.flatMap_pure_eq_map _ _

/-- The edges are those of the tree. -/
theorem edges_rendering (root : Tree Mark) :
    (rendering ann root).filterMap Line.edge? = root.edges := by
  have hnode : ∀ t, (Line.ofNode ann t).filterMap Line.edge? =
      t.children.map fun p => (t.id, p.1, p.2.id) := by
    intro t
    rw [Line.ofNode, List.filterMap_cons_none rfl, List.filterMap_map]
    exact congrFun List.filterMap_eq_map _
  rw [rendering_eq_nodes, List.filterMap_flatMap, Tree.edges]
  exact congrArg (List.flatMap · root.nodes) (funext hnode)

/-- Every edge among the lines has a record of the node to which it leads behind it, still among
the lines or behind them. -/
def RecordsFollow (lines behind : List Line) : Prop :=
  ∀ before parent role child after, lines = before ++ .edge parent role child :: after →
    ∃ caption, .record child caption ∈ after ++ behind

/-- Lines can be followed by further lines that are followed by the same ones. -/
theorem RecordsFollow.append {lines more behind : List Line}
    (hlines : RecordsFollow lines (more ++ behind)) (hmore : RecordsFollow more behind) :
    RecordsFollow (lines ++ more) behind := by
  intro before parent role child after heq
  rcases List.append_eq_append_iff.1 heq with ⟨middle, -, hcut⟩ | ⟨middle, hcut, hrest⟩
  · exact hmore middle parent role child after hcut
  · cases middle with
    | nil => exact hmore [] parent role child after hrest.symm
    | cons line middle =>
      obtain ⟨rfl, rfl⟩ := List.cons.inj hrest
      obtain ⟨caption, hcaption⟩ := hlines before parent role child middle hcut
      rw [← List.append_assoc] at hcaption
      exact ⟨caption, hcaption⟩

/-- The root of a tree has a record. -/
theorem record_mem_rendering (t : Tree Mark) :
    Line.record t.id (t.caption ann) ∈ rendering ann t := by
  rw [rendering_eq]
  exact List.mem_append_left _ List.mem_cons_self

/-- The edges of a node lead to its children, whose records stand in their renderings. -/
theorem recordsFollow_ofNode (t : Tree Mark) (behind : List Line) :
    RecordsFollow (Line.ofNode ann t) (t.subtrees.flatMap (rendering ann) ++ behind) := by
  intro before parent role child after heq
  have hmem : Line.edge parent role child ∈ Line.ofNode ann t := by
    rw [heq]
    exact List.mem_append_right _ List.mem_cons_self
  rcases List.mem_cons.1 hmem with hrecord | hedge
  · cases hrecord
  · obtain ⟨p, hp, hline⟩ := List.mem_map.1 hedge
    cases hline
    have hsub : p.2 ∈ t.subtrees := List.mem_map_of_mem hp
    refine ⟨p.2.caption ann, List.mem_append_right _ (List.mem_append_left _ ?_)⟩
    exact List.mem_flatMap.2 ⟨p.2, hsub, record_mem_rendering p.2⟩

/-- In the rendering of a tree every edge has the record of its target behind it. -/
theorem recordsFollow_rendering (t : Tree Mark) (behind : List Line) :
    RecordsFollow (rendering ann t) behind := by
  induction t using Tree.induction_on_children generalizing behind with
  | step t ih =>
    -- the renderings of the children stand one behind the other, so each is read with those of its
    -- later siblings behind it
    have hall : ∀ ts : List (Tree Mark), (∀ s ∈ ts, s ∈ t.subtrees) →
        RecordsFollow (ts.flatMap (rendering ann)) behind := by
      intro ts
      induction ts with
      | nil => intro _ before parent role child after heq; simp at heq
      | cons s ts ihts =>
        intro hts
        obtain ⟨p, hp, rfl⟩ := List.mem_map.1 (hts s List.mem_cons_self)
        rw [List.flatMap_cons]
        exact (ih p hp _).append (ihts fun s hs => hts s (List.mem_cons_of_mem _ hs))
    rw [rendering_eq]
    exact (recordsFollow_ofNode t behind).append (hall t.subtrees fun _ hs => hs)

end IntScript.Dot
