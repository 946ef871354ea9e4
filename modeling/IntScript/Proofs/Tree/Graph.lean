import IntScript.Proofs.Tree.Drawing
import IntScript.Proofs.Tree.Numbering

/-!
# Dumps read as graphs

A dump is cut into lines, and each line is read by its form alone. The record of a node has the form
`name [shape = record, label="caption"]`, and an edge has the form `parent -> child [label="role"]`.
If the names of the nodes are words and no two nodes have the same name, the records and the edges
that are found in a dump are those of the tree.
-/

namespace IntScript.Dot

variable {ann : Annotations} {name : Nat → String} {root : Tree Mark}

/-- The lines of a text, with what stands behind the last line feed. -/
def linesOf (text : String) : List (List Char) := text.toList.splitOn '\n'

/-- The name and the caption in a line of the form `name [shape = record, label="caption"]`. -/
def readRecord? (line : List Char) : Option (List Char × List Char) := do
  let behind ← (line.dropWhile (· != ' ')).dropPrefix? " [shape = record, label=\"".toList
  let caption ← behind.dropSuffix? "\"]".toList
  return (line.takeWhile (· != ' '), caption)

/-- The names and the role in a line of the form `parent -> child [label="role"]`. -/
def readEdge? (line : List Char) : Option (List Char × List Char × List Char) := do
  let behind ← (line.dropWhile (· != ' ')).dropPrefix? " -> ".toList
  let label ← (behind.dropWhile (· != ' ')).dropPrefix? " [label=\"".toList
  let role ← label.dropSuffix? "\"]".toList
  return (line.takeWhile (· != ' '), role, behind.takeWhile (· != ' '))

section Reading

/-- A word ends in front of the first blank. -/
theorem takeWhile_word {word : List Char} (hword : ∀ c ∈ word, (c != ' ') = true)
    {opening : List Char} (hopening : opening.head? = some ' ') (rest : List Char) :
    (word ++ (opening ++ rest)).takeWhile (· != ' ') = word ∧
      (word ++ (opening ++ rest)).dropWhile (· != ' ') = opening ++ rest := by
  obtain ⟨cs, rfl⟩ := List.head?_eq_some_iff.1 hopening
  rw [List.takeWhile_append_of_pos hword, List.dropWhile_append_of_pos hword]
  simp

/-- What stands behind an opening. -/
theorem dropPrefix?_append (opening rest : List Char) :
    (opening ++ rest).dropPrefix? opening = some rest :=
  List.dropPrefix?_append_of_beq rest BEq.rfl

/-- What stands in front of an ending. -/
theorem dropSuffix?_append (front ending : List Char) :
    (front ++ ending).dropSuffix? ending = some front :=
  List.dropSuffix?_eq_some_iff.2 ⟨ending, rfl, BEq.rfl⟩

/-- Names that are words have no blanks. -/
theorem NamesAreWords.ne_blank (h : NamesAreWords name) (id : Nat) :
    ∀ c ∈ (name id).toList, (c != ' ') = true := by
  intro c hc
  have hboth := List.all_eq_true.1 (h id) c hc
  rw [Bool.and_eq_true] at hboth
  exact hboth.1

/-- The record that is read off a line is that of the line, and there is none in an edge. -/
theorem readRecord?_chars (h : NamesAreWords name) (line : Line) :
    readRecord? (line.chars name) =
      line.record?.map fun r => ((name r.1).toList, (escape r.2).toList) := by
  cases line with
  | record id caption =>
    obtain ⟨htake, hdrop⟩ := takeWhile_word (h.ne_blank id) (rfl :
      " [shape = record, label=\"".toList.head? = some ' ') ((escape caption).toList ++ "\"]".toList)
    rw [readRecord?, Line.chars, htake, hdrop, dropPrefix?_append, Option.bind_eq_bind,
      Option.bind_some, dropSuffix?_append]
    rfl
  | edge parent role child =>
    obtain ⟨-, hdrop⟩ := takeWhile_word (h.ne_blank parent) (rfl : " -> ".toList.head? = some ' ')
      ((name child).toList ++ (" [label=\"".toList ++ ((escape role.text).toList ++ "\"]".toList)))
    rw [readRecord?, Line.chars, hdrop]
    rfl

/-- The edge that is read off a line is that of the line, and there is none in a record. -/
theorem readEdge?_chars (h : NamesAreWords name) (line : Line) :
    readEdge? (line.chars name) =
      line.edge?.map fun e =>
        ((name e.1).toList, (escape e.2.1.text).toList, (name e.2.2).toList) := by
  cases line with
  | record id caption =>
    obtain ⟨-, hdrop⟩ := takeWhile_word (h.ne_blank id) (rfl :
      " [shape = record, label=\"".toList.head? = some ' ') ((escape caption).toList ++ "\"]".toList)
    rw [readEdge?, Line.chars, hdrop]
    rfl
  | edge parent role child =>
    obtain ⟨htake, hdrop⟩ := takeWhile_word (h.ne_blank parent)
      (rfl : " -> ".toList.head? = some ' ')
      ((name child).toList ++ (" [label=\"".toList ++ ((escape role.text).toList ++ "\"]".toList)))
    obtain ⟨htake', hdrop'⟩ := takeWhile_word (h.ne_blank child)
      (rfl : " [label=\"".toList.head? = some ' ') ((escape role.text).toList ++ "\"]".toList)
    rw [readEdge?, Line.chars, htake, hdrop, dropPrefix?_append, Option.bind_eq_bind,
      Option.bind_some, htake', hdrop', dropPrefix?_append, Option.bind_some, dropSuffix?_append]
    rfl

end Reading

/-- A text is cut at the line feeds that end its lines. -/
theorem splitOn_lines {lines : List (List Char)} (h : ∀ line ∈ lines, '\n' ∉ line)
    (rest : List Char) :
    (lines.flatMap (· ++ ['\n']) ++ rest).splitOn '\n' = lines ++ rest.splitOn '\n' := by
  induction lines with
  | nil => rfl
  | cons line lines ih =>
    have hlines := ih fun line hl => h line (List.mem_cons_of_mem _ hl)
    rw [List.flatMap_cons, List.append_assoc, List.append_assoc, List.singleton_append,
      List.splitOn_append_cons_self_of_not_mem (h line List.mem_cons_self), hlines,
      List.cons_append]

/-- The lines of a dump are those of the rendering between the first and the last one; nothing
stands behind the last line feed. -/
theorem linesOf_dumpAs (h : NamesAreWords name) (ann : Annotations) (root : Tree Mark) :
    linesOf (dumpAs name ann root) = "digraph G \x7b".toList ::
      ((rendering ann root).map (Line.chars name) ++ ["\x7d".toList, []]) := by
  have hbody : (String.join ((rendering ann root).map (Line.text name))).toList =
      ((rendering ann root).map (Line.chars name)).flatMap (· ++ ['\n']) := by
    rw [String.toList_join, List.flatMap_map, List.flatMap_map]
    exact congrArg (List.flatMap · _) (funext (Line.toList_text name))
  have hchars : ∀ line ∈ (rendering ann root).map (Line.chars name), '\n' ∉ line := by
    intro line hline
    obtain ⟨l, -, rfl⟩ := List.mem_map.1 hline
    exact l.newline_not_mem_chars h
  have hfirst : "digraph G \x7b\n".toList = "digraph G \x7b".toList ++ ['\n'] := by decide
  have hlast : "\x7d\n".toList.splitOn '\n' = ["\x7d".toList, []] := by decide
  rw [linesOf, dumpAs_eq, String.toList_append, String.toList_append, hbody, hfirst,
    List.append_assoc, List.append_assoc, List.singleton_append,
    List.splitOn_append_cons_self_of_not_mem (by decide), splitOn_lines hchars, hlast]

/-- What the lines of a text say that draws a tree. -/
structure Draws (name : Nat → String) (ann : Annotations) (root : Tree Mark) (text : String) :
    Prop where
  /-- Between the first line and the last one stand the records and the edges of the recursive
  rendering, one in each line. -/
  rendered : ∃ body, linesOf text = "digraph G \x7b".toList :: (body ++ ["\x7d".toList, []]) ∧
    body.map readRecord? = (rendering ann root).map (fun line => line.record?.map fun r =>
      ((name r.1).toList, (escape r.2).toList)) ∧
    body.map readEdge? = (rendering ann root).map (fun line => line.edge?.map fun e =>
      ((name e.1).toList, (escape e.2.1.text).toList, (name e.2.2).toList))
  /-- There is one record for each node. -/
  records : ((linesOf text).filterMap readRecord?).length = root.nodes.length
  /-- There is one edge less. -/
  edges : ((linesOf text).filterMap readEdge?).length = root.nodes.length - 1
  /-- Every node has one record under its name. -/
  one_record : ∀ n ∈ root.nodes,
    (((linesOf text).filterMap readRecord?).map (·.1)).count (name n.id).toList = 1
  /-- The record of a node has its caption. -/
  caption : ∀ n ∈ root.nodes,
    ((name n.id).toList, (escape (n.caption ann)).toList) ∈ (linesOf text).filterMap readRecord?
  /-- Every node but the root is the target of exactly one edge. -/
  one_edge : ∀ n ∈ root.nodes, n.id ≠ root.id →
    (((linesOf text).filterMap readEdge?).map (·.2.2)).count (name n.id).toList = 1
  /-- No edge leads to the root. -/
  root_alone : (name root.id).toList ∉ ((linesOf text).filterMap readEdge?).map (·.2.2)
  /-- An edge leads to a node whose record comes later. -/
  record_later : ∀ before line after parent role child,
    linesOf text = before ++ line :: after → readEdge? line = some (parent, role, child) →
      ∃ n ∈ root.nodes, (name n.id).toList = child ∧
        ∃ record ∈ after, readRecord? record = some (child, (escape (n.caption ann)).toList)


section Dumps

variable (hwords : NamesAreWords name)

include hwords

/-- The records that are read off a dump are those of the nodes in pre-order. -/
theorem records_dumpAs (ann : Annotations) (root : Tree Mark) :
    (linesOf (dumpAs name ann root)).filterMap readRecord? =
      root.nodes.map fun t => ((name t.id).toList, (escape (t.caption ann)).toList) := by
  have hread : (readRecord? ∘ Line.chars name) = fun line =>
      line.record?.map fun r => ((name r.1).toList, (escape r.2).toList) :=
    funext (readRecord?_chars hwords)
  have hfirst : readRecord? "digraph G \x7b".toList = none := by decide
  have hlast : ["\x7d".toList, []].filterMap readRecord? = [] := by decide
  rw [linesOf_dumpAs hwords, List.filterMap_cons_none hfirst, List.filterMap_append, hlast,
    List.append_nil, List.filterMap_map, hread, ← List.map_filterMap, records_rendering,
    List.map_map]
  rfl

/-- The edges that are read off a dump are those of the tree. -/
theorem edges_dumpAs (ann : Annotations) (root : Tree Mark) :
    (linesOf (dumpAs name ann root)).filterMap readEdge? = root.edges.map fun e =>
      ((name e.1).toList, (escape e.2.1.text).toList, (name e.2.2).toList) := by
  have hread : (readEdge? ∘ Line.chars name) = fun line => line.edge?.map fun e =>
      ((name e.1).toList, (escape e.2.1.text).toList, (name e.2.2).toList) :=
    funext (readEdge?_chars hwords)
  have hfirst : readEdge? "digraph G \x7b".toList = none := by decide
  have hlast : ["\x7d".toList, []].filterMap readEdge? = [] := by decide
  rw [linesOf_dumpAs hwords, List.filterMap_cons_none hfirst, List.filterMap_append, hlast,
    List.append_nil, List.filterMap_map, hread, ← List.map_filterMap, edges_rendering]

/-- A line from which an edge can be read is a line of the rendering, and what comes behind it there
comes behind it in the dump. -/
theorem exists_line_of_readEdge? {before after : List (List Char)} {line : List Char}
    (hlines : linesOf (dumpAs name ann root) = before ++ line :: after)
    (hedge : readEdge? line ≠ none) : ∃ first edge rest,
      rendering ann root = first ++ edge :: rest ∧ edge.chars name = line ∧
        ∀ l ∈ rest, l.chars name ∈ after := by
  have hframe : ∀ cs ∈ ["digraph G \x7b".toList, "\x7d".toList, []], readEdge? cs = none := by
    decide
  rw [linesOf_dumpAs hwords] at hlines
  cases before with
  | nil =>
    obtain ⟨rfl, -⟩ := List.cons.inj hlines
    exact absurd (hframe _ List.mem_cons_self) hedge
  | cons first before =>
    rcases List.append_eq_append_iff.1 (List.cons.inj hlines).2 with
      ⟨middle, -, hlast⟩ | ⟨middle, hmap, hrest⟩
    · have hmem : line ∈ ["\x7d".toList, []] := by
        rw [hlast]
        exact List.mem_append_right _ List.mem_cons_self
      exact absurd (hframe line (List.mem_cons_of_mem _ hmem)) hedge
    · cases middle with
      | nil =>
        obtain ⟨rfl, -⟩ := List.cons.inj hrest
        exact absurd (hframe _ (List.mem_cons_of_mem _ List.mem_cons_self)) hedge
      | cons cs middle =>
        obtain ⟨rfl, rfl⟩ := List.cons.inj hrest
        obtain ⟨front, back, hrendering, -, hback⟩ := List.map_eq_append_iff.1 hmap
        obtain ⟨edge, rest, rfl, hline, rfl⟩ := List.map_eq_cons_iff.1 hback
        refine ⟨front, edge, rest, hrendering, hline, fun l hl => ?_⟩
        exact List.mem_append_left _ (List.mem_map_of_mem hl)

/-- Behind an edge in a dump, the record of the node to which it leads can be read. -/
theorem record_behind_edge {before after : List (List Char)} {line parent role child : List Char}
    (hlines : linesOf (dumpAs name ann root) = before ++ line :: after)
    (hedge : readEdge? line = some (parent, role, child)) :
    ∃ n ∈ root.nodes, (name n.id).toList = child ∧
      ∃ record ∈ after, readRecord? record = some (child, (escape (n.caption ann)).toList) := by
  obtain ⟨first, edge, rest, hrendering, rfl, hafter⟩ :=
    exists_line_of_readEdge? hwords hlines (by rw [hedge]; exact Option.some_ne_none _)
  rw [readEdge?_chars hwords] at hedge
  cases edge with
  | record id caption => cases hedge
  | edge source r target =>
    cases hedge
    obtain ⟨caption, hlater⟩ :=
      recordsFollow_rendering root [] first source r target rest hrendering
    rw [List.append_nil] at hlater
    have hrecord : (target, caption) ∈ (rendering ann root).filterMap Line.record? := by
      refine List.mem_filterMap.2 ⟨.record target caption, ?_, rfl⟩
      rw [hrendering]
      exact List.mem_append_right _ (List.mem_cons_of_mem _ hlater)
    rw [records_rendering, List.mem_map] at hrecord
    obtain ⟨n, hn, hpair⟩ := hrecord
    cases hpair
    exact ⟨n, hn, rfl, _, hafter _ hlater, readRecord?_chars hwords _⟩

end Dumps

/-- If the names of the nodes are words and all of them differ, a dump draws the tree. -/
theorem draws_dumpAs (hwords : NamesAreWords name)
    (hnames : (root.nodes.map fun n => name n.id).Nodup) :
    Draws name ann root (dumpAs name ann root) := by
  have hlist : (root.nodes.map fun n => (name n.id).toList).Nodup := by
    have hchars := hnames.map fun _ _ => String.toList_injective
    rwa [List.map_map] at hchars
  have hids : (root.nodes.map Tree.id).Nodup := by
    have hboth : ((root.nodes.map Tree.id).map name).Nodup := by rwa [List.map_map]
    exact hboth.of_map name
  have htargets : ((root.edges.map (·.2.2)).map fun id => (name id).toList).Nodup := by
    refine ((Tree.edges_targets_perm root).map _).nodup_iff.2 ?_
    rw [List.map_map]
    exact hlist.sublist ((List.tail_sublist root.nodes).map _)
  refine ⟨⟨_, linesOf_dumpAs hwords ann root, ?_, ?_⟩, ?_, ?_, ?_, ?_, ?_, ?_, ?_⟩
  · rw [List.map_map]
    exact List.map_congr_left fun line _ => readRecord?_chars hwords line
  · rw [List.map_map]
    exact List.map_congr_left fun line _ => readEdge?_chars hwords line
  · rw [records_dumpAs hwords, List.length_map]
  · have hlength := (Tree.edges_targets_perm root).length_eq
    rw [List.length_map, List.length_map, List.length_tail] at hlength
    rw [edges_dumpAs hwords, List.length_map, hlength]
  · intro n hn
    rw [records_dumpAs hwords, List.map_map]
    exact List.count_eq_one_of_mem hlist (List.mem_map_of_mem hn)
  · intro n hn
    rw [records_dumpAs hwords]
    exact List.mem_map_of_mem hn
  · intro n hn hne
    have hmem := (Tree.mem_edges_targets_iff hids).2 ⟨List.mem_map_of_mem hn, hne⟩
    rw [edges_dumpAs hwords, List.map_map]
    rw [List.map_map] at htargets
    refine List.count_eq_one_of_mem htargets ?_
    obtain ⟨e, he, heq⟩ := List.mem_map.1 hmem
    exact List.mem_map.2 ⟨e, he, congrArg (fun id => (name id).toList) heq⟩
  · intro hmem
    rw [edges_dumpAs hwords, List.map_map] at hmem
    obtain ⟨e, he, heq⟩ := List.mem_map.1 hmem
    obtain ⟨htarget, hne⟩ := (Tree.mem_edges_targets_iff hids).1 (List.mem_map_of_mem he)
    obtain ⟨n, hn, hid⟩ := List.mem_map.1 htarget
    have hroot : n = root := by
      refine List.inj_on_of_nodup_map hlist hn root.mem_nodes_self ?_
      rw [hid]
      exact heq
    exact hne (hid ▸ hroot ▸ rfl)
  · intro before line after parent role child
    exact record_behind_edge hwords

section Names

/-- A word with different numbers behind it makes different names. -/
theorem numbered_injective (word : String) :
    Function.Injective fun n => word ++ Decimal.text n := by
  intro m n h
  exact Decimal.ofNat_injective (String.ofList_injective ((String.append_right_inj word).1 h))

/-- Nodes with different identities have different names by order of first appearance. -/
theorem nodup_nodeName (hids : (root.nodes.map Tree.id).Nodup) :
    (root.nodes.map fun n => nodeName (numbering (mentions root)) n.id).Nodup := by
  have hnumber : ∀ n ∈ root.nodes, ∃ k, (numbering (mentions root))[n.id]? = some k := by
    intro n hn
    exact exists_number (List.mem_flatMap.2 ⟨n, hn, List.mem_cons_self⟩)
  refine List.Nodup.map_on (fun n hn m hm hname => ?_) (hids.of_map Tree.id)
  obtain ⟨k, hk⟩ := hnumber n hn
  obtain ⟨l, hl⟩ := hnumber m hm
  rw [nodeName, nodeName, hk, hl] at hname
  cases numbered_injective "n" hname
  exact List.inj_on_of_nodup_map hids hn hm (number_injective hk hl)

end Names

/-- Whatever the nodes are called, the dump of a tree is its recursive rendering between the first
and the last line: the record of the root, the edges to its children, and then the renderings of the
children. If the names are words and no two nodes have the same name, the lines of the dump draw the
tree: what can be read in them is that rendering, there is a record for each node and one edge less,
each node but the root is the target of one edge, and the record of a node stands behind the edge
that leads to it. The names by order of first appearance do so for all trees whose nodes have
different identities. -/
theorem dumpAs_draws (name : Nat → String) (ann : Annotations) (root : Tree Mark) :
    dumpAs name ann root =
        "digraph G \x7b\n" ++ String.join ((rendering ann root).map (Line.text name)) ++ "\x7d\n" ∧
      (NamesAreWords name → (root.nodes.map fun n => name n.id).Nodup →
        Draws name ann root (dumpAs name ann root)) ∧
      ((root.nodes.map Tree.id).Nodup →
        Draws (nodeName (numbering (mentions root))) ann root (dump ann root)) := by
  refine ⟨dumpAs_eq name root, draws_dumpAs, fun hids => ?_⟩
  exact draws_dumpAs (namesAreWords_nodeName _) (nodup_nodeName hids)

/-- A sum of two numbers is drawn with three records and two edges, whether its nodes are called by
their identities or by order of first appearance. -/
theorem dumpAs_draws_sum :
    let name := fun id => "node" ++ Decimal.text id
    let root : Tree Mark := .binary ⟨0, none⟩ .add (.literal ⟨1, none⟩ 1) (.literal ⟨2, none⟩ 2)
    Draws name .empty root (dumpAs name .empty root) ∧
      Draws (nodeName (numbering (mentions root))) .empty root (dump .empty root) := by
  intro name root
  have hwords : NamesAreWords name := namesAreWords_numbered (by decide) fun id => id
  have hids : (root.nodes.map Tree.id).Nodup := by decide
  have hnames : (root.nodes.map fun n => name n.id).Nodup := by
    have hmap := hids.map (numbered_injective "node")
    rwa [List.map_map] at hmap
  obtain ⟨-, hdraws, hdump⟩ := dumpAs_draws name .empty root
  exact ⟨hdraws hwords hnames, hdump hids⟩

end IntScript.Dot
