import IntScript.Proofs.Text.Codes
import IntScript.Proofs.Tree.Structure
import IntScript.Tree.Dot
import Mathlib.Data.List.Nodup

/-!
# What a caption tells

The caption of a node tells everything about the node but its children and its place: its kind, its
operator, its number, its name with its slot, the number of a block with the count of its
statements, and whether a branch has two alternatives. A last line that is found only in variables
or only in blocks keeps these apart from each other and from everything else, whatever the names
are.

A caption stands in quotes in a dump. Escaping it can be taken back, leaves no line feeds, and puts
a backslash in front of every quote, so the quotes around the caption are the only ones that open
and close.
-/

namespace IntScript

namespace Dot

/-- A text from which the escapes are removed. -/
def unescape : List Char → List Char
  | [] => []
  | '\\' :: c :: cs => (if c = 'n' then '\n' else c) :: unescape cs
  | c :: cs => c :: unescape cs

/-- A character is either escaped, and the escape stands for it, or it is neither a quote nor a
backslash and stands for itself. -/
theorem escapeChar_cases (c : Char) :
    (∃ d, escapeChar c = ['\\', d] ∧ (if d = 'n' then '\n' else d) = c) ∨
      (escapeChar c = [c] ∧ c ≠ '\\' ∧ c ≠ '"') := by
  by_cases hnewline : c = '\n'
  · exact .inl ⟨'n', by rw [escapeChar, if_pos hnewline], hnewline.symm⟩
  · by_cases hspecial : c ∈ ['<', '>', '{', '}', '|', '"', '\\']
    · have hn : c ≠ 'n' := by
        rintro rfl
        exact absurd hspecial (by decide)
      exact .inl ⟨c, by rw [escapeChar, if_neg hnewline, if_pos hspecial], if_neg hn⟩
    · refine .inr ⟨by rw [escapeChar, if_neg hnewline, if_neg hspecial], ?_, ?_⟩
      · rintro rfl
        exact hspecial (by decide)
      · rintro rfl
        exact hspecial (by decide)

/-- Removing the escapes finds a character again, whatever stands behind it. -/
theorem unescape_escapeChar (c : Char) (cs : List Char) :
    unescape (escapeChar c ++ cs) = c :: unescape cs := by
  rcases escapeChar_cases c with ⟨d, hform, hd⟩ | ⟨hform, hc, -⟩
  · rw [hform, List.cons_append, List.singleton_append, unescape, hd]
  · rw [hform, List.singleton_append]
    exact unescape.eq_3 _ _ fun d ds heq => absurd heq hc

/-- Removing the escapes finds a text again. -/
theorem unescape_escape (s : String) : unescape (escape s).toList = s.toList := by
  rw [escape, String.toList_ofList]
  induction s.toList with
  | nil => rfl
  | cons c cs ih => rw [List.flatMap_cons, unescape_escapeChar, ih]

/-- Different texts are escaped differently. -/
theorem escape_injective : Function.Injective escape := by
  intro s s' h
  have hsame : unescape (escape s).toList = unescape (escape s').toList := by rw [h]
  rwa [unescape_escape, unescape_escape, String.toList_inj] at hsame

/-- Whether a backslash at the end of a text escapes what comes next. -/
def opensEscape (cs : List Char) : Bool := cs.foldl (fun isOpen c => !isOpen && c == '\\') false

/-- A text that begins where no escape is open opens one exactly if it does so by itself. -/
theorem opensEscape_append {cs : List Char} (h : opensEscape cs = false) (ds : List Char) :
    opensEscape (cs ++ ds) = opensEscape ds := by
  rw [opensEscape, List.foldl_append]
  exact congrArg (ds.foldl _) h

/-- The form of a character leaves no escape open. -/
theorem opensEscape_escapeChar (c : Char) : opensEscape (escapeChar c) = false := by
  rcases escapeChar_cases c with ⟨d, hform, -⟩ | ⟨hform, hc, -⟩
  · rw [hform]
    rfl
  · rw [hform]
    exact beq_false_of_ne hc

/-- An escaped text leaves no escape open, so the quote behind it closes it. -/
theorem opensEscape_escape (s : String) : opensEscape (escape s).toList = false := by
  rw [escape, String.toList_ofList]
  induction s.toList with
  | nil => rfl
  | cons c cs ih =>
    rw [List.flatMap_cons, opensEscape_append (opensEscape_escapeChar c), ih]

/-- The only quote that the form of a character can have is escaped, and so are all behind it. -/
theorem opensEscape_of_flatMap {cs before after : List Char}
    (h : cs.flatMap escapeChar = before ++ '"' :: after) : opensEscape before = true := by
  induction cs generalizing before with
  | nil => cases List.append_eq_nil_iff.1 h.symm |>.2
  | cons c cs ih =>
    rw [List.flatMap_cons] at h
    rcases escapeChar_cases c with ⟨d, hform, -⟩ | ⟨hform, hc, hquote⟩
    · rw [hform, List.cons_append, List.singleton_append] at h
      match before, h with
      | [], h => cases h
      | [b], h =>
        cases h
        rfl
      | b :: b' :: before, h =>
        obtain ⟨rfl, htail⟩ := List.cons.inj h
        obtain ⟨rfl, hrest⟩ := List.cons.inj htail
        have hclosed : opensEscape ['\\', d] = false := rfl
        exact (opensEscape_append hclosed before).trans (ih hrest)
    · rw [hform, List.singleton_append] at h
      cases before with
      | nil => exact absurd (List.cons.inj h).1 hquote
      | cons b before =>
        obtain ⟨rfl, hrest⟩ := List.cons.inj h
        have hclosed : opensEscape [c] = false := beq_false_of_ne hc
        exact (opensEscape_append hclosed before).trans (ih hrest)

/-- Every quote in an escaped text is escaped. -/
theorem opensEscape_before_quote {s : String} {before after : List Char}
    (h : (escape s).toList = before ++ '"' :: after) : opensEscape before = true := by
  rw [escape, String.toList_ofList] at h
  exact opensEscape_of_flatMap h

end Dot

/-- The faces of nodes that need nothing but a word. -/
inductive PlainFace where
  | input
  | binary (op : BinaryOp)
  | unary (op : UnaryOp)
  | assignment
  | expression
  | condition
  | branch (isDouble : Bool)
  | loop
  | print
deriving DecidableEq

namespace PlainFace

/-- All plain faces. -/
def all : List PlainFace :=
  [input, assignment, expression, condition, branch false, branch true, loop, print] ++
    BinaryOp.all.map binary ++ UnaryOp.all.map unary

/-- The text of a plain face. -/
def text : PlainFace → String
  | .input => "Input"
  | .binary op => "Binary operation (" ++ op.symbol ++ ")"
  | .unary op => "Unary operation (" ++ op.symbol ++ ")"
  | .assignment => "Assignment (a = b)"
  | .expression => "Expression"
  | .condition => "Condition"
  | .branch false => "If"
  | .branch true => "If / else"
  | .loop => "While"
  | .print => "Print"

/-- The list of plain faces is complete. -/
theorem mem_all (f : PlainFace) : f ∈ all := by
  cases f with
  | binary op => cases op <;> decide
  | unary op => cases op <;> decide
  | branch b => cases b <;> decide
  | _ => decide

/-- Plain faces have different texts. -/
theorem text_injective : Function.Injective text := by
  have hdistinct : (all.map text).Nodup := by decide +kernel
  intro f g h
  exact List.inj_on_of_nodup_map hdistinct (mem_all f) (mem_all g) h

end PlainFace

/-- What the caption of a node tells. -/
inductive Face where
  | plain (face : PlainFace)
  | number (value : Value)
  | named (name : String) (slot : Option Nat)
  | block (number : Option BlockNumber) (count : Nat)

namespace Face

/-- The four families of faces. -/
inductive Family where
  | plain | number | named | block
deriving DecidableEq

/-- The family of a face. -/
def family : Face → Family
  | .plain _ => .plain
  | .number _ => .number
  | .named .. => .named
  | .block .. => .block

/-- What stands above the last line, if there is more than one. -/
def above : Face → Option String
  | .plain _ | .number _ => none
  | .named name _ => some name
  | .block none _ => some "Block"
  | .block (some b) _ =>
    some ("Block\nid = " ++ Decimal.text b.id ++ ", order = " ++ Decimal.text b.order)

/-- The last line. -/
def last : Face → String
  | .plain f => f.text
  | .number v => Value.text v
  | .named _ slot => "slot: " ++ String.ofList (Decimal.ofOption "unresolved".toList slot)
  | .block _ count => "statements: " ++ Decimal.text count

/-- The text of a face. -/
def text (f : Face) : String :=
  match f.above with
  | some s => s ++ "\n" ++ f.last
  | none => f.last

/-- A last line does not break. -/
theorem last_all (f : Face) : f.last.toList.all (· != '\n') = true := by
  have hdigit : ∀ c : Char, c.isDigit = true → (c != '\n') = true := fun c hc =>
    bne_of_isDigit hc rfl
  have hnumber : ∀ n, (Decimal.text n).toList.all (· != '\n') = true := fun n => by
    rw [Decimal.text, String.toList_ofList]
    exact List.all_eq_true.2 fun c hc => hdigit c (List.all_eq_true.1 (Decimal.ofNat_all n) c hc)
  cases f with
  | plain f =>
    have hall : ∀ f ∈ PlainFace.all, f.text.toList.all (· != '\n') = true := by decide +kernel
    exact hall f f.mem_all
  | number v =>
    rw [last, Value.text, String.toList_ofList]
    refine List.all_eq_true.2 fun c hc => ?_
    rcases Decimal.mem_chars hc with rfl | hc
    · rfl
    · exact hdigit c hc
  | named name slot =>
    have hslot := Decimal.ofOption_all "unresolved".toList hdigit (by decide) slot
    have hword : "slot: ".toList.all (· != '\n') = true := by decide
    rw [last, String.toList_append, List.all_append, hword, String.toList_ofList, hslot]
    rfl
  | block b count =>
    rw [last, String.toList_append, List.all_append, hnumber]
    decide

/-- The text of a face tells its last line and what stands above that. -/
theorem above_last_of_text {f g : Face} (h : f.text = g.text) :
    f.above = g.above ∧ f.last = g.last := by
  -- a text of one line is not one of several
  have hbreak : ∀ (f : Face) (s t : String), f.last ≠ s ++ "\n" ++ t := by
    intro f s t heq
    have hall := last_all f
    rw [heq] at hall
    simp at hall
  unfold text at h
  cases hf : f.above with
  | none =>
    cases hg : g.above with
    | none =>
      rw [hf, hg] at h
      exact ⟨rfl, h⟩
    | some t =>
      rw [hf, hg] at h
      exact absurd h (hbreak f t g.last)
  | some s =>
    cases hg : g.above with
    | none =>
      rw [hf, hg] at h
      exact absurd h.symm (hbreak g s f.last)
    | some t =>
      rw [hf, hg] at h
      have hlists := congrArg String.toList h
      simp only [String.toList_append, List.append_assoc] at hlists
      obtain ⟨habove, hlast⟩ := append_cons_inj_last f.last_all g.last_all (by decide) hlists
      rw [String.toList_inj] at habove hlast
      exact ⟨congrArg some habove, hlast⟩

/-- The family of faces to which a last line belongs, read off its first characters. -/
def Family.ofLine : List Char → Family
  | 's' :: 'l' :: _ => .named
  | 's' :: 't' :: _ => .block
  | c :: _ => if c.isUpper then .plain else .number
  | [] => .number

/-- The last line tells the family of a face. -/
theorem ofLine_last (f : Face) : Family.ofLine f.last.toList = f.family := by
  cases f with
  | plain f =>
    have hall : ∀ f ∈ PlainFace.all, Family.ofLine f.text.toList = .plain := by decide +kernel
    exact hall f f.mem_all
  | number v =>
    rw [last, Value.text, String.toList_ofList]
    cases hchars : Value.chars v with
    | nil => rfl
    | cons c cs =>
      rcases Decimal.mem_chars (hchars ▸ List.mem_cons_self) with rfl | hc
      · rfl
      · have hs : c ≠ 's' := by
          rintro rfl
          cases hc
        have hupper : c.isUpper = false := by
          refine decide_eq_false fun hle => ?_
          simp only [Char.isDigit] at hc
          grind
        unfold Family.ofLine
        split
        · next heq => exact absurd (List.cons.inj heq).1 hs
        · next heq => exact absurd (List.cons.inj heq).1 hs
        · next heq =>
          rw [← (List.cons.inj heq).1, hupper]
          rfl
        · rfl
  | named name slot =>
    rw [last, String.toList_append]
    rfl
  | block b count =>
    rw [last, String.toList_append]
    rfl

/-- What stands above the last line of a block tells its number. -/
theorem number_eq_of_above {b b' : Option BlockNumber} {count count' : Nat}
    (h : (Face.block b count).above = (Face.block b' count').above) : b = b' := by
  -- the first line is the whole text only if there is no number
  have hunknown : ∀ b : BlockNumber, (Face.block (some b) 0).above ≠ some "Block" := by
    intro b heq
    have hlists := congrArg String.toList (Option.some.inj heq)
    simp at hlists
  cases b with
  | none =>
    cases b' with
    | none => rfl
    | some b' => exact absurd h.symm (hunknown b')
  | some b =>
    cases b' with
    | none => exact absurd h (hunknown b)
    | some b' =>
      have hlists := congrArg String.toList (Option.some.inj h)
      simp only [String.toList_append, List.append_assoc, List.append_cancel_left_eq, Decimal.text,
        String.toList_ofList] at hlists
      obtain ⟨hid, horder⟩ := (append_stop_iff (Decimal.ofNat_all b.id) (Decimal.ofNat_all b'.id)
        (by decide : ", order = ".toList.head?.map _ = some false)).1 hlists
      cases b
      cases b'
      cases Decimal.ofNat_injective hid
      cases Decimal.ofNat_injective horder
      rfl

/-- Different faces have different texts. -/
theorem text_injective : Function.Injective text := by
  intro f g h
  obtain ⟨habove, hlast⟩ := above_last_of_text h
  have hfamily : f.family = g.family := by rw [← ofLine_last, hlast, ofLine_last]
  cases f with
  | plain f =>
    cases g with
    | plain g => exact congrArg plain (PlainFace.text_injective hlast)
    | _ => cases hfamily
  | number v =>
    cases g with
    | number w =>
      rw [last, last, Value.text, Value.text, String.ofList_inj] at hlast
      exact congrArg number (Value.chars_injective hlast)
    | _ => cases hfamily
  | named name slot =>
    cases g with
    | named name' slot' =>
      have hunknown := Decimal.ofOption_injective "unresolved".toList (by decide)
      rw [last, last, String.append_right_inj, String.ofList_inj] at hlast
      exact congrArg₂ named (Option.some.inj habove) (hunknown hlast)
    | _ => cases hfamily
  | block b count =>
    cases g with
    | block b' count' =>
      rw [last, last, String.append_right_inj, Decimal.text, Decimal.text,
        String.ofList_inj] at hlast
      exact congrArg₂ block (number_eq_of_above habove) (Decimal.ofNat_injective hlast)
    | _ => cases hfamily

/-- The node that has a face and children, if there is such a node. -/
def node? : Face → List (Tree Note) → Option (Tree Note)
  | .number v, [] => some (.literal ⟨none, none⟩ v)
  | .plain .input, [] => some (.input ⟨none, none⟩)
  | .named name slot, [] => some (.var ⟨slot, none⟩ name)
  | .plain (.binary op), [l, r] => some (.binary ⟨none, none⟩ op l r)
  | .plain (.unary op), [t] => some (.unary ⟨none, none⟩ op t)
  | .plain .assignment, [t, v] => some (.assign ⟨none, none⟩ t v)
  | .plain .expression, [c] => some (.sequence ⟨none, none⟩ c none)
  | .plain .expression, [c, r] => some (.sequence ⟨none, none⟩ c (some r))
  | .block b _, ts => some (.block ⟨none, b⟩ ts)
  | .plain .condition, [t] => some (.condition ⟨none, none⟩ t)
  | .plain (.branch false), [c, t] => some (.ifElse ⟨none, none⟩ c t none)
  | .plain (.branch true), [c, t, e] => some (.ifElse ⟨none, none⟩ c t (some e))
  | .plain .loop, [c, b] => some (.whileLoop ⟨none, none⟩ c b)
  | .plain .print, [t] => some (.print ⟨none, none⟩ t)
  | _, _ => none

end Face

namespace Tree

variable {ann ann₁ ann₂ : Annotations}

/-- What the caption of a node tells about it. -/
def face (ann : Annotations) : Tree Mark → Face
  | .literal _ v => .number v
  | .input _ => .plain .input
  | .var m name => .named name (ann.slot? (.var m name))
  | .binary _ op _ _ => .plain (.binary op)
  | .unary _ op _ => .plain (.unary op)
  | .assign .. => .plain .assignment
  | .sequence .. => .plain .expression
  | .block m ts => .block (ann.block? (.block m ts)) ts.length
  | .condition .. => .plain .condition
  | .ifElse _ _ _ e => .plain (.branch e.isSome)
  | .whileLoop .. => .plain .loop
  | .print .. => .plain .print

/-- A caption is the text of the face. -/
theorem caption_eq (t : Tree Mark) : t.caption ann = (t.face ann).text := by
  have hslot : "\nslot: " = "\n" ++ "slot: " := rfl
  have hblock : "Block\n" = "Block" ++ "\n" := rfl
  have hid : "Block\nid = " = "Block\n" ++ "id = " := rfl
  cases t with
  | var m name =>
    unfold caption face
    cases h : ann.slot? (.var m name) with
    | none =>
      simp only [h, hslot, Face.text, Face.above, Face.last, Decimal.ofOption, String.append_assoc,
        String.ofList_toList]
    | some slot =>
      simp only [h, hslot, Face.text, Face.above, Face.last, Decimal.ofOption, String.append_assoc,
        Decimal.text]
  | block m ts =>
    unfold caption face
    cases h : ann.block? (.block m ts) with
    | none =>
      simp only [h, hblock, Face.text, Face.above, Face.last, String.append_assoc,
        String.empty_append]
    | some b => simp only [h, hid, Face.text, Face.above, Face.last, String.append_assoc]
  | ifElse m c t e => cases e <;> rfl
  | _ => rfl

/-- A node is put together again from its face and its children. -/
theorem node?_face (ann : Annotations) (t : Tree Mark) :
    (t.face ann).node? (t.subtrees.map (withNotes ann)) = some (t.withNotes ann) := by
  cases t with
  | sequence a c rest => cases rest <;> rfl
  | block a ts =>
    rw [subtrees_block, withNotes, annotate, annotateAll_eq_map]
    rfl
  | ifElse a c t e => cases e <;> rfl
  | _ => rfl

/-- A node is known by its face and its children. -/
theorem withNotes_eq_of_face {t u : Tree Mark} (hface : t.face ann₁ = u.face ann₂)
    (hsub : t.subtrees.map (withNotes ann₁) = u.subtrees.map (withNotes ann₂)) :
    t.withNotes ann₁ = u.withNotes ann₂ := by
  have hnode := node?_face ann₁ t
  rw [hface, hsub, node?_face] at hnode
  exact (Option.some.inj hnode).symm

end Tree
end IntScript
