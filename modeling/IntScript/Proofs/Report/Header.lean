import IntScript.Proofs.Diagnostics
import IntScript.Proofs.Program
import IntScript.Proofs.Report.Lines
import IntScript.Proofs.Text.Codes
import IntScript.Report
import Mathlib.Data.Prod.Basic

/-!
# The places that reports show

At the head of a snippet stands the line and the column at which its diagnostic points. A report
takes the start of the span, which counts bytes, as a number of characters and looks it up on the
page. This is the right place exactly if every character before the span takes one byte and no other
character than a newline begins a new line before it. If too many bytes are counted as characters,
the span leaves the text and there is no snippet at all.
-/

namespace IntScript

namespace Text

/-- A text has at least as many bytes as characters. -/
theorem length_le_byteLength (cs : List Char) : cs.length ≤ byteLength cs := by
  induction cs with
  | nil => exact Nat.le_refl 0
  | cons c cs ih =>
    have hpos := c.utf8Size_pos
    rw [List.length_cons, byteLength]
    omega

/-- A text has as many bytes as characters exactly if every character takes one byte. -/
theorem byteLength_eq_length_iff {cs : List Char} :
    byteLength cs = cs.length ↔ ∀ c ∈ cs, c.utf8Size = 1 := by
  induction cs with
  | nil => simp [byteLength]
  | cons c cs ih =>
    have hpos := c.utf8Size_pos
    have hle := length_le_byteLength cs
    rw [List.forall_mem_cons, ← ih, byteLength, List.length_cons]
    omega

end Text

namespace Report

/-- The first line of a snippet, which shows a line and a column. -/
def headLine (indent : Nat) (name : String) (line column : Nat) : String :=
  Snippet.spaces indent ++ "╭─[ " ++ name ++ ":" ++ Decimal.text line ++ ":" ++
    Decimal.text column ++ " ]"

/-- The characters of the first line of a snippet. -/
theorem headLine_toList (indent : Nat) (name : String) (line column : Nat) :
    (headLine indent name line column).toList =
      List.replicate indent ' ' ++ '╭' :: (['─', '[', ' '] ++ name.toList ++ [':'] ++
        (Decimal.ofNat line ++ ':' :: (Decimal.ofNat column ++ ' ' :: [']']))) := by
  simp [headLine, Snippet.spaces, Decimal.text]

/-- The line and the column can be read off. -/
theorem headLine_inj {indent indent' : Nat} {name : String} {line line' column column' : Nat}
    (h : headLine indent name line column = headLine indent' name line' column') :
    line = line' ∧ column = column' := by
  have hspaces : ∀ n, (List.replicate n ' ').all (· == ' ') = true := by simp
  have hchars := congrArg String.toList h
  rw [headLine_toList, headLine_toList] at hchars
  have hbehind := (append_cons_inj (hspaces indent) (hspaces indent') rfl hchars).2
  have hnumbers := List.append_cancel_left hbehind
  obtain ⟨hline, hrest⟩ :=
    append_cons_inj (Decimal.ofNat_all line) (Decimal.ofNat_all line') rfl hnumbers
  have hcolumn :=
    (append_cons_inj (Decimal.ofNat_all column) (Decimal.ofNat_all column') rfl hrest).1
  exact ⟨Decimal.ofNat_injective hline, Decimal.ofNat_injective hcolumn⟩

/-- A snippet without colours starts with the line and the column of its place. -/
theorem Snippet.lines_head (s : Snippet) (hcolor : s.color = false) :
    s.lines[0]? = some (headLine (s.numberWidth + 2) s.name (s.firstLine + 1)
      (s.start - (s.line s.firstLine).offset + 1)) := by
  have hink : ∀ i text, s.ink i text = text := by
    intro i text
    rw [Snippet.ink, paint, hcolor]
    rfl
  rw [Snippet.lines]
  simp only [hink, List.cons_append, List.getElem?_cons_zero, Option.some.injEq]
  apply String.toList_inj.1
  rw [headLine_toList]
  simp [Snippet.spaces, Decimal.text]

/-- The report of an error, written without colours, shows a line and a column at the head of its
snippet. The head is the second line of the report, behind the message. -/
def Shows (name : String) (e : Error) (line column : Nat) : Prop :=
  ∃ indent, (errorLines false name e)[1]? = some (headLine indent name line column)

/-- The report of an error is that of its only diagnostic. -/
theorem errorLines_of_diagnostic {e : Error} {source : String} {d : Diagnostic}
    (hsource : e.source? = some source) (hd : e.diagnostics = [d]) (color : Bool) (name : String) :
    errorLines color name e = diagnosticLines color name source d := by
  rw [errorLines, hsource]
  dsimp only
  rw [hd, List.flatMap_singleton]

section Diagnostic

variable {source : String} {d : Diagnostic} {s : Span} (hs : d.span = some s)
  (hin : s.In source.toList) (hne : s.start < s.stop)
include hs hin hne

/-- The report of a diagnostic that points at a part of the source. It has no snippet if the span,
its bytes counted as characters, ends behind the text. -/
theorem diagnosticLines_eq (color : Bool) (name : String) :
    diagnosticLines color name source d = headerLine color d ::
      if source.toList.length + 1 < s.stop then []
      else Snippet.lines
        ⟨color, name, pageOf source.toList, s.start, s.stop, d.message, d.help⟩ := by
  have hstop : min s.stop (Text.byteLength source.toList) = s.stop := Nat.min_eq_left hin.2.le
  have hstart : min s.start s.stop = s.start := Nat.min_eq_left (Nat.le_of_lt hne)
  have houtside : (source.toList.length < s.start ∨
      s.start < s.stop ∧ source.toList.length < s.stop - 1) ↔
        source.toList.length + 1 < s.stop := by omega
  rw [diagnosticLines, hs]
  dsimp only
  rw [hstop, hstart]
  simp only [houtside]

/-- The head of the snippet shows the place on the page that has as many characters before it as the
span has bytes. -/
theorem diagnosticLines_head (hstop : s.stop ≤ source.toList.length + 1) (name : String) :
    ∃ indent, (diagnosticLines false name source d)[1]? =
      some (headLine indent name ((locate s.start (divide source.toList)).1 + 1)
        ((locate s.start (divide source.toList)).2 + 1)) := by
  have htext : source.toList ≠ [] := by
    intro hnil
    have hle := hin.2.le
    rw [hnil, Text.byteLength] at hle
    omega
  rw [diagnosticLines_eq hs hin hne, if_neg (Nat.not_lt.2 hstop), List.getElem?_cons_succ,
    Snippet.lines_head _ rfl, ← lineAt_pageOf htext, ← column_pageOf htext]
  exact ⟨_, rfl⟩

/-- What a report shows. -/
theorem shows_iff {e : Error} (hsource : e.source? = some source) (hd : e.diagnostics = [d])
    (name : String) (line column : Nat) :
    Shows name e (line + 1) (column + 1) ↔
      s.stop ≤ source.toList.length + 1 ∧
        locate s.start (divide source.toList) = (line, column) := by
  rw [Shows, errorLines_of_diagnostic hsource hd]
  constructor
  · rintro ⟨indent, hshown⟩
    have hstop : s.stop ≤ source.toList.length + 1 := by
      by_contra hout
      rw [diagnosticLines_eq hs hin hne, if_pos (Nat.lt_of_not_le hout)] at hshown
      cases hshown
    obtain ⟨indent', hhead⟩ := diagnosticLines_head hs hin hne hstop name
    rw [hhead] at hshown
    obtain ⟨hline, hcolumn⟩ := headLine_inj (Option.some.inj hshown)
    exact ⟨hstop, Prod.ext (Nat.succ.inj hline) (Nat.succ.inj hcolumn)⟩
  · rintro ⟨hstop, hlocate⟩
    obtain ⟨indent, hhead⟩ := diagnosticLines_head hs hin hne hstop name
    rw [hlocate] at hhead
    exact ⟨indent, hhead⟩

end Diagnostic

/-- Reports and spans agree on places only in plain texts. A diagnostic with a span that is not
empty points at a part of the source. Its report shows the line of the span and the column counted
in characters exactly if every character before the span takes one byte, only newlines begin new
lines before it, and the span does not leave the text when its bytes are counted as characters. -/
theorem shows_place_iff {source : String} {e : Error} (he : e.Of source) {d : Diagnostic}
    (hd : d ∈ e.diagnostics) {s : Span} (hs : d.span = some s) (hne : s.start < s.stop)
    (name : String) :
    s.In source.toList ∧
      ∀ before after, source.toList = before ++ after → Text.byteLength before = s.start →
        (Shows name e (s.lineColumn source.toList).1 ((placeBehind before).2 + 1) ↔
          (∀ c ∈ before, c.utf8Size = 1) ∧ OnlyNewlinesBreak before after ∧
            s.stop ≤ source.toList.length + 1) := by
  obtain ⟨hsource, honly, hpoints⟩ := he.diagnostic hd
  have hin := hpoints s hs
  refine ⟨hin, fun before after htext hbytes => ?_⟩
  have hafter : after ≠ [] := by
    rintro rfl
    have hle := hin.2.le
    rw [htext, List.append_nil, hbytes] at hle
    omega
  have hline : (s.lineColumn source.toList).1 = (placeBehind before).1 + 1 := by
    have hmin : min s.start (Text.byteLength source.toList) = s.start :=
      Nat.min_eq_left hin.1.le
    rw [Span.lineColumn, hmin, htext, ← hbytes, Text.takeBytes?_append]
    rfl
  have hlength : before.length ≤ s.start := hbytes ▸ Text.length_le_byteLength before
  rw [hline, shows_iff hs hin hne hsource honly, htext, Prod.mk.eta,
    locate_eq_placeBehind_iff hafter hlength, ← Text.byteLength_eq_length_iff, hbytes]
  tauto

/-- The tree of a program that prints a quotient by zero, with the spans of its nodes. -/
def printDivision (program statement print division one zero : Span) : Tree Span :=
  .block program [.ofExpression statement
    (.print print (.binary division .div (.literal one 1) (.literal zero 0)))]

/-- The error of a quotient by zero. -/
def divisionError (source : String) (division : Span) : Error :=
  .runtime ⟨.error, "division by zero", some division, none, some "R001"⟩ source false

/-- Printing a quotient by zero fails at the quotient. -/
theorem of_printDivision {source : String} {program statement print division one zero : Span}
    (h : parse source = .ok (printDivision program statement print division one zero)) :
    (divisionError source division).Of source := by
  have hcompile := Program.compile_of_parse h
  generalize (resolve .empty _).1 = layout at hcompile
  generalize (resolve .empty _).2 = ann at hcompile
  have heval : ∀ stack, Eval.run ⟨{}, ann, true, 1⟩
        (printDivision program statement print division one zero).number
        ⟨stack, .ofBytes [] false, {}, 0⟩ =
      (.failed ⟨.arithmetic .divisionByZero, some division⟩,
        ⟨stack, .ofBytes [] false, {}, 0⟩) := by
    intro stack
    cbv
  have hrun : ∃ m, Program.run ⟨source,
      (printDivision program statement print division one zero).number, layout, ann⟩ {} 1
      (.ofBytes [] false) {} = (.failed (divisionError source division), m) := by
    rw [Program.run]
    dsimp only [Program.start]
    rw [heval]
    exact ⟨_, rfl⟩
  obtain ⟨m, hrun⟩ := hrun
  exact .running hcompile hrun

/-- Behind a line of plain characters that ends with a carriage return and a newline, the quotient
is shown where it stands. -/
theorem shows_place_iff_plain :
    (divisionError "// e\r\nprint 1 / 0;" ⟨12, 17⟩).Of "// e\r\nprint 1 / 0;" ∧
      Shows defaultName (divisionError "// e\r\nprint 1 / 0;" ⟨12, 17⟩) 2 7 := by
  have hparse : parse "// e\r\nprint 1 / 0;" = .ok (printDivision ⟨0, 18⟩ ⟨6, 18⟩ ⟨6, 17⟩ ⟨12, 17⟩
      ⟨12, 13⟩ ⟨16, 17⟩) := by cbv
  have hof := of_printDivision hparse
  have hiff := (shows_place_iff hof List.mem_cons_self rfl (by decide) defaultName).2
    "// e\r\nprint ".toList "1 / 0;".toList (by decide) (by decide)
  have hbytes := Text.byteLength_eq_length_iff.1
    (by decide : Text.byteLength "// e\r\nprint ".toList = "// e\r\nprint ".toList.length)
  exact ⟨hof, hiff.2 ⟨hbytes, by decide, by decide⟩⟩

/-- Behind a letter of two bytes, the quotient is shown one column behind the one it stands in. -/
theorem shows_elsewhere_accent :
    (divisionError "// é\nprint 1 / 0;" ⟨12, 17⟩).Of "// é\nprint 1 / 0;" ∧
      "// é\nprint 1 / 0;".toList = "// é\nprint ".toList ++ "1 / 0;".toList ∧
      Text.byteLength "// é\nprint ".toList = 12 ∧
      (Span.lineColumn ⟨12, 17⟩ "// é\nprint 1 / 0;".toList).1 = 2 ∧
      (placeBehind "// é\nprint ".toList).2 + 1 = 7 ∧
      ¬ Shows defaultName (divisionError "// é\nprint 1 / 0;" ⟨12, 17⟩) 2 7 ∧
      Shows defaultName (divisionError "// é\nprint 1 / 0;" ⟨12, 17⟩) 2 8 := by
  have hparse : parse "// é\nprint 1 / 0;" = .ok (printDivision ⟨0, 18⟩ ⟨6, 18⟩ ⟨6, 17⟩ ⟨12, 17⟩
      ⟨12, 13⟩ ⟨16, 17⟩) := by cbv
  have hof := of_printDivision hparse
  obtain ⟨hsource, honly, hpoints⟩ := hof.diagnostic List.mem_cons_self
  have hshows := shows_iff rfl (hpoints _ rfl) (by decide) hsource honly defaultName
  refine ⟨hof, by decide, by decide, by decide, by decide, ?_, ?_⟩
  · rw [hshows 1 6]
    decide
  · rw [hshows 1 7]
    decide

end Report

end IntScript
