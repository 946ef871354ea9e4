import IntScript.Proofs.Grammar.Words
import IntScript.Proofs.Parse.Spans
import Mathlib.Data.Nat.PSub

/-!
# Lines and columns of places

The line and the column of a place in a text tell the place. The line counts the newlines before the
place and the column counts the bytes behind the last one, so the two scans have to agree about
where that newline stands. They do: the start of the line and the column add up to the place, and
places further on come later in the order of lines and then of columns.
-/

namespace IntScript

namespace Text

/-- The byte offset of the last newline of a text. -/
def lastNewline? : List Char → Option Nat
  | [] => none
  | c :: cs =>
    match lastNewline? cs with
    | some n => some (c.utf8Size + n)
    | none => if c = '\n' then some 0 else none

/-- The byte offset at which the line behind so many newlines starts. -/
def lineStart : Nat → List Char → Nat
  | 0, _ => 0
  | _ + 1, [] => 0
  | k + 1, c :: cs => c.utf8Size + lineStart (if c = '\n' then k else k + 1) cs

/-- The bytes of a text are those of the text backwards. -/
theorem byteLength_reverse (cs : List Char) : byteLength cs.reverse = byteLength cs := by
  induction cs with
  | nil => rfl
  | cons c cs ih =>
    rw [List.reverse_cons, byteLength_append, ih, byteLength, byteLength, byteLength]
    omega

/-- What is taken off a text stands at its front and has as many bytes. -/
theorem append_of_takeBytes? {cs before : List Char} {n : Nat}
    (h : takeBytes? cs n = some before) :
    byteLength before = n ∧ ∃ after, cs = before ++ after := by
  induction cs generalizing n before with
  | nil =>
    cases n with
    | zero => cases h; exact ⟨rfl, [], rfl⟩
    | succ n => cases h
  | cons c cs ih =>
    cases n with
    | zero => cases h; exact ⟨rfl, c :: cs, rfl⟩
    | succ n =>
      rw [takeBytes?] at h
      split at h
      · next hle =>
        obtain ⟨u, hu, rfl⟩ := Option.map_eq_some_iff.1 h
        obtain ⟨hlength, after, rfl⟩ := ih hu
        refine ⟨?_, after, rfl⟩
        rw [byteLength, hlength]
        omega
      · cases h

/-- A text has no newline, or it consists of what stands before its last newline, the newline and
the last line. -/
theorem lastNewline?_cases (cs : List Char) :
    '\n' ∉ cs ∧ lastNewline? cs = none ∨
      ∃ u v, cs = u ++ '\n' :: v ∧ '\n' ∉ v ∧ lastNewline? cs = some (byteLength u) := by
  induction cs with
  | nil => exact .inl ⟨List.not_mem_nil, rfl⟩
  | cons c cs ih =>
    rw [lastNewline?]
    rcases ih with ⟨hfree, hnone⟩ | ⟨u, v, rfl, hv, hsome⟩
    · rw [hnone]
      by_cases hc : c = '\n'
      · subst hc
        exact .inr ⟨[], cs, rfl, hfree, rfl⟩
      · refine .inl ⟨?_, by simp [hc]⟩
        simpa [hfree] using Ne.symm hc
    · rw [hsome]
      exact .inr ⟨c :: u, v, rfl, hv, rfl⟩

/-- Behind a newline with others before it starts the line of their number. -/
theorem lineStart_newline (u w : List Char) :
    lineStart (u.count '\n' + 1) (u ++ '\n' :: w) = byteLength u + 1 := by
  induction u with
  | nil =>
    simp only [List.count_nil, List.nil_append, lineStart, if_true, byteLength]
    rfl
  | cons c u ih =>
    rw [List.cons_append, lineStart, byteLength]
    by_cases hc : c = '\n'
    · subst hc
      rw [if_pos rfl, List.count_cons_self, ih, Nat.add_assoc]
    · rw [if_neg hc, List.count_cons_of_ne (by simpa using hc), ih, Nat.add_assoc]

end Text

namespace Span

open Text

/-- The column of a byte offset, worked out from the offset of the last newline before it. There is
none if a subtraction falls below zero. -/
def columnFrom? (start : Nat) (newline : Option Nat) : Option Nat :=
  match newline with
  | none => some (start + 1)
  | some n => do
    let behind ← start.psub n
    let column ← behind.psub 1
    return column + 1

/-- Backwards, a text without newlines is taken up to a newline that comes next. -/
theorem takeWhile_reverse_run {v rest : List Char} (h : '\n' ∉ v)
    (hrest : ∀ c ∈ rest.head?, (c != '\n') = false) :
    (v.reverse ++ rest).takeWhile (· != '\n') = v.reverse := by
  refine Grammar.takeWhile_run ?_ hrest
  rw [List.all_reverse, List.all_eq_true]
  exact fun c hc => bne_iff_ne.2 fun heq => h (heq ▸ hc)

/-- Without newlines the last line is the whole text. -/
theorem bytesBehindNewline_of_not_mem {cs : List Char} (h : '\n' ∉ cs) :
    bytesBehindNewline cs = byteLength cs := by
  have htake : (cs.reverse ++ []).takeWhile (· != '\n') = cs.reverse :=
    takeWhile_reverse_run h nofun
  rw [List.append_nil] at htake
  rw [bytesBehindNewline, htake, byteLength_reverse]

/-- The last line stands behind the last newline. -/
theorem bytesBehindNewline_append (u : List Char) {v : List Char} (h : '\n' ∉ v) :
    bytesBehindNewline (u ++ '\n' :: v) = byteLength v := by
  have hreverse : (u ++ '\n' :: v).reverse = v.reverse ++ '\n' :: u.reverse := by simp
  rw [bytesBehindNewline, hreverse, takeWhile_reverse_run h (by simp), byteLength_reverse]

/-- The line and the column of the place behind a text. -/
theorem lineColumn_append {s : Span} {before : List Char} (h : byteLength before = s.start)
    (after : List Char) :
    s.lineColumn (before ++ after) = (before.count '\n' + 1, bytesBehindNewline before + 1) := by
  have hmin : min s.start (byteLength (before ++ after)) = s.start := by
    rw [byteLength_append]
    omega
  rw [lineColumn, hmin, ← h, takeBytes?_append]

/-- The start of the last line and the bytes in it make up the bytes of a text. -/
theorem lineStart_add_bytesBehindNewline (before after : List Char) :
    lineStart (before.count '\n') (before ++ after) + bytesBehindNewline before =
      byteLength before := by
  rcases lastNewline?_cases before with ⟨hfree, -⟩ | ⟨u, v, rfl, hv, -⟩
  · rw [List.count_eq_zero.2 hfree, bytesBehindNewline_of_not_mem hfree, lineStart, Nat.zero_add]
  · have hcount : (u ++ '\n' :: v).count '\n' = u.count '\n' + 1 := by
      rw [List.count_append, List.count_cons_self, List.count_eq_zero.2 hv]
    rw [hcount, List.append_assoc, List.cons_append, lineStart_newline,
      bytesBehindNewline_append u hv, byteLength_append, byteLength]
    have hnewline : '\n'.utf8Size = 1 := rfl
    omega

/-- The column behind a text comes out of the offset of its last newline. -/
theorem columnFrom?_lastNewline? (before : List Char) :
    columnFrom? (byteLength before) (lastNewline? before) =
      some (bytesBehindNewline before + 1) := by
  rcases lastNewline?_cases before with ⟨hfree, hnone⟩ | ⟨u, v, rfl, hv, hsome⟩
  · rw [hnone, bytesBehindNewline_of_not_mem hfree]
    rfl
  · have hnewline : '\n'.utf8Size = 1 := rfl
    have hlength : byteLength (u ++ '\n' :: v) = byteLength v + 1 + byteLength u := by
      rw [byteLength_append, byteLength, hnewline]
      omega
    have hbehind : (byteLength (u ++ '\n' :: v)).psub (byteLength u) = some (byteLength v + 1) :=
      Nat.psub_eq_some.2 hlength.symm
    have hcolumn : (byteLength v + 1).psub 1 = some (byteLength v) := Nat.psub_eq_some.2 rfl
    rw [hsome, columnFrom?, hbehind, bytesBehindNewline_append u hv, Option.bind_eq_bind,
      Option.bind_some, hcolumn]
    rfl

/-- What lines and columns tell about the places of a text. -/
structure TellsPlaces (source : List Char) : Prop where
  /-- Places further on come later in the order of lines, and in one line in that of columns. -/
  increasing : ∀ s t : Span, IsPlace source s.start → IsPlace source t.start → s.start < t.start →
    Prod.Lex (· < ·) (· < ·) (s.lineColumn source) (t.lineColumn source)
  /-- Different places differ in their lines or columns. -/
  injective : ∀ s t : Span, IsPlace source s.start → IsPlace source t.start →
    s.lineColumn source = t.lineColumn source → s.start = t.start
  /-- The line is one more than the number of newlines before a place. -/
  line : ∀ (s : Span) (before after : List Char), source = before ++ after →
    byteLength before = s.start → (s.lineColumn source).1 = before.count '\n' + 1
  /-- A place lies as many bytes behind the start of its line as its column says, both being
  counted from one. -/
  recovered : ∀ s : Span, IsPlace source s.start →
    1 ≤ (s.lineColumn source).1 ∧ 1 ≤ (s.lineColumn source).2 ∧
      lineStart ((s.lineColumn source).1 - 1) source + ((s.lineColumn source).2 - 1) = s.start
  /-- No subtraction falls below zero when the column is worked out, wherever a span starts. -/
  column : ∀ s : Span,
    columnFrom? (min s.start (byteLength source))
      (lastNewline? ((takeBytes? source (min s.start (byteLength source))).getD [])) =
        some (s.lineColumn source).2

/-- Of two places the one further on is not in an earlier line. -/
theorem lineColumn_fst_le {source : List Char} {s t : Span} (hs : IsPlace source s.start)
    (ht : IsPlace source t.start) (h : s.start < t.start) :
    (s.lineColumn source).1 ≤ (t.lineColumn source).1 := by
  obtain ⟨before, after, rfl, hbefore⟩ := hs
  obtain ⟨before', after', htext, hbefore'⟩ := ht
  rw [lineColumn_append hbefore after]
  rcases List.append_eq_append_iff.1 htext with ⟨between, rfl, -⟩ | ⟨between, rfl, -⟩
  · rw [htext, lineColumn_append hbefore' after', List.count_append]
    omega
  · rw [byteLength_append] at hbefore
    omega

/-- A place lies as many bytes behind the start of its line as its column says. -/
theorem lineStart_add_column {source : List Char} {s : Span} (hs : IsPlace source s.start) :
    1 ≤ (s.lineColumn source).1 ∧ 1 ≤ (s.lineColumn source).2 ∧
      lineStart ((s.lineColumn source).1 - 1) source + ((s.lineColumn source).2 - 1) = s.start := by
  obtain ⟨before, after, rfl, hbefore⟩ := hs
  have hsum := lineStart_add_bytesBehindNewline before after
  rw [lineColumn_append hbefore after, Nat.add_sub_cancel, Nat.add_sub_cancel, hsum]
  exact ⟨Nat.le_add_left 1 _, Nat.le_add_left 1 _, hbefore⟩

/-- The column comes out of the offset of the last newline, wherever a span starts. -/
theorem columnFrom?_eq (s : Span) (source : List Char) :
    columnFrom? (min s.start (byteLength source))
      (lastNewline? ((takeBytes? source (min s.start (byteLength source))).getD [])) =
        some (s.lineColumn source).2 := by
  cases htake : takeBytes? source (min s.start (byteLength source)) with
  | none =>
    rw [lineColumn, htake]
    rfl
  | some before =>
    have hbefore := (append_of_takeBytes? htake).1
    rw [lineColumn, htake, Option.getD_some, ← hbefore, columnFrom?_lastNewline?]

/-- Lines and columns tell places exactly. Places further on have later lines or, in the same line,
later columns, so no two of them are told alike. The line counts the newlines before a place, the
start of the line and the column make up its offset, and no subtraction falls below zero when the
column is worked out. -/
theorem tellsPlaces (source : List Char) : TellsPlaces source where
  increasing := by
    intro s t hs ht h
    have hline := lineColumn_fst_le hs ht h
    obtain ⟨-, hs', hsum⟩ := lineStart_add_column hs
    obtain ⟨-, ht', hsum'⟩ := lineStart_add_column ht
    rcases Nat.lt_or_eq_of_le hline with hlt | heq
    · exact Prod.lex_def.2 (.inl hlt)
    · -- in one line the columns count from the same start
      rw [heq] at hsum
      exact Prod.lex_def.2 (.inr ⟨heq, by omega⟩)
  injective := by
    intro s t hs ht heq
    have hsum := (lineStart_add_column hs).2.2
    rw [heq, (lineStart_add_column ht).2.2] at hsum
    exact hsum.symm
  line := by
    rintro s before after rfl hbefore
    rw [lineColumn_append hbefore after]
  recovered := fun _ hs => lineStart_add_column hs
  column := fun s => columnFrom?_eq s source

example : lineColumn ⟨13, 14⟩ "x = 1;\nprint x;\n".toList = (2, 7) := by decide

end Span

end IntScript
