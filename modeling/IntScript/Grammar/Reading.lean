import IntScript.Grammar.Attempts
import IntScript.Text.Utf8

/-!
# Reading a text by the grammar

A phrase is read at a place in a text. The reading gives the place behind the phrase and the
fragments that were found, or it fails; either way it keeps the log of attempts.

Reading terminates because a phrase never gives back text: what it calls at the very place where it
started has a lower rank, and everything else is called with less text left. The function
`Phrase.search` carries the proof that the text left does not grow, and `Phrase.read` is the same
function without it.
-/

namespace IntScript.Grammar

/-- A place in a text. -/
structure Cursor where
  /-- The text from here on. -/
  rest : List Char
  /-- The byte offset of the place. -/
  pos : Nat

namespace Cursor

/-- The start of a text. -/
def atStart (source : List Char) : Cursor := ⟨source, 0⟩

/-- The place behind a word. -/
def past (c : Cursor) (word rest : List Char) : Cursor := ⟨rest, c.pos + Text.byteLength word⟩

/-- The place behind the spaces and comments that a text starts with, the text being the rest of
a comment if `inComment` is set. -/
def skipFrom (inComment : Bool) : List Char → Nat → Cursor
  | [], pos => ⟨[], pos⟩
  | c :: cs, pos =>
    if inComment then skipFrom (c != '\n') cs (pos + c.utf8Size)
    else if isSpace c then skipFrom false cs (pos + c.utf8Size)
    else if c == '/' && cs.head? == some '/' then skipFrom true cs (pos + c.utf8Size)
    else ⟨c :: cs, pos⟩

/-- The place behind any spaces and comments. -/
def skip (c : Cursor) : Cursor := skipFrom false c.rest c.pos

/-- Skipping never adds text, inside a comment or outside. -/
theorem skipFrom_length (inComment : Bool) (cs : List Char) (pos : Nat) :
    (skipFrom inComment cs pos).rest.length ≤ cs.length := by
  induction cs generalizing inComment pos with
  | nil => simp [skipFrom]
  | cons c cs ih =>
    simp only [skipFrom]
    split
    · exact Nat.le_succ_of_le (ih _ _)
    · split
      · exact Nat.le_succ_of_le (ih _ _)
      · split
        · exact Nat.le_succ_of_le (ih _ _)
        · exact Nat.le_refl _

/-- Skipping never adds text. -/
theorem skip_length (c : Cursor) : c.skip.rest.length ≤ c.rest.length :=
  skipFrom_length _ _ _

end Cursor

/-- A part of a text that was read by a rule. -/
inductive Fragment where
  /-- A word with its place and its text. -/
  | word (rule : Rule) (start : Nat) (text : List Char)
  /-- A phrase with its place, the place behind it, and the fragments inside it. -/
  | phrase (rule : Rule) (start stop : Nat) (inner : List Fragment)

/-- Whether one place lies behind another: strictly, or possibly at the same place. -/
def Behind (strict : Bool) (c d : Cursor) : Prop :=
  d.rest.length ≤ c.rest.length ∧ (strict = true → d.rest.length < c.rest.length)

/-- The place behind a phrase and the fragments found in it. -/
abbrev Found := Cursor × List Fragment

/-- The end of a word lies behind its start. -/
theorem Behind.of_scan {w : Word} {c : Cursor} {t rest : List Char}
    (h : w.scan c.rest = some (t, rest)) : Behind w.consumes c (c.past t rest) := by
  obtain ⟨h, ht⟩ := Word.scan_append h
  have hl : c.rest.length = t.length + rest.length := by rw [h, List.length_append]
  refine ⟨by simp only [Cursor.past]; omega, fun hc => ?_⟩
  have := List.length_pos_iff.2 (ht hc)
  simp only [Cursor.past]
  omega

/-- A place that lies strictly behind another one also lies behind it. -/
theorem Behind.weaken {a b : Bool} {c d : Cursor} (h : Behind a c d) (hb : b = true → a = true) :
    Behind b c d :=
  ⟨h.1, fun hb' => h.2 (hb hb')⟩

/-- A place behind what a rule stands for is a place behind the rule. -/
theorem Behind.of_definition {r : Rule} {f : Definition} {c d : Cursor} (hr : r.definition = f)
    (h : Behind f.consumes c d) : Behind r.consumes c d :=
  h.weaken fun hc => hr ▸ r.consumes_definition hc

/-- Every place lies behind itself, but not strictly. -/
theorem Behind.refl (c : Cursor) : Behind false c c := ⟨Nat.le_refl _, by simp⟩

/-- Two phrases with space between them take text if one of them does. -/
theorem Behind.trans_skip {a b : Bool} {c d e : Cursor} (h : Behind a c d)
    (h' : Behind b d.skip e) : Behind (a || b) c e := by
  have hs := d.skip_length
  refine ⟨Nat.le_trans h'.1 (Nat.le_trans hs h.1), fun hab => ?_⟩
  have hab : a = true ∨ b = true := by simpa using hab
  rcases hab with ha | hb
  · have := h.2 ha
    have := h'.1
    omega
  · have := h'.2 hb
    have := h.1
    omega

/-- Going on never loses what was gained. -/
theorem Behind.trans {a : Bool} {c d e : Cursor} (h : Behind a c d) (h' : Behind false d e) :
    Behind a c e := by
  refine ⟨Nat.le_trans h'.1 h.1, fun ha => ?_⟩
  have := h.2 ha
  have := h'.1
  omega

/-- A place behind the space is a place behind what stands before it. -/
theorem Behind.skip_first {a : Bool} {c d : Cursor} (h : Behind a c.skip d) : Behind a c d := by
  have hs := c.skip_length
  refine ⟨Nat.le_trans h.1 hs, fun ha => ?_⟩
  have := h.2 ha
  omega

/-- Reads a phrase, and shows that no text was given back. -/
def Phrase.search (p : Phrase) (c : Cursor) (log : Attempts) :
    Attempts × Option { m : Found // Behind p.consumes c m.1 } :=
  match p with
  | .start => (log, if c.pos = 0 then some ⟨(c, []), .refl c⟩ else none)
  | .word w =>
    match h : w.scan c.rest with
    | none => (log, none)
    | some (t, rest) => (log, some ⟨(c.past t rest, []), .of_scan h⟩)
  | .notAhead t => (log, if (dropText? t c.rest).isSome then none else some ⟨(c, []), .refl c⟩)
  | .call r =>
    match hd : r.definition with
    | .word w =>
      match h : w.scan c.rest with
      | none => (log.record r c.pos (log.countAt c.pos), none)
      | some (t, rest) =>
        (log, some ⟨(c.past t rest, [.word r c.pos t]),
          .of_definition hd (.of_scan h)⟩)
    | .silent body =>
      have hr : (Definition.silent body).rank ≤ r.rank := hd ▸ r.rank_definition
      match body.search c log with
      | (log, none) => (log, none)
      | (log, some ⟨m, hm⟩) =>
        (log, some ⟨m, .of_definition hd hm⟩)
    | .phrase body =>
      have hr : (Definition.phrase body).rank ≤ r.rank := hd ▸ r.rank_definition
      match body.search c log with
      | (after, none) => (after.record r c.pos (log.countAt c.pos), none)
      | (after, some ⟨(d, inner), hm⟩) =>
        (after, some ⟨(d, [.phrase r c.pos d.pos inner]), .of_definition hd hm⟩)
  | .seq p q =>
    match p.search c log with
    | (log, none) => (log, none)
    | (log, some ⟨(d, fs), hd⟩) =>
      match q.search d.skip log with
      | (log, none) => (log, none)
      | (log, some ⟨(e, gs), he⟩) => (log, some ⟨(e, fs ++ gs), hd.trans_skip he⟩)
  | .alt p q =>
    match p.search c log with
    | (log, some ⟨m, hm⟩) =>
      (log, some ⟨m, hm.weaken fun h => (Bool.and_eq_true_iff.1 h).1⟩)
    | (log, none) =>
      match q.search c log with
      | (log, none) => (log, none)
      | (log, some ⟨m, hm⟩) => (log, some ⟨m, hm.weaken fun h => (Bool.and_eq_true_iff.1 h).2⟩)
  | .many p =>
    match p.search c log with
    | (log, none) => (log, some ⟨(c, []), .refl c⟩)
    | (log, some ⟨(d, fs), hd⟩) =>
      if hp : p.consumes = true then
        match (Phrase.more p).search d log with
        | (log, none) => (log, some ⟨(d, fs), hd.weaken (by simp [consumes])⟩)
        | (log, some ⟨(e, gs), he⟩) =>
          (log, some ⟨(e, fs ++ gs), (hd.weaken (by simp [consumes])).trans he⟩)
      else (log, some ⟨(d, fs), hd.weaken (by simp [consumes])⟩)
  | .more p =>
    match p.search c.skip log with
    | (log, none) => (log, some ⟨(c, []), .refl c⟩)
    | (log, some ⟨(d, fs), hd⟩) =>
      if hp : p.consumes = true then
        match (Phrase.more p).search d log with
        | (log, none) => (log, some ⟨(d, fs), hd.skip_first.weaken (by simp [consumes])⟩)
        | (log, some ⟨(e, gs), he⟩) =>
          (log, some ⟨(e, fs ++ gs), (hd.skip_first.weaken (by simp [consumes])).trans he⟩)
      else (log, some ⟨(d, fs), hd.skip_first.weaken (by simp [consumes])⟩)
  | .opt p =>
    match p.search c log with
    | (log, none) => (log, some ⟨(c, []), .refl c⟩)
    | (log, some ⟨m, hm⟩) => (log, some ⟨m, hm.weaken (by simp [consumes])⟩)
termination_by (c.rest.length, p.rank)
decreasing_by
  · exact Prod.Lex.right _ (Nat.lt_of_succ_le hr)
  · exact Prod.Lex.right _ (Nat.lt_of_succ_le hr)
  · refine Prod.Lex.right _ ?_
    simp only [rank]
    split <;> omega
  · have hs := d.skip_length
    by_cases hp : p.consumes = true
    · exact Prod.Lex.left _ _ (Nat.lt_of_le_of_lt hs (hd.2 hp))
    · have hl : d.skip.rest.length ≤ c.rest.length := Nat.le_trans hs hd.1
      rcases Nat.lt_or_eq_of_le hl with hl | hl
      · exact Prod.Lex.left _ _ hl
      · rw [hl]
        refine Prod.Lex.right _ ?_
        simp only [rank, hp]
        simp only [Bool.false_eq_true, if_false]
        omega
  · exact Prod.Lex.right _ (by simp only [rank]; omega)
  · exact Prod.Lex.right _ (by simp only [rank]; omega)
  · exact Prod.Lex.right _ (by simp only [rank]; omega)
  · exact Prod.Lex.left _ _ (hd.2 hp)
  · have hs := c.skip_length
    rcases Nat.lt_or_eq_of_le hs with hl | hl
    · exact Prod.Lex.left _ _ hl
    · rw [hl]
      exact Prod.Lex.right _ (by simp only [rank]; omega)
  · have hs := c.skip_length
    exact Prod.Lex.left _ _ (Nat.lt_of_lt_of_le (hd.2 hp) hs)
  · exact Prod.Lex.right _ (by simp only [rank]; omega)

/-- Reads a phrase: the log afterwards, and the place behind the phrase with the fragments found
in it unless the phrase does not fit. -/
def Phrase.read (p : Phrase) (c : Cursor) (log : Attempts) : Attempts × Option Found :=
  let (log, m) := p.search c log
  (log, m.map (·.val))

/-- Reads a rule off the front of a text: the fragments found, or the log of attempts. -/
def Rule.read (r : Rule) (source : List Char) : Except Attempts (List Fragment) :=
  match (Phrase.call r).read (.atStart source) .none with
  | (_, some (_, fs)) => .ok fs
  | (log, none) => .error log

mutual

/-- A fragment and the fragments inside it in pre-order: for each the number of fragments around
it, its rule, its place and the place behind it. -/
def Fragment.rows (depth : Nat) : Fragment → List (Nat × Rule × Nat × Nat)
  | .word r start text => [(depth, r, start, start + Text.byteLength text)]
  | .phrase r start stop inner => (depth, r, start, stop) :: Fragment.rowsOf (depth + 1) inner

/-- The rows of fragments that stand one after the other. -/
def Fragment.rowsOf (depth : Nat) : List Fragment → List (Nat × Rule × Nat × Nat)
  | [] => []
  | f :: fs => Fragment.rows depth f ++ Fragment.rowsOf depth fs

end

end IntScript.Grammar
