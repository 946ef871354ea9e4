import IntScript.Report.Page
import Mathlib.Data.List.TakeWhile
import Mathlib.Tactic.Common

/-!
# Lines of a page and lines of a text

There are two ways to say in which line and column a place of a text stands. A page divides the text
at everything that ends a line in Unicode and counts the characters that come before the place. The
text itself counts only newlines. Both counts go through the text from its front in the same manner;
they differ only in the characters at which a new line begins. So they agree exactly if no other
character than a newline has begun a new line before the place.
-/

namespace IntScript.Report

/-- Whether a new line of the page begins behind a character that a text follows. -/
def breaks (c : Char) (cs : List Char) : Bool :=
  endsLine c && !(c == '\r' && cs.head? == some '\n')

/-- A newline always ends a line. -/
theorem breaks_newline (cs : List Char) : breaks '\n' cs = true := rfl

/-- A text that is not empty has lines. -/
theorem divide_ne_nil {cs : List Char} (h : cs ≠ []) : divide cs ≠ [] := by
  cases cs with
  | nil => exact absurd rfl h
  | cons c cs =>
    rw [divide]
    split
    · exact List.cons_ne_nil _ _
    · split <;> exact List.cons_ne_nil _ _

/-- The place, as a line and a column counted from zero, of the character behind `k` others. A
place behind the text belongs to the last line. -/
def locate (k : Nat) : List (List Char) → Nat × Nat
  | [] => (0, k)
  | [_] => (0, k)
  | l :: m :: ls =>
    if k < l.length then (0, k)
    else
      let (line, column) := locate (k - l.length) (m :: ls)
      (line + 1, column)

/-- No line lies before the first one. -/
theorem le_offset_of_mem_place {base : Nat} {ls : List (List Char)} {l : Line}
    (h : l ∈ place base ls) : base ≤ l.offset := by
  induction ls generalizing base with
  | nil => cases h
  | cons m ls ih =>
    rw [place] at h
    rcases List.mem_cons.1 h with rfl | h
    · exact Nat.le_refl base
    · have hrest := ih h
      omega

/-- As many lines start before a place as the number of its line says. -/
theorem countP_place (base k : Nat) {ls : List (List Char)} (h : ls ≠ []) :
    (place base ls).countP (fun l => l.offset ≤ base + k) = (locate k ls).1 + 1 := by
  fun_induction locate k ls generalizing base with
  | case1 => exact absurd rfl h
  | case2 k l => simp [place]
  | case3 k l m ls hk =>
    have hrest : (place (base + l.length) (m :: ls)).countP (fun n => n.offset ≤ base + k) = 0 := by
      rw [List.countP_eq_zero]
      intro n hn
      have hoffset := le_offset_of_mem_place hn
      rw [decide_eq_true_eq]
      omega
    rw [place, List.countP_cons_of_pos (by simp), hrest]
  | case4 k l m ls hk line column hlocate ih =>
    have hsum : base + l.length + (k - l.length) = base + k := by omega
    have hrest := ih (base + l.length) (List.cons_ne_nil m ls)
    rw [hsum, hlocate] at hrest
    rw [place, List.countP_cons_of_pos (by simp), hrest]

/-- The column of a place counts from the start of its line. -/
theorem getElem?_place (base k : Nat) {ls : List (List Char)} (h : ls ≠ []) :
    ∃ l, (place base ls)[(locate k ls).1]? = some l ∧ l.offset + (locate k ls).2 = base + k := by
  fun_induction locate k ls generalizing base with
  | case1 => exact absurd rfl h
  | case2 k l => exact ⟨_, rfl, rfl⟩
  | case3 k l m ls hk => exact ⟨_, rfl, rfl⟩
  | case4 k l m ls hk line column hlocate ih =>
    obtain ⟨n, hn, hoffset⟩ := ih (base + l.length) (List.cons_ne_nil m ls)
    rw [hlocate] at hn hoffset
    refine ⟨n, ?_, ?_⟩
    · rw [place, List.getElem?_cons_succ]
      exact hn
    · omega

/-- The page of a text that is not empty has its lines one after the other. -/
theorem pageOf_toList {cs : List Char} (h : cs ≠ []) :
    (pageOf cs).toList = place 0 (divide cs) := by
  unfold pageOf
  split
  · next hnone =>
    cases hdivide : divide cs with
    | nil => exact absurd hdivide (divide_ne_nil h)
    | cons l ls =>
      rw [hdivide, place] at hnone
      cases hnone
  · rfl

/-- On a page, a place stands in the line in which it is located. -/
theorem lineAt_pageOf {cs : List Char} (h : cs ≠ []) (k : Nat) :
    lineAt (pageOf cs) k = (locate k (divide cs)).1 := by
  have hcount := countP_place 0 k (divide_ne_nil h)
  rw [Nat.zero_add] at hcount
  rw [lineAt, pageOf_toList h, hcount, Nat.add_sub_cancel]

/-- On a page, a place stands in the column in which it is located. -/
theorem column_pageOf {cs : List Char} (h : cs ≠ []) (k : Nat) :
    k - ((pageOf cs).getD (lineAt (pageOf cs) k) default).offset = (locate k (divide cs)).2 := by
  obtain ⟨l, hl, hoffset⟩ := getElem?_place 0 k (divide_ne_nil h)
  rw [← pageOf_toList h, Array.getElem?_toList] at hl
  rw [lineAt_pageOf h, Array.getD_eq_getD_getElem?, hl, Option.getD_some]
  omega

/-- What one more character in front does to the line and the column of a place. -/
def advance (begins : Bool) (p : Nat × Nat) : Nat × Nat :=
  if begins then (p.1 + 1, p.2) else if p.1 = 0 then (0, p.2 + 1) else p

/-- Different places stay different behind one more character. -/
theorem advance_injective (begins : Bool) {p q : Nat × Nat}
    (h : advance begins p = advance begins q) : p = q := by
  obtain ⟨a, b⟩ := p
  obtain ⟨c, d⟩ := q
  grind [advance]

/-- One more character in front does not lower the line, and raises it if a line begins behind
the character. -/
theorem advance_fst (begins : Bool) (p : Nat × Nat) :
    (advance begins p).1 = p.1 + if begins then 1 else 0 := by
  grind [advance]

/-- No line of a text is empty. -/
theorem ne_nil_of_mem_divide {cs l : List Char} (h : l ∈ divide cs) : l ≠ [] := by
  induction cs generalizing l with
  | nil => cases h
  | cons c cs ih =>
    rw [divide] at h
    split at h
    · rcases List.mem_cons.1 h with rfl | h
      · exact List.cons_ne_nil _ _
      · exact ih h
    · split at h
      · cases List.mem_singleton.1 h
        exact List.cons_ne_nil _ _
      · next hdivide =>
        rcases List.mem_cons.1 h with rfl | h
        · exact List.cons_ne_nil _ _
        · exact ih (hdivide ▸ List.mem_cons_of_mem _ h)

/-- The start of a text stands in its first line and column, and no other place does. -/
theorem locate_eq_start_iff {k : Nat} {cs : List Char} : locate k (divide cs) = (0, 0) ↔ k = 0 := by
  have hlines : ∀ l ∈ divide cs, l ≠ [] := fun l hl => ne_nil_of_mem_divide hl
  generalize divide cs = ls at hlines
  fun_cases locate k ls with
  | case1 => simp
  | case2 l => simp
  | case3 l m ls hk => simp
  | case4 l m ls hk line column hlocate =>
    have hpos := List.length_pos_iff.2 (hlines l List.mem_cons_self)
    refine iff_of_false (by simp) ?_
    omega

/-- The place behind one more character in front of a text. -/
theorem locate_succ (k : Nat) (c : Char) {cs : List Char} (h : cs ≠ []) :
    locate (k + 1) (divide (c :: cs)) = advance (breaks c cs) (locate k (divide cs)) := by
  obtain ⟨l, ls, hdivide⟩ := List.exists_cons_of_ne_nil (divide_ne_nil h)
  rw [divide, hdivide]
  split
  · next hbreaks =>
    -- the character is a line of its own
    have hk : ¬ k + 1 < [c].length := by simp
    rw [breaks, hbreaks, locate, if_neg hk]
    rfl
  · next hbreaks =>
    rw [breaks, Bool.eq_false_iff.2 hbreaks]
    -- the character belongs to the first line of the rest
    cases ls with
    | nil => rfl
    | cons m ls =>
      dsimp only
      rw [locate, locate]
      by_cases hk : k < l.length
      · have hk' : k + 1 < (c :: l).length := Nat.succ_lt_succ hk
        rw [if_pos hk, if_pos hk']
        rfl
      · have hk' : ¬ k + 1 < (c :: l).length := fun hlt => hk (Nat.lt_of_succ_lt_succ hlt)
        have hrest : k + 1 - (c :: l).length = k - l.length := by
          rw [List.length_cons, Nat.add_sub_add_right]
        rw [if_neg hk, if_neg hk', hrest]
        rfl

/-- The line and the column, counted from zero, of the place behind a text: the number of its
newlines and that of the characters behind the last one. -/
def placeBehind (before : List Char) : Nat × Nat :=
  (before.count '\n', (before.reverse.takeWhile (· != '\n')).length)

/-- The last line of a text without newlines is the whole text. -/
theorem takeWhile_reverse_of_count {cs : List Char} (h : cs.count '\n' = 0) :
    cs.reverse.takeWhile (· != '\n') = cs.reverse := by
  rw [List.takeWhile_eq_self_iff]
  intro c hc
  have hmem : '\n' ∉ cs := List.count_eq_zero.1 h
  have hne : c ≠ '\n' := fun heq => hmem (heq ▸ List.mem_reverse.1 hc)
  simpa using hne

/-- The last line of a text with newlines does not change behind more text. -/
theorem takeWhile_reverse_append {cs : List Char} (h : cs.count '\n' ≠ 0) (ds : List Char) :
    (cs.reverse ++ ds).takeWhile (· != '\n') = cs.reverse.takeWhile (· != '\n') := by
  have hmem : '\n' ∈ cs.reverse := by
    rw [List.mem_reverse, ← List.count_pos_iff]
    omega
  obtain ⟨u, v, huv⟩ := List.append_of_mem hmem
  rw [huv, List.append_assoc, List.cons_append, List.takeWhile_append, List.takeWhile_append]
  rfl

/-- The place behind a text with one more character in front. -/
theorem placeBehind_cons (c : Char) (cs : List Char) :
    placeBehind (c :: cs) = advance (c == '\n') (placeBehind cs) := by
  unfold placeBehind advance
  dsimp only
  rw [List.reverse_cons, List.count_cons]
  by_cases hcount : cs.count '\n' = 0
  · have hself := takeWhile_reverse_of_count hcount
    rw [List.takeWhile_append, hself, if_pos rfl, if_pos hcount, hcount]
    by_cases hc : (c == '\n') = true
    · have hnone : [c].takeWhile (· != '\n') = [] := by simpa using hc
      simp [hc, hnone]
    · have hone : [c].takeWhile (· != '\n') = [c] := by simpa using hc
      simp [hc, hone]
  · rw [takeWhile_reverse_append hcount, if_neg hcount]
    by_cases hc : (c == '\n') = true
    · rw [if_pos hc, if_pos hc]
    · rw [if_neg hc, if_neg hc]
      rfl

/-- Newlines are not the only characters that begin new lines of a page. -/
theorem placeBehind_fst_le {before after : List Char} (h : after ≠ []) {k : Nat}
    (hk : before.length ≤ k) :
    (placeBehind before).1 ≤ (locate k (divide (before ++ after))).1 := by
  induction before generalizing k with
  | nil => exact Nat.zero_le _
  | cons c before ih =>
    obtain ⟨k, rfl⟩ := Nat.exists_eq_add_one_of_ne_zero (Nat.ne_of_gt (Nat.zero_lt_of_lt hk))
    have hrest := ih (Nat.le_of_succ_le_succ hk)
    have hbehind : before ++ after ≠ [] := List.append_ne_nil_of_right_ne_nil before h
    rw [placeBehind_cons, List.cons_append, locate_succ k c hbehind, advance_fst, advance_fst]
    by_cases hc : c = '\n'
    · subst hc
      rw [breaks_newline]
      simpa using hrest
    · have hne : (c == '\n') = false := by simpa using hc
      rw [hne]
      exact Nat.le_trans hrest (Nat.le_add_right _ _)

/-- Within a text that another one follows, only newlines begin new lines of the page. -/
def OnlyNewlinesBreak (before after : List Char) : Prop :=
  ∀ u c v, before = u ++ c :: v → breaks c (v ++ after) = true → c = '\n'

/-- In the empty text no line begins. -/
theorem onlyNewlinesBreak_nil (after : List Char) : OnlyNewlinesBreak [] after := by
  intro u c v heq
  cases u <;> cases heq

/-- One more character in front must be a newline if a line begins behind it. -/
theorem onlyNewlinesBreak_cons {c : Char} {before after : List Char} :
    OnlyNewlinesBreak (c :: before) after ↔
      (breaks c (before ++ after) = true → c = '\n') ∧ OnlyNewlinesBreak before after := by
  constructor
  · intro h
    exact ⟨h [] c before rfl, fun u d v heq => h (c :: u) d v (by rw [heq, List.cons_append])⟩
  · rintro ⟨hc, hbefore⟩ u d v heq
    cases u with
    | nil =>
      cases heq
      exact hc
    | cons x u =>
      cases heq
      exact hbefore u d v rfl

instance decidableOnlyNewlinesBreak :
    (before after : List Char) → Decidable (OnlyNewlinesBreak before after)
  | [], after => .isTrue (onlyNewlinesBreak_nil after)
  | _ :: before, after =>
    have := decidableOnlyNewlinesBreak before after
    decidable_of_iff _ onlyNewlinesBreak_cons.symm

/-- A place on the page is the place behind a text exactly if it has the text before it and only
newlines begin new lines in the text. -/
theorem locate_eq_placeBehind_iff {before after : List Char} (h : after ≠ []) {k : Nat}
    (hk : before.length ≤ k) :
    locate k (divide (before ++ after)) = placeBehind before ↔
      k = before.length ∧ OnlyNewlinesBreak before after := by
  induction before generalizing k with
  | nil =>
    exact locate_eq_start_iff.trans (and_iff_left (onlyNewlinesBreak_nil after)).symm
  | cons c before ih =>
    obtain ⟨k, rfl⟩ := Nat.exists_eq_add_one_of_ne_zero (Nat.ne_of_gt (Nat.zero_lt_of_lt hk))
    have hk' : before.length ≤ k := Nat.le_of_succ_le_succ hk
    have hbehind : before ++ after ≠ [] := List.append_ne_nil_of_right_ne_nil before h
    rw [placeBehind_cons, List.cons_append, locate_succ k c hbehind, onlyNewlinesBreak_cons,
      List.length_cons, Nat.add_right_cancel_iff]
    by_cases hc : breaks c (before ++ after) = true → c = '\n'
    · -- both counts go on in the same way
      have hsame : breaks c (before ++ after) = (c == '\n') := by
        cases hbreaks : breaks c (before ++ after) with
        | true => simp [hc hbreaks]
        | false =>
          have hne : c ≠ '\n' := by
            rintro rfl
            cases hbreaks
          simpa using hne
      rw [and_iff_right hc, hsame, ← ih hk']
      exact ⟨advance_injective _, congrArg _⟩
    · -- the page is ahead by a line from here on
      obtain ⟨hbreaks, hne⟩ := Classical.not_imp.1 hc
      have hle := placeBehind_fst_le h hk'
      refine iff_of_false (fun heq => ?_) (fun hall => hc hall.2.1)
      have hline := congrArg Prod.fst heq
      rw [advance_fst, advance_fst, if_pos hbreaks, if_neg (by simpa using hne)] at hline
      omega

end IntScript.Report
