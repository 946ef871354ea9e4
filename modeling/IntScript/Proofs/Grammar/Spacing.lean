import IntScript.Proofs.Grammar.Derivation
import IntScript.Proofs.Grammar.Words

/-!
# Tokens and the space between them

A text writes out a row of tokens if they stand in it one after the other, separated by blank text:
spaces, tabs, parts of line ends and complete comments, a blank character first. A place in such a
text is known by the tokens that are still to come, and reading a phrase there is described by the
tokens that it takes. How the tokens are spaced makes no difference to any of this.
-/

namespace IntScript.Grammar

/-- Blank text: spaces and comments up to the end of their lines. -/
inductive IsTrivia : List Char → Prop
  | nil : IsTrivia []
  | space {c : Char} {cs : List Char} (hc : isSpace c = true) (h : IsTrivia cs) : IsTrivia (c :: cs)
  | comment {body cs : List Char} (hb : '\n' ∉ body) (h : IsTrivia cs) :
      IsTrivia ('/' :: '/' :: (body ++ '\n' :: cs))

/-- What may separate two tokens: blank text that starts with a blank character. -/
def IsSeparator (s : List Char) : Prop := ∃ c cs, s = c :: cs ∧ isSpace c = true ∧ IsTrivia cs

/-- A text writes out tokens, with separators between them. -/
inductive Writes : List (List Char) → List Char → Prop
  | nil : Writes [] []
  | last (t : List Char) : Writes [t] t
  | next {t s text : List Char} {ts : List (List Char)} (hts : ts ≠ []) (hs : IsSeparator s)
      (h : Writes ts text) : Writes (t :: ts) (t ++ s ++ text)

/-- What a token looks like to whoever skips space: it does not start with a blank character, nor
with a comment. -/
def IsToken (t : List Char) : Prop := ∃ c cs, t = c :: cs ∧ isSpace c = false ∧ (c = '/' → cs = [])

/-- The tokens that are still to come at a place in a text. -/
structure Stands (ts : List (List Char)) (c : Cursor) : Prop where
  /-- The rest of the text writes them out. -/
  writes : Writes ts c.rest
  /-- They are tokens. -/
  tokens : ∀ t ∈ ts, IsToken t

/-- A text does not go on with a word. -/
def IsLoose (cs : List Char) : Prop := ∀ c ∈ cs.head?, isSpace c = true

namespace Cursor

/-- A comment ends with its line. -/
theorem skipFrom_comment {body : List Char} (h : '\n' ∉ body) (cs : List Char) (pos : Nat) :
    ∃ pos', skipFrom true (body ++ '\n' :: cs) pos = skipFrom false cs pos' := by
  induction body generalizing pos with
  | nil => exact ⟨_, rfl⟩
  | cons b body ih =>
    have hb : (b != '\n') = true := by
      rw [bne_iff_ne]
      rintro rfl
      exact h List.mem_cons_self
    obtain ⟨pos', hpos⟩ := ih (fun hm => h (List.mem_cons_of_mem _ hm)) (pos + b.utf8Size)
    refine ⟨pos', ?_⟩
    rw [List.cons_append, skipFrom, if_pos rfl, hb]
    exact hpos

/-- Blank text is skipped. -/
theorem skipFrom_trivia {s : List Char} (h : IsTrivia s) (cs : List Char) (pos : Nat) :
    ∃ pos', skipFrom false (s ++ cs) pos = skipFrom false cs pos' := by
  induction h generalizing pos with
  | nil => exact ⟨pos, rfl⟩
  | @space c s hc _ ih =>
    obtain ⟨pos', hpos⟩ := ih (pos + c.utf8Size)
    refine ⟨pos', ?_⟩
    rw [List.cons_append, skipFrom, if_neg (by decide), if_pos hc]
    exact hpos
  | @comment body s hb _ ih =>
    -- the two slashes are skipped one by one, then the comment up to its end
    obtain ⟨pos', hcomment⟩ := skipFrom_comment hb (s ++ cs) (pos + '/'.utf8Size + '/'.utf8Size)
    obtain ⟨pos'', hpos⟩ := ih pos'
    refine ⟨pos'', ?_⟩
    have hslashes : skipFrom false ('/' :: '/' :: (body ++ '\n' :: s) ++ cs) pos =
        skipFrom true (body ++ '\n' :: (s ++ cs)) (pos + '/'.utf8Size + '/'.utf8Size) := by
      simp [skipFrom, isSpace]
    rw [hslashes, hcomment, hpos]

/-- A token is not skipped. -/
theorem skipFrom_token {t after : List Char} (ht : IsToken t) (hafter : IsLoose after)
    (pos : Nat) : skipFrom false (t ++ after) pos = ⟨t ++ after, pos⟩ := by
  obtain ⟨c, cs, rfl, hc, hslash⟩ := ht
  have hcomment : (c == '/' && (cs ++ after).head? == some '/') = false := by
    by_cases hs : c = '/'
    · rw [hslash hs, List.nil_append]
      cases after with
      | nil => simp
      | cons a after =>
        have ha : a ≠ '/' := by
          rintro rfl
          exact absurd (hafter '/' rfl) (by decide)
        simp [ha]
    · simp [hs]
  rw [List.cons_append, skipFrom, if_neg (by decide), if_neg (by simp [hc]), hcomment]
  rfl

end Cursor

/-- A token is followed by nothing, or by a separator and the tokens behind it. -/
theorem Writes.cons_inv {t text : List Char} {ts : List (List Char)} (h : Writes (t :: ts) text) :
    ∃ after, text = t ++ after ∧
      ((ts = [] ∧ after = []) ∨ ∃ s rest, after = s ++ rest ∧ IsSeparator s ∧ Writes ts rest) := by
  cases h with
  | last => exact ⟨[], (List.append_nil t).symm, .inl ⟨rfl, rfl⟩⟩
  | @next _ s rest _ _ hs h =>
    exact ⟨s ++ rest, List.append_assoc _ _ _, .inr ⟨s, rest, rfl, hs, h⟩⟩

/-- What follows a token does not go on with a word. -/
theorem IsLoose.of_separator {s : List Char} (h : IsSeparator s) (cs : List Char) :
    IsLoose (s ++ cs) := by
  obtain ⟨c, s, rfl, hc, -⟩ := h
  intro d hd
  cases hd
  exact hc

/-- The end of a text does not go on with a word. -/
theorem IsLoose.nil : IsLoose [] := by
  intro c hc
  cases hc

/-- A token stands out from what follows it, and the tokens behind it stand behind the space. -/
theorem Stands.next {t : List Char} {ts : List (List Char)} {c : Cursor}
    (h : Stands (t :: ts) c) :
    ∃ after, c.rest = t ++ after ∧ IsLoose after ∧ Stands ts (c.past t after).skip := by
  have htokens : ∀ t ∈ ts, IsToken t := fun t ht => h.tokens t (List.mem_cons_of_mem _ ht)
  obtain ⟨after, hrest, ⟨rfl, rfl⟩ | ⟨s, rest, rfl, hs, hwrites⟩⟩ := h.writes.cons_inv
  · exact ⟨[], hrest, .nil, ⟨.nil, htokens⟩⟩
  · refine ⟨s ++ rest, hrest, .of_separator hs rest, ⟨?_, htokens⟩⟩
    obtain ⟨b, s, rfl, hb, htrivia⟩ := hs
    obtain ⟨pos, hskip⟩ := Cursor.skipFrom_trivia (.space hb htrivia) rest
      (c.pos + Text.byteLength t)
    have heq : (c.past t ((b :: s) ++ rest)).skip = Cursor.skipFrom false rest pos := hskip
    rw [heq]
    cases ts with
    | nil =>
      cases hwrites
      exact .nil
    | cons u us =>
      obtain ⟨after, hrest', hafter⟩ := hwrites.cons_inv
      have hloose : IsLoose after := by
        rcases hafter with ⟨-, rfl⟩ | ⟨s', rest', rfl, hs', -⟩
        · exact .nil
        · exact .of_separator hs' rest'
      rw [hrest', Cursor.skipFrom_token (htokens u List.mem_cons_self) hloose, ← hrest']
      exact hwrites

/-- If no tokens are to come the text has come to its end. -/
theorem Stands.rest_eq_nil {c : Cursor} (h : Stands [] c) : c.rest = [] := by
  have hwrites := h.writes
  generalize c.rest = text at hwrites
  cases hwrites
  rfl

/-- There is no space in front of the tokens that are still to come. -/
theorem Stands.skip_eq {ts : List (List Char)} {c : Cursor} (h : Stands ts c) : c.skip = c := by
  cases ts with
  | nil =>
    have hrest := h.rest_eq_nil
    rw [Cursor.skip, hrest, Cursor.skipFrom, ← hrest]
  | cons t ts =>
    obtain ⟨after, hrest, hloose, -⟩ := h.next
    rw [Cursor.skip, hrest, Cursor.skipFrom_token (h.tokens t List.mem_cons_self) hloose, ← hrest]

end IntScript.Grammar
