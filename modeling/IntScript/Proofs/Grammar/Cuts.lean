import IntScript.Proofs.Grammar.Places
import IntScript.Proofs.Tree.Tokens
import Mathlib.Data.List.TakeWhile

/-!
# Cutting a text

A text is cut at a place and goes on differently from there, with a line end first. Space that was
skipped before the cut is skipped as before, and a word that was found or missed before the cut is
found or missed as before, unless the cut goes through the middle of a word. The places where words
are looked for never lie in the middle of a word, with one exception: a number may be followed
directly by a word.
-/

namespace IntScript.Grammar

/-- A text without the spaces and comments that it starts with. -/
def bare (cs : List Char) : List Char := (Cursor.skipFrom false cs 0).rest

namespace Cursor

/-- What is skipped does not depend on the offset at which it stands. -/
theorem skipFrom_rest (inComment : Bool) (cs : List Char) (pos pos' : Nat) :
    (skipFrom inComment cs pos).rest = (skipFrom inComment cs pos').rest := by
  induction cs generalizing inComment pos pos' with
  | nil => rfl
  | cons c cs ih =>
    simp only [skipFrom]
    split
    · exact ih _ _ _
    · split
      · exact ih _ _ _
      · split
        · exact ih _ _ _
        · rfl

/-- The text behind the space. -/
theorem skip_rest (c : Cursor) : c.skip.rest = bare c.rest := skipFrom_rest _ _ _ _

/-- Nothing is skipped exactly if neither a space nor a comment comes next. -/
theorem skipFrom_cons_eq_iff (c : Char) (cs : List Char) (pos : Nat) :
    (skipFrom false (c :: cs) pos).rest = c :: cs ↔
      isSpace c = false ∧ (c == '/' && cs.head? == some '/') = false := by
  have hless : ∀ flag pos, (skipFrom flag cs pos).rest ≠ c :: cs := by
    intro flag pos heq
    have hlen := skipFrom_length flag cs pos
    rw [heq, List.length_cons] at hlen
    omega
  simp only [skipFrom, Bool.false_eq_true, if_false]
  split
  · next hspace => simp [hless, hspace]
  · next hspace =>
    split
    · next hcomment => simp [hless, hcomment]
    · next hcomment => simpa [hspace] using hcomment

/-- Space and comments are skipped before a cut as they were before, inside a comment or outside. -/
theorem skipFrom_cut (inComment : Bool) {y z b : List Char} {pos : Nat}
    (h : (skipFrom inComment (y ++ b) pos).rest = z ++ b) (r : List Char) :
    (skipFrom inComment (y ++ '\n' :: r) pos).rest = bare (z ++ '\n' :: r) := by
  induction y generalizing inComment pos with
  | nil =>
    have hz : z = [] := by
      have hlen := skipFrom_length inComment b pos
      rw [List.nil_append] at h
      rw [h, List.length_append] at hlen
      exact List.length_eq_zero_iff.1 (by omega)
    rw [hz]
    cases inComment <;> exact skipFrom_rest _ _ _ _
  | cons c y ih =>
    by_cases hcomment : inComment = true
    · simp only [List.cons_append, skipFrom, hcomment, if_true] at h ⊢
      exact ih _ h
    · have hout : inComment = false := by simpa using hcomment
      subst hout
      by_cases hspace : isSpace c = true
      · simp only [List.cons_append, skipFrom, hspace, if_true, Bool.false_eq_true, if_false] at h ⊢
        exact ih _ h
      · by_cases hslash : (c == '/' && (y ++ b).head? == some '/') = true
        · simp only [List.cons_append, skipFrom, hspace, hslash, if_true, Bool.false_eq_true,
            if_false] at h ⊢
          cases y with
          | nil =>
            -- the comment would start at the cut and reach beyond it
            have hb : b.head? = some '/' := by simpa using (Bool.and_eq_true_iff.1 hslash).2
            obtain ⟨b, rfl⟩ := List.head?_eq_some_iff.1 hb
            have hlen := skipFrom_length true b (pos + c.utf8Size + '/'.utf8Size)
            have hrest : (skipFrom true b (pos + c.utf8Size + '/'.utf8Size)).rest =
                z ++ '/' :: b := h
            rw [hrest, List.length_append, List.length_cons] at hlen
            omega
          | cons d y =>
            have hslash' : (c == '/' && (d :: y ++ '\n' :: r).head? == some '/') = true := hslash
            rw [if_pos hslash']
            exact ih _ h
        · -- nothing is skipped, neither before the change nor after it
          have hslash : (c == '/' && (y ++ b).head? == some '/') = false := by simpa using hslash
          have hspace : isSpace c = false := by simpa using hspace
          have hslash' : (c == '/' && (y ++ '\n' :: r).head? == some '/') = false := by
            cases y with
            | nil => simp
            | cons d y => exact hslash
          have hz : z = c :: y := by
            have hold := (skipFrom_cons_eq_iff c (y ++ b) pos).2 ⟨hspace, hslash⟩
            rw [List.cons_append, hold, ← List.cons_append] at h
            exact (List.append_cancel_right h).symm
          have hnew := fun pos => (skipFrom_cons_eq_iff c (y ++ '\n' :: r) pos).2 ⟨hspace, hslash'⟩
          rw [hz]
          exact (hnew pos).trans (hnew 0).symm

end Cursor

/-- Behind the space there is no further space. -/
theorem bare_bare (cs : List Char) : bare (bare cs) = bare cs := by
  have hskip : ∀ (cs : List Char) (flag : Bool) (pos : Nat),
      bare (Cursor.skipFrom flag cs pos).rest = (Cursor.skipFrom flag cs pos).rest := by
    intro cs
    induction cs with
    | nil => exact fun _ _ => rfl
    | cons c cs ih =>
      intro flag pos
      simp only [Cursor.skipFrom]
      split
      · exact ih _ _
      · split
        · exact ih _ _
        · next hspace =>
          split
          · exact ih _ _
          · next hslash =>
            refine (Cursor.skipFrom_cons_eq_iff c cs 0).2 ⟨?_, ?_⟩
            · simpa using hspace
            · simpa using hslash
  exact hskip cs false 0

/-- There is no space behind the space. -/
theorem Cursor.bare_skip (c : Cursor) : bare c.skip.rest = c.skip.rest := by
  rw [c.skip_rest, bare_bare]

/-- A line end is skipped. -/
theorem bare_newline (cs : List Char) : bare ('\n' :: cs) = bare cs :=
  Cursor.skipFrom_rest false cs ('\n'.utf8Size) 0

/-- Space before a cut is skipped as before. -/
theorem bare_cut {y z b : List Char} (h : bare (y ++ b) = z ++ b) (r : List Char) :
    bare (y ++ '\n' :: r) = bare (z ++ '\n' :: r) :=
  Cursor.skipFrom_cut false h r

/-- Where there was no space before a cut there is none. -/
theorem bare_cut_eq {z b : List Char} (hz : z ≠ []) (h : bare (z ++ b) = z ++ b) (r : List Char) :
    bare (z ++ '\n' :: r) = z ++ '\n' :: r := by
  cases z with
  | nil => exact absurd rfl hz
  | cons c z =>
    obtain ⟨hspace, hslash⟩ := (Cursor.skipFrom_cons_eq_iff c (z ++ b) 0).1 h
    refine (Cursor.skipFrom_cons_eq_iff c (z ++ '\n' :: r) 0).2 ⟨hspace, ?_⟩
    cases z with
    | nil => simp
    | cons d z => exact hslash

/-- A token is not skipped. -/
theorem bare_token {t after : List Char} (ht : IsToken t) (hafter : IsLoose after) :
    bare (t ++ after) = t ++ after := by
  rw [bare, Cursor.skipFrom_token ht hafter]

/-- A text can be cut in front of `b`: no word goes across the cut, unless what it has before the
cut is a number. -/
def Clean (x b : List Char) : Prop :=
  ∀ c ∈ b.head?, isWordChar c = true →
    ∀ s, s <:+ x → s.all isWordChar = true → s.all Char.isDigit = true

namespace Clean

variable {x y b : List Char}

/-- Nothing is cut off in front of a text. -/
theorem nil (b : List Char) : Clean [] b := by
  intro c _ _ s hs _
  rw [List.suffix_nil.1 hs]
  rfl

/-- A cut that is clean for a text is clean for the last part of it. -/
theorem of_suffix (h : Clean x b) (hy : y <:+ x) : Clean y b :=
  fun c hc hword s hs hall => h c hc hword s (hs.trans hy) hall

/-- A text can be cut where no word comes next. -/
theorem of_head (h : ∀ c ∈ b.head?, isWordChar c = false) (x : List Char) : Clean x b := by
  intro c hc hword
  rw [h c hc] at hword
  cases hword

/-- A text can be cut behind a character that is not part of a word. -/
theorem of_last {c : Char} (hc : isWordChar c = false) (x b : List Char) :
    Clean (x ++ [c]) b := by
  intro d _ _ s hs hall
  rcases List.suffix_concat_iff.1 hs with rfl | ⟨t, rfl, -⟩
  · rfl
  · simp [hc] at hall

/-- Two texts can be cut off together if each of them can be cut off. -/
theorem append (hx : Clean x (y ++ b)) (hy : Clean y b) : Clean (x ++ y) b := by
  intro c hc hword s hs hall
  obtain ⟨u, hu⟩ := hs
  rcases List.append_eq_append_iff.1 hu with ⟨v, rfl, rfl⟩ | ⟨v, rfl, rfl⟩
  · -- the word starts in the first text and goes on through the whole second one
    rw [List.all_append, Bool.and_eq_true] at hall ⊢
    refine ⟨?_, hy c hc hword y (List.suffix_refl y) hall.2⟩
    cases y with
    | nil => exact hx c hc hword v (List.suffix_append u v) hall.1
    | cons d y =>
      have hd : isWordChar d = true := by
        have hall2 := hall.2
        rw [List.all_cons, Bool.and_eq_true] at hall2
        exact hall2.1
      exact hx d rfl hd v (List.suffix_append u v) hall.1
  · exact hy c hc hword s (List.suffix_append v s) hall

end Clean

/-- A text goes on with another one from a place where it can be cut. -/
def Leads (cs ds : List Char) : Prop := ∃ x, cs = x ++ ds ∧ Clean x ds

namespace Leads

variable {cs ds es : List Char}

/-- A text goes on with itself. -/
theorem refl (cs : List Char) : Leads cs cs := ⟨[], rfl, .nil cs⟩

/-- A place where a text can be cut behind another such place. -/
theorem trans (h : Leads cs ds) (h' : Leads ds es) : Leads cs es := by
  obtain ⟨x, rfl, hx⟩ := h
  obtain ⟨y, rfl, hy⟩ := h'
  exact ⟨x ++ y, (List.append_assoc x y es).symm, hx.append hy⟩

/-- What a text goes on with is the end of it. -/
theorem suffix (h : Leads cs ds) : ds <:+ cs := by
  obtain ⟨x, rfl, -⟩ := h
  exact List.suffix_append x ds

/-- A text can be cut behind its space. -/
theorem bare (cs : List Char) : Leads cs (bare cs) := by
  obtain ⟨s, hs, -, hend⟩ := Cursor.skipsTo_skipFrom false cs 0
  refine ⟨s, hs, ?_⟩
  rcases hend with hnil | ⟨rfl, -⟩ | ⟨s', c, rfl, hc⟩
  · refine .of_head (fun c hc => ?_) s
    rw [Grammar.bare, hnil] at hc
    cases hc
  · exact .nil _
  · exact .of_last hc s' _

/-- The text before a cut is known by what comes behind it. -/
theorem clean {x : List Char} (h : Leads (x ++ ds) ds) : Clean x ds := by
  obtain ⟨y, hy, hclean⟩ := h
  rwa [List.append_cancel_right hy]

end Leads

/-- Whether a fixed text is a token without blanks and without characters that stand in words. -/
def isMark : List Char → Bool
  | [] => false
  | c :: cs => (c != '/' || cs.isEmpty) && (c :: cs).all fun d => !isWordChar d && !isSpace d

/-- The characters of a mark. -/
theorem isMark_all {t : List Char} (h : isMark t = true) :
    ∀ d ∈ t, isWordChar d = false ∧ isSpace d = false := by
  cases t with
  | nil => cases h
  | cons c cs =>
    rw [isMark, Bool.and_eq_true] at h
    intro d hd
    simpa using List.all_eq_true.1 h.2 d hd

/-- A mark is a token. -/
theorem isMark_isToken {t : List Char} (h : isMark t = true) : IsToken t := by
  cases t with
  | nil => cases h
  | cons c cs =>
    refine ⟨c, cs, rfl, (isMark_all h c List.mem_cons_self).2, ?_⟩
    rw [isMark, Bool.and_eq_true] at h
    rintro rfl
    simpa using h.1

namespace Word

/-- Whether a word is a mark, a reserved word, an identifier, a number or the end of the text. The
words that make up space are not counted. -/
def isPlain : Word → Bool
  | .exact text => isMark text
  | .keyword _ | .identifier | .integer | .finish => true
  | .anyKeyword | .space | .comment | .wordChar => false

/-- One way to write a word. -/
def sample : Word → List Char
  | .exact text => text
  | .keyword k => k.spelling
  | .integer => ['0']
  | .finish => []
  | _ => ['a']

end Word

/-- A reserved word is found if it stands in front of a text that does not go on with a word. -/
theorem scanKeyword_run {k : Keyword} {rest : List Char}
    (hr : ∀ c ∈ rest.head?, isWordChar c = false) :
    scanKeyword k (k.spelling ++ rest) = some (k.spelling, rest) := by
  rw [scanKeyword_eq, takeWhile_run k.spelling_all hr, dropWhile_run k.spelling_all hr, if_pos rfl]

/-- An identifier is found if it stands in front of a text that does not go on with a word. -/
theorem scan_identifier_run {t rest : List Char} (ht : isIdentifier t = true)
    (hr : ∀ c ∈ rest.head?, isWordChar c = false) :
    Word.identifier.scan (t ++ rest) = some (t, rest) := by
  have hall := Word.all_of_isIdentifier ht
  rw [scan_identifier_eq, takeWhile_run hall hr, dropWhile_run hall hr, if_pos ht]

/-- A number is found if it stands in front of a text that does not go on with a digit. -/
theorem scan_integer_run {t rest : List Char} (hne : t ≠ []) (ht : t.all Char.isDigit = true)
    (hr : ∀ c ∈ rest.head?, c.isDigit = false) :
    Word.integer.scan (t ++ rest) = some (t, rest) := by
  cases t with
  | nil => exact absurd rfl hne
  | cons c t =>
    rw [List.all_cons, Bool.and_eq_true] at ht
    rw [List.cons_append, Word.scan, scanRun, if_pos ht.1, takeWhile_run ht.2 hr,
      dropWhile_run ht.2 hr]

/-- What is found when a number is looked for. -/
theorem scan_integer_inv {cs t rest : List Char} (h : Word.integer.scan cs = some (t, rest)) :
    t ≠ [] ∧ t.all Char.isDigit = true ∧ ∀ c ∈ rest.head?, c.isDigit = false := by
  cases cs with
  | nil => cases h
  | cons c cs =>
    rw [Word.scan, scanRun] at h
    split at h
    · next hc =>
      cases h
      refine ⟨by simp, ?_, head_dropWhile _ _⟩
      rw [List.all_cons, hc, Bool.true_and]
      simp
    · cases h

/-- What is found when an identifier is looked for. -/
theorem scan_identifier_inv {cs t rest : List Char} (h : Word.identifier.scan cs = some (t, rest)) :
    isIdentifier t = true ∧ ∀ c ∈ rest.head?, isWordChar c = false := by
  rw [scan_identifier_eq] at h
  split at h
  · next ht =>
    cases h
    exact ⟨ht, head_dropWhile _ _⟩
  · cases h

/-- What is found when a reserved word is looked for. -/
theorem scanKeyword_inv {k : Keyword} {cs t rest : List Char}
    (h : scanKeyword k cs = some (t, rest)) :
    t = k.spelling ∧ ∀ c ∈ rest.head?, isWordChar c = false := by
  rw [scanKeyword_eq] at h
  split at h
  · cases h
    exact ⟨rfl, head_dropWhile _ _⟩
  · cases h

namespace Word

variable {w : Word}

/-- A word is found again in front of another text, if that starts alike or does not go on with a
word. The end of the text is another matter. -/
theorem scan_of_head (hw : w.isPlain = true) (hfin : w ≠ .finish) {cs t rest : List Char}
    (h : w.scan cs = some (t, rest)) {rest' : List Char}
    (hrest : ∀ c ∈ rest'.head?, c ∈ rest.head? ∨ isWordChar c = false) :
    w.scan (t ++ rest') = some (t, rest') := by
  have hhead : ∀ (p : Char → Bool), (∀ c ∈ rest.head?, p c = false) →
      (∀ c, p c = true → isWordChar c = true) → ∀ c ∈ rest'.head?, p c = false := by
    intro p hp hword c hc
    rcases hrest c hc with hc | hc
    · exact hp c hc
    · refine Bool.eq_false_iff.2 fun hpc => ?_
      rw [hword c hpc] at hc
      cases hc
  cases w with
  | exact text =>
    obtain ⟨r, -, heq⟩ := Option.map_eq_some_iff.1 h
    cases heq
    rw [scan, dropText?_append]
    rfl
  | keyword k =>
    obtain ⟨rfl, hr⟩ := scanKeyword_inv h
    exact scanKeyword_run (hhead _ hr fun _ hc => hc)
  | identifier =>
    obtain ⟨ht, hr⟩ := scan_identifier_inv h
    exact scan_identifier_run ht (hhead _ hr fun _ hc => hc)
  | integer =>
    obtain ⟨hne, ht, hr⟩ := scan_integer_inv h
    exact scan_integer_run hne ht (hhead _ hr fun _ hc => isWordChar_of_isDigit hc)
  | finish => exact absurd rfl hfin
  | _ => cases hw

/-- A text can be cut behind a word. -/
theorem leads_of_scan (hw : w.isPlain = true) {cs t rest : List Char}
    (h : w.scan cs = some (t, rest)) : Leads cs rest := by
  obtain ⟨rfl, -⟩ := scan_append h
  refine ⟨t, rfl, ?_⟩
  cases w with
  | exact text =>
    obtain ⟨r, -, heq⟩ := Option.map_eq_some_iff.1 h
    cases heq
    rcases List.eq_nil_or_concat t with rfl | ⟨s, c, rfl⟩
    · exact .nil _
    · rw [List.concat_eq_append]
      exact .of_last (isMark_all hw c (by simp)).1 s rest
  | keyword k => exact .of_head (scanKeyword_inv h).2 t
  | identifier => exact .of_head (scan_identifier_inv h).2 t
  | integer =>
    obtain ⟨-, ht, -⟩ := scan_integer_inv h
    intro c _ _ s hs _
    exact List.all_eq_true.2 fun d hd => List.all_eq_true.1 ht d (hs.subset hd)
  | finish =>
    rw [scan] at h
    split at h
    · cases h
      exact .nil _
    · cases h
  | _ => cases hw

/-- The way to write a word is found where a text does not go on with a word. -/
theorem fits_sample (hw : w.isPlain = true) (hfin : w ≠ .finish) : w.Fits w.sample := by
  cases w with
  | exact text => exact fits_exact text
  | keyword k => exact fits_keyword k
  | identifier => exact fits_identifier (by decide)
  | integer => exact fits_integer (by decide) (by decide)
  | finish => exact absurd rfl hfin
  | _ => cases hw

/-- The way to write a word is a token. -/
theorem isToken_sample (hw : w.isPlain = true) (hfin : w ≠ .finish) : IsToken w.sample := by
  cases w with
  | exact text => exact isMark_isToken hw
  | keyword k => cases k <;> exact ⟨_, _, rfl, by decide, by decide⟩
  | identifier => exact ⟨_, _, rfl, by decide, by decide⟩
  | integer => exact ⟨_, _, rfl, by decide, by decide⟩
  | finish => exact absurd rfl hfin
  | _ => cases hw

end Word

/-- The word at the front of a text ends within the first part of it, or the whole first part
belongs to a word that goes on in the second one. -/
theorem takeWhile_append_or (y b : List Char) :
    (y ++ b).takeWhile isWordChar = y.takeWhile isWordChar ∨
      (y.all isWordChar = true ∧ ∃ c ∈ b.head?, isWordChar c = true) := by
  by_cases hall : y.all isWordChar = true
  · by_cases hb : ∃ c ∈ b.head?, isWordChar c = true
    · exact .inr ⟨hall, hb⟩
    · have hhead : ∀ c ∈ b.head?, isWordChar c = false :=
        fun c hc => Bool.eq_false_iff.2 fun hword => hb ⟨c, hc, hword⟩
      refine .inl ?_
      rw [takeWhile_run hall hhead, List.takeWhile_eq_self_iff.2 (List.all_eq_true.1 hall)]
  · refine .inl ?_
    rw [List.takeWhile_append, if_neg]
    intro hlen
    have hy : y.takeWhile isWordChar = y :=
      List.IsPrefix.eq_of_length ( List.takeWhile_prefix _) hlen
    exact hall (List.all_eq_true.2 (List.takeWhile_eq_self_iff.1 hy))

namespace Word

variable {w : Word}

/-- A word that is missed is missed in front of a cut, unless the cut comes first or goes through a
word. -/
theorem scan_cut (hw : w.isPlain = true) {y b : List Char} (hy : y ≠ []) (hclean : Clean y b)
    (h : w.scan (y ++ b) = none) (r : List Char) : w.scan (y ++ '\n' :: r) = none := by
  have hloose : IsLoose ('\n' :: r) := by
    intro c hc
    cases hc
    rfl
  cases w with
  | exact text =>
    have hspace : text.all (fun c => !isSpace c) = true := by
      refine List.all_eq_true.2 fun c hc => ?_
      rw [(isMark_all hw c hc).2]
      rfl
    refine fails_exact hspace ?_ _ hloose
    cases hdrop : dropText? text y with
    | none => rfl
    | some rest =>
      rw [append_of_dropText? hdrop, List.append_assoc, scan, dropText?_append] at h
      cases h
  | keyword k =>
    refine fails_keyword (fun hrun => ?_) _ hloose
    rcases takeWhile_append_or y b with heq | ⟨hall, c, hc, hword⟩
    · rw [scan, scanKeyword_eq, heq, if_pos hrun] at h
      cases h
    · -- the word before the cut would be reserved, but it is a number
      rw [List.takeWhile_eq_self_iff.2 (List.all_eq_true.1 hall)] at hrun
      have hdigits := hclean c hc hword y (List.suffix_refl y) hall
      rw [hrun] at hdigits
      cases k <;> cases hdigits
  | identifier =>
    refine fails_identifier (Bool.eq_false_iff.2 fun hrun => ?_) _ hloose
    rcases takeWhile_append_or y b with heq | ⟨hall, c, hc, hword⟩
    · rw [scan_identifier_eq, heq, if_pos hrun] at h
      cases h
    · rw [List.takeWhile_eq_self_iff.2 (List.all_eq_true.1 hall)] at hrun
      obtain ⟨d, ds, rfl, hd⟩ := exists_letter hrun
      have hdigits := hclean c hc hword _ (List.suffix_refl _) hall
      rw [List.all_cons, isDigit_of_isWordStart hd] at hdigits
      cases hdigits
  | integer =>
    cases y with
    | nil => exact absurd rfl hy
    | cons d y =>
      simp only [List.cons_append, scan, scanRun] at h ⊢
      split at h
      · cases h
      · next hd => rw [if_neg hd]
  | finish =>
    cases y with
    | nil => exact absurd rfl hy
    | cons d y => rfl
  | _ => cases hw

end Word

end IntScript.Grammar
