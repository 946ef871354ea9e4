import IntScript.Eval.Input
import IntScript.Proofs.Text.Decimal
import Mathlib.Data.List.Forall2
import Mathlib.Data.List.Induction
import Mathlib.Data.Nat.Digits.Defs

/-!
# The numbers of an input

Numbers are read one by one from lines that are looked at only when they are needed. However often a
number is asked for, the results are those of dividing the whole input at once: into lines, these
into runs of characters that are not blank, and each run is a number or invalid. A line that is not
valid UTF-8 gives one error. If the whole input is the UTF-8 form of a text, then lines make no
difference, since a newline is blank and no other character has its byte.
-/

namespace IntScript

namespace Text

/-- The maximal runs of characters that are not blank, by division of a text at each blank. -/
def runs (cs : List Char) : List (List Char) := (cs.splitOnP isBlank).filter (!·.isEmpty)

/-- A blank divides the runs before it from those behind it. -/
theorem runs_append_blank {c : Char} (hc : isBlank c = true) (cs ds : List Char) :
    runs (cs ++ c :: ds) = runs cs ++ runs ds := by
  rw [runs, List.splitOnP_append_cons _ _ hc, List.filter_append]
  rfl

/-- A text without blanks is a run, unless it is empty. -/
theorem runs_of_not_blank {cs : List Char} (h : ∀ c ∈ cs, isBlank c = false) :
    runs cs = if cs.isEmpty then [] else [cs] := by
  rw [runs, List.splitOnP_eq_singleton h]
  cases cs <;> rfl

/-- Going through a text behind a run that has begun completes the runs one by one. -/
theorem wordsFrom_eq_runs {current : List Char} (h : ∀ c ∈ current, isBlank c = false)
    (cs : List Char) : wordsFrom current cs = runs (current ++ cs) := by
  induction cs generalizing current with
  | nil => rw [wordsFrom, List.append_nil, runs_of_not_blank h]
  | cons c cs ih =>
    rw [wordsFrom]
    cases hc : isBlank c with
    | true =>
      have hrest : wordsFrom [] cs = runs cs := ih (by simp)
      rw [runs_append_blank hc, runs_of_not_blank h, hrest]
      cases current <;> rfl
    | false =>
      have hlonger : ∀ d ∈ current ++ [c], isBlank d = false := by
        simp only [List.mem_append, List.mem_singleton]
        rintro d (hd | rfl)
        · exact h d hd
        · exact hc
      rw [if_neg (by simp), ih hlonger, List.append_assoc]
      rfl

/-- The words of a text are its runs. -/
theorem words_eq_runs (cs : List Char) : words cs = runs cs := wordsFrom_eq_runs (by simp) cs

/-- The bytes of a text are those of its characters. -/
theorem encode_eq_flatMap (cs : List Char) : encode cs = cs.flatMap String.utf8EncodeChar := by
  simp [encode, String.toUTF8_eq_toByteArray, String.toByteArray_ofList, List.utf8Encode]

/-- The bytes of a text behind another one. -/
theorem encode_append (cs ds : List Char) : encode (cs ++ ds) = encode cs ++ encode ds := by
  simp only [encode_eq_flatMap, List.flatMap_append]

/-- Bytes are read as a text if and only if they are its UTF-8 form. -/
theorem decode?_eq_some_iff {bytes : List UInt8} {cs : List Char} :
    decode? bytes = some cs ↔ bytes = encode cs := by
  have hvalid : ∀ h : (ByteArray.mk bytes.toArray).IsValidUTF8,
      (String.fromUTF8 ⟨bytes.toArray⟩ h).toUTF8.data.toList = bytes := fun h => rfl
  rw [decode?, String.fromUTF8?]
  constructor
  · intro h
    split at h
    · next hbytes =>
      obtain rfl : (String.fromUTF8 _ hbytes).toList = cs := by simpa using h
      rw [encode, String.ofList_toList, hvalid hbytes]
    · cases h
  · rintro rfl
    have hbytes : (⟨(encode cs).toArray⟩ : ByteArray) = (String.ofList cs).toByteArray := rfl
    have hvalid : (⟨(encode cs).toArray⟩ : ByteArray).IsValidUTF8 := by
      rw [hbytes]
      exact (String.ofList cs).isValidUTF8
    have htext : String.fromUTF8 _ hvalid = String.ofList cs := String.toByteArray_inj.1 hbytes
    rw [dif_pos hvalid, htext, Option.map_some, String.toList_ofList]

/-- Bytes are not read if and only if they are not the UTF-8 form of any text. -/
theorem decode?_eq_none_iff {bytes : List UInt8} :
    decode? bytes = none ↔ ∀ cs, bytes ≠ encode cs := by
  rw [Option.eq_none_iff_forall_ne_some]
  simp only [ne_eq, decode?_eq_some_iff]

/-- No character but the newline has the byte of a newline. -/
theorem eq_newline_of_mem {c : Char} (h : 10 ∈ String.utf8EncodeChar c) : c = '\n' := by
  have hbyte : ∀ n : Nat, (10 : UInt8) = UInt8.ofNat n → n % 256 = 10 := by
    intro n hn
    simpa using (congrArg UInt8.toNat hn).symm
  have hcode : c.val.toNat = 10 := by
    unfold String.utf8EncodeChar at h
    dsimp only at h
    split_ifs at h <;> simp only [List.mem_cons, List.not_mem_nil, or_false] at h
    · have hv := hbyte _ h
      omega
    · rcases h with h | h <;> have hv := hbyte _ h <;> omega
    · rcases h with h | h | h <;> have hv := hbyte _ h <;> omega
    · rcases h with h | h | h | h <;> have hv := hbyte _ h <;> omega
  exact Char.ext (UInt32.toNat.inj hcode)

/-- A text without newlines has no byte of a newline. -/
theorem not_mem_encode {cs : List Char} (h : '\n' ∉ cs) : 10 ∉ encode cs := by
  rw [encode_eq_flatMap]
  intro hmem
  obtain ⟨c, hc, hbyte⟩ := List.mem_flatMap.1 hmem
  rw [eq_newline_of_mem hbyte] at hc
  exact h hc

end Text

namespace Input

/-- The number that a row of digits denotes, the most significant first. -/
def decimal (ds : List Char) : Nat := Nat.ofDigits 10 (ds.reverse.map fun d => d.toNat - 48)

/-- A word denotes an integer: an optional sign is followed by one or more digits. -/
inductive Denotes : List Char → Int → Prop
  | plain {ds : List Char} (hn : ds ≠ []) (hd : ∀ d ∈ ds, d.isDigit = true) :
      Denotes ds (decimal ds)
  | plus {ds : List Char} (hn : ds ≠ []) (hd : ∀ d ∈ ds, d.isDigit = true) :
      Denotes ('+' :: ds) (decimal ds)
  | minus {ds : List Char} (hn : ds ≠ []) (hd : ∀ d ∈ ds, d.isDigit = true) :
      Denotes ('-' :: ds) (-(decimal ds : Int))

/-- What a word is read as: the value that it denotes, or it is invalid if it denotes no integer
that fits in 64 bits. -/
inductive ReadsAs : List Char → Except Fault Value → Prop
  | number {w : List Char} {v : Value} (h : Denotes w v.toInt) : ReadsAs w (.ok v)
  | invalid {w : List Char} (h : ∀ n, Denotes w n → n < -2 ^ 63 ∨ 2 ^ 63 - 1 < n) :
      ReadsAs w (.error (.invalid (String.ofList w)))

/-- Bytes are divided into lines: each ends with the first newline byte in it, but for a last line
that has none. -/
inductive IsLines : List UInt8 → List (List UInt8) → Prop
  | nil : IsLines [] []
  | last {l : List UInt8} (hn : l ≠ []) (hl : 10 ∉ l) : IsLines l [l]
  | cons {l bytes : List UInt8} {ls : List (List UInt8)} (hl : 10 ∉ l) (hls : IsLines bytes ls) :
      IsLines (l ++ 10 :: bytes) ((l ++ [10]) :: ls)

/-- What a line gives: one result for each run of characters that are not blank, or one error if it
is not the UTF-8 form of any text. -/
inductive LineGives : List UInt8 → List (Except Fault Value) → Prop
  | text {l : List UInt8} {cs : List Char} {rs : List (Except Fault Value)}
      (hl : l = Text.encode cs) (hrs : List.Forall₂ ReadsAs (Text.runs cs) rs) : LineGives l rs
  | notUtf8 {l : List UInt8} (hl : ∀ cs, l ≠ Text.encode cs) :
      LineGives l [.error (.device .notUtf8)]

/-- The results that the lines of some bytes give one after the other. -/
def IsStream (bytes : List UInt8) (rs : List (Except Fault Value)) : Prop :=
  ∃ ls rss, IsLines bytes ls ∧ List.Forall₂ LineGives ls rss ∧ rs = rss.flatten

/-- The result of asking for a number once more after a number of times. -/
def resultAt (input : Input) : Nat → Except Fault Value
  | 0 => input.next.1
  | k + 1 => input.next.2.resultAt k

/-- The results that a line gives. -/
def lineResults (l : List UInt8) : List (Except Fault Value) :=
  match Text.decode? l with
  | some cs => (Text.runs cs).map number
  | none => [.error (.device .notUtf8)]

/-- The results that are left of an input. -/
def remaining (input : Input) : List (Except Fault Value) :=
  input.pending.map number ++ input.lines.flatMap lineResults

/-- Digits denote the same number from either end. -/
theorem decimal_eq_value (ds : List Char) : decimal ds = Decimal.value ds := by
  induction ds using List.reverseRecOn with
  | nil => rfl
  | append_singleton ds d ih =>
    rw [Decimal.value_append_digit, ← ih, decimal, List.reverse_concat, List.map_cons,
      Nat.ofDigits_cons, Nat.add_comm]
    rfl

/-- One or more digits are read as the number that they denote. -/
theorem nat?_eq_some_iff {ds : List Char} {n : Nat} :
    Decimal.nat? ds = some n ↔ ds ≠ [] ∧ (∀ d ∈ ds, d.isDigit = true) ∧ decimal ds = n := by
  rw [Decimal.nat?, decimal_eq_value]
  simp [and_assoc]

/-- A word is read as the integer that it denotes. -/
theorem denotes_iff {w : List Char} {n : Int} : Denotes w n ↔ Decimal.int? w = some n := by
  constructor
  · intro h
    cases h with
    | plain hn hd =>
      rw [Decimal.int?_digits hn (List.all_eq_true.2 hd), decimal_eq_value]
    | plus hn hd =>
      rw [Decimal.int?, nat?_eq_some_iff.2 ⟨hn, hd, rfl⟩]
      rfl
    | minus hn hd =>
      rw [Decimal.int?, nat?_eq_some_iff.2 ⟨hn, hd, rfl⟩]
      rfl
  · intro h
    unfold Decimal.int? at h
    split at h
    · obtain ⟨_, hbind, rfl⟩ := Option.map_eq_some_iff.1 h
      obtain ⟨m, hm, hcast⟩ := Option.bind_eq_some_iff.1 hbind
      obtain ⟨hn, hd, rfl⟩ := nat?_eq_some_iff.1 hm
      cases hcast
      exact .minus hn hd
    · obtain ⟨m, hm, rfl⟩ := Option.map_eq_some_iff.1 h
      obtain ⟨hn, hd, rfl⟩ := nat?_eq_some_iff.1 hm
      exact .plus hn hd
    · obtain ⟨m, hm, rfl⟩ := Option.map_eq_some_iff.1 h
      obtain ⟨hn, hd, rfl⟩ := nat?_eq_some_iff.1 hm
      exact .plain hn hd

/-- Words are read as they should be. -/
theorem readsAs_iff {w : List Char} {r : Except Fault Value} : ReadsAs w r ↔ number w = r := by
  have hmin : Int64.minValue.toInt = -2 ^ 63 := by decide
  have hmax : Int64.maxValue.toInt = 2 ^ 63 - 1 := by decide
  constructor
  · intro h
    cases h with
    | @number v h =>
      have hfits : Decimal.int64? w = some v := by
        rw [Decimal.int64?, denotes_iff.1 h, Option.bind_some,
          if_pos ⟨v.minValue_le_toInt, v.toInt_le⟩, Int64.ofInt_toInt]
      rw [number, hfits]
    | invalid h =>
      have hnone : Decimal.int64? w = none := by
        rw [Decimal.int64?]
        cases hint : Decimal.int? w with
        | none => rfl
        | some n =>
          have hout := h n (denotes_iff.2 hint)
          rw [Option.bind_some, if_neg (by omega)]
      rw [number, hnone]
  · rintro rfl
    rw [number]
    cases hint : Decimal.int? w with
    | none =>
      rw [Decimal.int64?, hint, Option.bind_none]
      refine .invalid fun n hn => ?_
      rw [denotes_iff.1 hn] at hint
      cases hint
    | some n =>
      rw [Decimal.int64?, hint, Option.bind_some]
      split_ifs with hfits
      · refine .number ?_
        rw [Int64.toInt_ofInt_of_le (by omega) (by omega)]
        exact denotes_iff.2 hint
      · refine .invalid fun m hm => ?_
        rw [denotes_iff.1 hm] at hint
        cases hint
        omega

/-- A relation that gives one value for each argument gives a list of values for a list. -/
theorem forall₂_iff_map {α β : Type} {R : α → β → Prop} {f : α → β} (h : ∀ a b, R a b ↔ f a = b)
    {as : List α} {bs : List β} : List.Forall₂ R as bs ↔ as.map f = bs := by
  have hR : R = fun a b => f a = b := funext fun a => funext fun b => propext (h a b)
  rw [hR, ← List.forall₂_map_left_iff, List.forall₂_eq_eq_eq]

/-- Words are read one by one. -/
theorem forall₂_readsAs_iff {ws : List (List Char)} {rs : List (Except Fault Value)} :
    List.Forall₂ ReadsAs ws rs ↔ ws.map number = rs :=
  forall₂_iff_map @readsAs_iff

/-- Lines give what they should. -/
theorem lineGives_iff {l : List UInt8} {rs : List (Except Fault Value)} :
    LineGives l rs ↔ lineResults l = rs := by
  constructor
  · intro h
    cases h with
    | text hl hrs =>
      rw [lineResults, Text.decode?_eq_some_iff.2 hl]
      exact forall₂_readsAs_iff.1 hrs
    | notUtf8 hl => rw [lineResults, Text.decode?_eq_none_iff.2 hl]
  · rintro rfl
    rw [lineResults]
    cases hl : Text.decode? l with
    | some cs =>
      exact .text (Text.decode?_eq_some_iff.1 hl) (forall₂_readsAs_iff.2 rfl)
    | none => exact .notUtf8 (Text.decode?_eq_none_iff.1 hl)

/-- Bytes without a newline are a line. -/
theorem splitLines_last {l : List UInt8} (hn : l ≠ []) (hl : 10 ∉ l) : splitLines l = [l] := by
  induction l with
  | nil => exact absurd rfl hn
  | cons b l ih =>
    rw [List.mem_cons, not_or] at hl
    rw [splitLines, if_neg (Ne.symm hl.1)]
    cases l with
    | nil => rfl
    | cons c l => rw [ih (List.cons_ne_nil _ _) hl.2]

/-- The bytes up to the first newline are a line. -/
theorem splitLines_append_newline {l : List UInt8} (hl : 10 ∉ l) (bytes : List UInt8) :
    splitLines (l ++ 10 :: bytes) = (l ++ [10]) :: splitLines bytes := by
  induction l with
  | nil => rw [List.nil_append, splitLines, if_pos rfl, List.nil_append]
  | cons b l ih =>
    rw [List.mem_cons, not_or] at hl
    rw [List.cons_append, splitLines, if_neg (Ne.symm hl.1), ih hl.2]
    rfl

/-- Bytes are divided into lines as they should be, and in no other way. -/
theorem isLines_iff {bytes : List UInt8} {ls : List (List UInt8)} :
    IsLines bytes ls ↔ splitLines bytes = ls := by
  have hunique : ∀ {bytes ls}, IsLines bytes ls → splitLines bytes = ls := by
    intro bytes ls h
    induction h with
    | nil => rfl
    | last hn hl => exact splitLines_last hn hl
    | cons hl _ ih => rw [splitLines_append_newline hl, ih]
  refine ⟨hunique, ?_⟩
  rintro rfl
  -- the lines behind the first newline are those of fewer bytes
  induction hlen : bytes.length using Nat.strongRecOn generalizing bytes with
  | _ n ih =>
    by_cases hmem : 10 ∈ bytes
    · obtain ⟨l, rest, rfl, hl⟩ := List.eq_append_cons_of_mem hmem
      rw [splitLines_append_newline hl]
      refine .cons hl (ih rest.length ?_ rfl)
      simp only [List.length_append, List.length_cons] at hlen
      omega
    · cases bytes with
      | nil => exact .nil
      | cons b bytes =>
        rw [splitLines_last (List.cons_ne_nil _ _) hmem]
        exact .last (List.cons_ne_nil _ _) hmem

/-- The results of lines are those of the bytes that they were divided from. -/
theorem isStream_iff {bytes : List UInt8} {rs : List (Except Fault Value)} :
    IsStream bytes rs ↔ (splitLines bytes).flatMap lineResults = rs := by
  have hlines : ∀ ls rss, List.Forall₂ LineGives ls rss ↔ ls.map lineResults = rss :=
    fun ls rss => forall₂_iff_map @lineGives_iff
  constructor
  · rintro ⟨ls, rss, hls, hrss, rfl⟩
    rw [isLines_iff.1 hls, List.flatMap_def, (hlines ls rss).1 hrss]
  · rintro rfl
    exact ⟨_, _, isLines_iff.2 rfl, (hlines _ _).2 rfl, List.flatMap_def⟩

/-- Asking for a number gives the first of the results that are left and leaves the other ones. Where
none is left, the device may fail once, and otherwise the input is exhausted. -/
theorem next_cases (input : Input) :
    (input.remaining = [] ∧
      input.next = (.error (if input.fails then .device .inputFailed else .exhausted),
        ⟨[], [], false⟩)) ∨
    (input.remaining = input.next.1 :: input.next.2.remaining ∧
      input.next.2.fails = input.fails) := by
  obtain ⟨pending, lines, fails⟩ := input
  cases pending with
  | cons w ws => exact .inr ⟨rfl, rfl⟩
  | nil =>
    change (lines.flatMap lineResults = [] ∧ nextOfLines fails lines = _) ∨
      (lines.flatMap lineResults =
          (nextOfLines fails lines).1 :: (nextOfLines fails lines).2.remaining ∧
        (nextOfLines fails lines).2.fails = fails)
    induction lines with
    | nil => exact .inl ⟨rfl, rfl⟩
    | cons l lines ih =>
      rw [List.flatMap_cons, lineResults, nextOfLines]
      cases Text.decode? l with
      | none => exact .inr ⟨rfl, rfl⟩
      | some cs =>
        dsimp only
        rw [Text.words_eq_runs]
        cases Text.runs cs with
        | nil => exact ih
        | cons w ws => exact .inr ⟨rfl, rfl⟩

/-- If the device does not fail, an input that is exhausted stays so. -/
theorem next_remaining {input : Input} (h : input.fails = false) :
    input.next.2.fails = false ∧
      ((input.remaining = [] ∧ input.next.1 = .error .exhausted ∧ input.next.2.remaining = []) ∨
        input.remaining = input.next.1 :: input.next.2.remaining) := by
  rcases next_cases input with ⟨hnone, hnext⟩ | ⟨hsome, hfails⟩
  · rw [h] at hnext
    rw [hnext]
    exact ⟨rfl, .inl ⟨hnone, rfl, rfl⟩⟩
  · exact ⟨hfails.trans h, .inr hsome⟩

/-- What is left of an input are numbers, words that are none and lines that are not valid. -/
theorem exhausted_not_mem_remaining (input : Input) : .error .exhausted ∉ input.remaining := by
  have hword : ∀ w, number w ≠ .error .exhausted := by
    intro w h
    rw [number] at h
    split at h <;> cases h
  have hline : ∀ l, .error .exhausted ∉ lineResults l := by
    intro l h
    rw [lineResults] at h
    split at h
    · obtain ⟨w, -, hw⟩ := List.mem_map.1 h
      exact hword w hw
    · cases List.mem_singleton.1 h
  intro h
  rcases List.mem_append.1 h with hpending | hlines
  · obtain ⟨w, -, hw⟩ := List.mem_map.1 hpending
    exact hword w hw
  · obtain ⟨l, -, hl⟩ := List.mem_flatMap.1 hlines
    exact hline l hl

/-- An input is exhausted if nothing is left of it and its device does not fail. -/
theorem next_eq_exhausted_iff {input : Input} :
    input.next.1 = .error .exhausted ↔ input.remaining = [] ∧ input.fails = false := by
  rcases next_cases input with ⟨hnone, hnext⟩ | ⟨hsome, -⟩
  · rw [hnext]
    cases input.fails <;> simp [hnone]
  · constructor
    · intro h
      rw [h] at hsome
      have hmem : .error .exhausted ∈ input.remaining := hsome ▸ List.mem_cons_self
      exact absurd hmem input.exhausted_not_mem_remaining
    · rintro ⟨hnone, -⟩
      rw [hnone] at hsome
      cases hsome

/-- However often a number is asked for, the results are those that were left at first. -/
theorem resultAt_eq {input : Input} (h : input.fails = false) (k : Nat) :
    input.resultAt k = input.remaining[k]?.getD (.error .exhausted) := by
  induction k generalizing input with
  | zero =>
    obtain ⟨-, ⟨hnone, hexhausted, -⟩ | hsome⟩ := next_remaining h
    · rw [resultAt, hnone, hexhausted]
      rfl
    · rw [resultAt, hsome]
      rfl
  | succ k ih =>
    obtain ⟨hfails, ⟨hnone, -, hstill⟩ | hsome⟩ := next_remaining h
    · rw [resultAt, ih hfails, hstill, hnone]
      rfl
    · rw [resultAt, ih hfails, hsome, List.getElem?_cons_succ]

/-- The lines of a text give the same results as the text at once. -/
theorem lineResults_encode (cs : List Char) :
    (splitLines (Text.encode cs)).flatMap lineResults = (Text.runs cs).map number := by
  have hline : ∀ cs, lineResults (Text.encode cs) = (Text.runs cs).map number := by
    intro cs
    rw [lineResults, Text.decode?_eq_some_iff.2 rfl]
  induction hlen : cs.length using Nat.strongRecOn generalizing cs with
  | _ n ih =>
    by_cases hmem : '\n' ∈ cs
    · obtain ⟨line, rest, rfl, hnot⟩ := List.eq_append_cons_of_mem hmem
      have hrest : rest.length < n := by
        simp only [List.length_append, List.length_cons] at hlen
        omega
      have hfirst : Text.encode line ++ [10] = Text.encode (line ++ ['\n']) := by
        rw [Text.encode_append]
        rfl
      have hbytes : Text.encode (line ++ '\n' :: rest) =
          Text.encode line ++ 10 :: Text.encode rest := by
        rw [List.append_cons, Text.encode_append, ← hfirst, List.append_assoc]
        rfl
      rw [hbytes, splitLines_append_newline (Text.not_mem_encode hnot), List.flatMap_cons, hfirst,
        hline, ih _ hrest rest rfl, ← List.map_append, Text.runs_append_blank rfl,
        Text.runs_append_blank rfl, List.append_assoc]
      rfl
    · cases cs with
      | nil => rfl
      | cons c cs =>
        have hsome : Text.encode (c :: cs) ≠ [] := by
          rw [Text.encode_eq_flatMap, List.flatMap_cons]
          exact List.append_ne_nil_of_left_ne_nil String.utf8EncodeChar_ne_nil _
        rw [splitLines_last hsome (Text.not_mem_encode hmem), List.flatMap_singleton, hline]

/-- However often a number is asked for, the results are those of the lines of the input, which are
determined by its bytes, and behind them the input is exhausted. If the input is the UTF-8 form of a
text, then they are those of the runs of the whole text. -/
theorem resultAt_ofBytes (bytes : List UInt8) :
    ∃ rs, (∀ rs', IsStream bytes rs' ↔ rs' = rs) ∧
      (∀ k, (ofBytes bytes false).resultAt k = rs[k]?.getD (.error .exhausted)) ∧
      ∀ cs, bytes = Text.encode cs → List.Forall₂ ReadsAs (Text.runs cs) rs := by
  refine ⟨(splitLines bytes).flatMap lineResults, fun rs' => ?_, fun k => ?_, ?_⟩
  · rw [isStream_iff, eq_comm]
  · exact resultAt_eq rfl k
  · rintro cs rfl
    exact forall₂_readsAs_iff.2 (lineResults_encode cs).symm

-- two words, a line that is not valid UTF-8, a blank line and a last line without a newline
example : (List.range 5).map
    (ofBytes [55, 32, 120, 10, 255, 32, 56, 10, 9, 10, 45, 48, 57] false).resultAt =
    [.ok 7, .error (.invalid "x"), .error (.device .notUtf8), .ok (-9), .error .exhausted] := by
  cbv

end Input

end IntScript
