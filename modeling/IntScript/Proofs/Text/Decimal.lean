import IntScript.Value

/-!
# Numbers and their digits

The digits of a natural number denote it, and a row of digits without a sign is read as the number
that it denotes provided that this number fits in 64 bits. So the printed form of every value that
is not negative is read back as that value.
-/

namespace IntScript.Decimal

/-- The digits of numbers below ten are digits. -/
theorem isDigit_digit {n : Nat} (h : n < 10) : (digit n).isDigit = true := by
  have hall : ∀ i : Fin 10, (digit i.val).isDigit = true := by decide
  exact hall ⟨n, h⟩

/-- A digit stands for the number that it was made from. -/
theorem toNat_digit {n : Nat} (h : n < 10) : (digit n).toNat - 48 = n := by
  have hall : ∀ i : Fin 10, (digit i.val).toNat - 48 = i.val := by decide
  exact hall ⟨n, h⟩

/-- Every number has a digit. -/
theorem ofNat_ne_nil (n : Nat) : ofNat n ≠ [] := by
  rw [ofNat]
  split <;> simp

/-- Numbers are written with digits only. -/
theorem ofNat_all (n : Nat) : (ofNat n).all Char.isDigit = true := by
  induction n using Nat.strongRecOn with
  | _ n ih =>
    rw [ofNat]
    split
    · next h => simp only [List.all_cons, isDigit_digit h, List.all_nil, Bool.and_self]
    · next h =>
      have hq := ih (n / 10) (by omega)
      have hr := isDigit_digit (Nat.mod_lt n (by omega : 10 > 0))
      simp only [List.all_append, hq, List.all_cons, hr, List.all_nil, Bool.and_self]

/-- One more digit behind a number. -/
theorem value_append_digit (ds : List Char) (d : Char) :
    value (ds ++ [d]) = 10 * value ds + (d.toNat - 48) := by
  simp only [value, List.foldl_append, List.foldl_cons, List.foldl_nil]

/-- The digits of a number denote it. -/
theorem value_ofNat (n : Nat) : value (ofNat n) = n := by
  induction n using Nat.strongRecOn with
  | _ n ih =>
    rw [ofNat]
    split
    · next h => simpa [value] using toNat_digit h
    · next h =>
      rw [value_append_digit, ih (n / 10) (by omega), toNat_digit (Nat.mod_lt n (by omega))]
      omega

/-- A row of digits has no sign, so it is read as the number that it denotes. -/
theorem int?_digits {ds : List Char} (hn : ds ≠ []) (hd : ds.all Char.isDigit = true) :
    int? ds = some (value ds : Int) := by
  have hnat : nat? ds = some (value ds) := by
    have he : ds.isEmpty = false := by simpa using hn
    simp only [nat?, he, hd, Bool.not_false, Bool.and_self, if_true]
  have hfirst : ∀ c cs, ds = c :: cs → c.isDigit = true := by
    rintro c cs rfl
    simp only [List.all_cons, Bool.and_eq_true] at hd
    exact hd.1
  unfold int?
  split
  · exact absurd (hfirst _ _ rfl) (by decide)
  · exact absurd (hfirst _ _ rfl) (by decide)
  · simp only [hnat, Option.map_some, Int.ofNat_eq_natCast]

/-- A row of digits is not read if and only if the number that it denotes does not fit. -/
theorem int64?_digits_eq_none {ds : List Char} (hn : ds ≠ []) (hd : ds.all Char.isDigit = true) :
    int64? ds = none ↔ Int64.maxValue.toInt < value ds := by
  have hmin : Int64.minValue.toInt ≤ 0 := by decide
  rw [int64?, int?_digits hn hd, Option.bind_some]
  split
  · next h =>
    simp only [reduceCtorEq, false_iff, Int.not_lt]
    exact h.2
  · next h =>
    simp only [true_iff]
    omega

/-- A row of digits is read as the value that it denotes. -/
theorem toInt_of_digits {ds : List Char} {v : Value} (hn : ds ≠ [])
    (hd : ds.all Char.isDigit = true) (h : int64? ds = some v) : v.toInt = value ds := by
  rw [int64?, int?_digits hn hd, Option.bind_some] at h
  split at h
  · next hr =>
    have hm : Int64.maxValue.toInt = 2 ^ 63 - 1 := by decide
    cases h
    rw [Int64.toInt_ofInt_of_le (by omega) (by omega)]
  · cases h

/-- A row of digits is read as a value that is not negative. -/
theorem toInt_nonneg_of_digits {ds : List Char} {v : Value} (hn : ds ≠ [])
    (hd : ds.all Char.isDigit = true) (h : int64? ds = some v) : 0 ≤ v.toInt := by
  rw [toInt_of_digits hn hd h]
  exact Int.natCast_nonneg _

/-- A value that is not negative is printed as a natural number. -/
theorem chars_of_nonneg {v : Value} (h : 0 ≤ v.toInt) : Value.chars v = ofNat v.toInt.toNat := by
  rw [Value.chars, ← Int.toNat_of_nonneg h]
  rfl

/-- A value that is not negative is printed with digits only. -/
theorem chars_digits {v : Value} (h : 0 ≤ v.toInt) :
    Value.chars v ≠ [] ∧ (Value.chars v).all Char.isDigit = true := by
  rw [chars_of_nonneg h]
  exact ⟨ofNat_ne_nil _, ofNat_all _⟩

/-- A value that is not negative is read back from its digits. -/
theorem int64?_chars {v : Value} (h : 0 ≤ v.toInt) : int64? (Value.chars v) = some v := by
  have hv : (v.toInt.toNat : Int) = v.toInt := Int.toNat_of_nonneg h
  rw [int64?, chars_of_nonneg h, int?_digits (ofNat_ne_nil _) (ofNat_all _), value_ofNat, hv,
    Option.bind_some, if_pos ⟨v.minValue_le_toInt, v.toInt_le⟩, Int64.ofInt_toInt]

/-- A value that is negative is printed as a minus sign and a natural number. -/
theorem chars_of_neg {v : Value} (h : v.toInt < 0) :
    Value.chars v = '-' :: ofNat (-v.toInt).toNat := by
  rw [Value.chars]
  cases hv : v.toInt with
  | ofNat n =>
    rw [hv] at h
    exact absurd (Int.natCast_nonneg n) (Int.not_le.2 h)
  | negSucc n => rfl

/-- Every value is read back from what it is printed as. -/
theorem int64?_chars_self (v : Value) : int64? (Value.chars v) = some v := by
  rcases Int.lt_or_le v.toInt 0 with hneg | hnonneg
  · have hdigits : nat? (ofNat (-v.toInt).toNat) = some (-v.toInt).toNat := by
      rw [nat?, ofNat_all, value_ofNat]
      simp [ofNat_ne_nil]
    have hv : -(((-v.toInt).toNat : Nat) : Int) = v.toInt := by omega
    have hread : int? (Value.chars v) = some v.toInt := by
      rw [chars_of_neg hneg, int?, hdigits]
      exact congrArg some hv
    rw [int64?, hread, Option.bind_some, if_pos ⟨v.minValue_le_toInt, v.toInt_le⟩,
      Int64.ofInt_toInt]
  · exact int64?_chars hnonneg

/-- A value is printed with digits and perhaps a minus sign. -/
theorem mem_chars {v : Value} {c : Char} (h : c ∈ Value.chars v) : c = '-' ∨ c.isDigit = true := by
  rcases Int.lt_or_le v.toInt 0 with hneg | hnonneg
  · rw [chars_of_neg hneg, List.mem_cons] at h
    exact h.imp id fun hdigit => List.all_eq_true.1 (ofNat_all _) c hdigit
  · exact .inr (List.all_eq_true.1 (chars_digits hnonneg).2 c h)

/-- Something is printed for every value. -/
theorem chars_ne_nil (v : Value) : Value.chars v ≠ [] := by
  rcases Int.lt_or_le v.toInt 0 with hneg | hnonneg
  · rw [chars_of_neg hneg]
    exact List.cons_ne_nil _ _
  · exact (chars_digits hnonneg).1

end IntScript.Decimal
