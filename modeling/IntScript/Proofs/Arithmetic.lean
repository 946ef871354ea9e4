import IntScript.Operator
import Mathlib.Data.Int.ModEq
import Mathlib.Data.Rat.Floor

/-!
# What operators compute

The results of operators are compared with calculations in exact integers. A sum, a difference or a
product is the one value that is congruent to the exact result. A quotient is rounded toward zero,
and only one quotient does not fit in 64 bits: that of the least value and minus one, which wraps
around. Comparisons and logical operators decide statements about the exact integers.
-/

namespace IntScript

namespace Value

/-- A value is the only one that is congruent to an exact integer. -/
def Wraps (v : Value) (n : Int) : Prop := ∀ w : Value, w.toInt ≡ n [ZMOD 2 ^ 64] ↔ w = v

/-- A value is the truth value of a statement. -/
def Tells (v : Value) (p : Prop) : Prop := (p → v = 1) ∧ (¬p → v = 0)

/-- Two values that are congruent are equal. -/
theorem eq_of_modEq {v w : Value} (h : v.toInt ≡ w.toInt [ZMOD 2 ^ 64]) : v = w := by
  have hv := v.le_toInt
  have hv' := v.toInt_lt
  have hw := w.le_toInt
  have hw' := w.toInt_lt
  rw [Int.ModEq] at h
  refine Int64.toInt_inj.1 ?_
  omega

/-- An integer that is brought into the range of values is the value that it wraps around to. -/
theorem wraps_of_bmod {v : Value} {n : Int} (h : v.toInt = n.bmod (2 ^ 64)) : v.Wraps n := by
  have hv : v.toInt ≡ n [ZMOD 2 ^ 64] := by
    rw [h]
    exact Int.bmod_emod
  intro w
  constructor
  · intro hw
    exact eq_of_modEq (hw.trans hv.symm)
  · rintro rfl
    exact hv

/-- The value of a truth value that decides a statement tells it. -/
theorem tells_ofBool {b : Bool} {p : Prop} (h : b = true ↔ p) : (ofBool b).Tells p := by
  cases b with
  | true => exact ⟨fun _ => rfl, fun hp => absurd (h.1 rfl) hp⟩
  | false => exact ⟨fun hp => absurd (h.2 hp) Bool.false_ne_true, fun _ => rfl⟩

/-- A value counts as true if it is not zero as an exact integer. -/
theorem truthy_iff {v : Value} : truthy v = true ↔ v.toInt ≠ 0 := by
  rw [truthy, bne_iff_ne, ne_eq, ← Int64.toInt_inj]
  rfl

end Value

namespace Arithmetic

/-- A rational number rounded toward zero. -/
def truncated (x : ℚ) : Int := if 0 ≤ x then ⌊x⌋ else ⌈x⌉

/-- The remainder of a division toward zero is smaller than the divisor. -/
theorem abs_tmod_lt (l : Int) {r : Int} (hr : r ≠ 0) : |l.tmod r| < |r| := by
  rw [Int.abs_eq_natAbs, Int.abs_eq_natAbs, Int.natAbs_tmod]
  exact_mod_cast Nat.mod_lt _ (Int.natAbs_pos.2 hr)

/-- The remainder of a division toward zero is zero or has the sign of the dividend. -/
theorem tmod_eq_zero_or_sign (l r : Int) : l.tmod r = 0 ∨ (l.tmod r).sign = l.sign := by
  have hsign := Int.sign_tmod l r
  split at hsign
  · exact .inl (Int.sign_eq_zero_iff_zero.1 hsign)
  · exact .inr hsign

/-- What is left of a quotient that is not negative is not negative. -/
theorem tmod_div_nonneg {l r : Int} (h : 0 ≤ (l / r : ℚ)) : 0 ≤ (l.tmod r / r : ℚ) := by
  rcases div_nonneg_iff.1 h with ⟨hl, hr⟩ | ⟨hl, hr⟩
  · have hm := Int.tmod_nonneg r (Int.cast_nonneg_iff.1 hl)
    exact div_nonneg (Int.cast_nonneg_iff.2 hm) hr
  · have hm := Int.tmod_nonneg r (Int.neg_nonneg_of_nonpos (Int.cast_nonpos.1 hl))
    rw [Int.neg_tmod] at hm
    exact div_nonneg_of_nonpos (Int.cast_nonpos.2 (by omega)) hr

/-- What is left of a quotient that is not positive is not positive. -/
theorem tmod_div_nonpos {l r : Int} (h : (l / r : ℚ) ≤ 0) : (l.tmod r / r : ℚ) ≤ 0 := by
  have hneg : 0 ≤ ((-l : Int) / r : ℚ) := by
    rw [Int.cast_neg, neg_div]
    exact neg_nonneg.2 h
  have hm := tmod_div_nonneg hneg
  rw [Int.neg_tmod, Int.cast_neg, neg_div] at hm
  exact neg_nonneg.1 hm

/-- Division toward zero rounds the exact quotient toward zero. -/
theorem truncated_div (l : Int) {r : Int} (hr : r ≠ 0) : truncated (l / r) = l.tdiv r := by
  have hr' : (r : ℚ) ≠ 0 := Int.cast_ne_zero.2 hr
  have hsplit : (l / r : ℚ) = l.tdiv r + l.tmod r / r := by
    have hl : (l : ℚ) = l.tdiv r * r + l.tmod r := by
      exact_mod_cast (Int.tdiv_mul_add_tmod l r).symm
    rw [div_eq_iff hr', add_mul, div_mul_cancel₀ _ hr']
    exact hl
  have hsmall : |(l.tmod r / r : ℚ)| < 1 := by
    rw [abs_div, div_lt_one (abs_pos.2 hr')]
    exact_mod_cast abs_tmod_lt l hr
  obtain ⟨hlow, hhigh⟩ := abs_lt.1 hsmall
  rw [truncated]
  split
  · next h =>
    have hm := tmod_div_nonneg h
    refine Int.floor_eq_iff.2 ⟨?_, ?_⟩ <;> rw [hsplit] <;> linarith
  · next h =>
    have hm := tmod_div_nonpos (not_le.1 h).le
    refine Int.ceil_eq_iff.2 ⟨?_, ?_⟩ <;> rw [hsplit] <;> linarith

/-- What a quotient and a remainder of values have to be. -/
structure Divides (l r q m : Value) : Prop where
  /-- They make up the dividend, up to multiples of 2⁶⁴. -/
  splits : l.toInt ≡ q.toInt * r.toInt + m.toInt [ZMOD 2 ^ 64]
  /-- The remainder is smaller than the divisor. -/
  smaller : |m.toInt| < |r.toInt|
  /-- The remainder has the sign of the dividend unless it is zero. -/
  sign : m.toInt = 0 ∨ m.toInt.sign = l.toInt.sign
  /-- The quotient is the exact one, rounded toward zero. -/
  rounded : ¬(l.toInt = -2 ^ 63 ∧ r.toInt = -1) → q.toInt = truncated (l.toInt / r.toInt)
  /-- The only quotient that does not fit wraps around. -/
  wrapped : l.toInt = -2 ^ 63 ∧ r.toInt = -1 → q.toInt = -2 ^ 63 ∧ m.toInt = 0

/-- The quotient and the remainder of values are as they have to be. -/
theorem divides (l : Value) {r : Value} (hr : r ≠ 0) : Divides l r (l / r) (l % r) := by
  have hr' : r.toInt ≠ 0 := fun h => hr (Int64.toInt_inj.1 h)
  have hdiv := Int64.toInt_div l r
  have hmod := Int64.toInt_mod l r
  refine ⟨?_, ?_, ?_, ?_, ?_⟩
  · have hq : (l / r).toInt ≡ l.toInt.tdiv r.toInt [ZMOD 2 ^ 64] := by
      rw [hdiv]
      exact Int.bmod_emod
    have hsum := (hq.mul_right r.toInt).add_right (l % r).toInt
    rw [hmod, Int.tdiv_mul_add_tmod] at hsum
    rw [hmod]
    exact hsum.symm
  · rw [hmod]
    exact abs_tmod_lt l.toInt hr'
  · rw [hmod]
    exact tmod_eq_zero_or_sign l.toInt r.toInt
  · intro hfits
    rw [truncated_div l.toInt hr']
    by_cases hl : l = Int64.minValue
    · refine Int64.toInt_div_of_ne_right l r fun h => hfits ⟨?_, ?_⟩
      · rw [hl]
        rfl
      · rw [h]
        rfl
    · exact Int64.toInt_div_of_ne_left l r hl
  · rintro ⟨hl, hone⟩
    rw [hdiv, hmod, hl, hone]
    decide

end Arithmetic

/-- What a comparison or a logical operator asserts about exact integers. -/
def BinaryOp.asserts? : BinaryOp → Option (Int → Int → Prop)
  | .eq => some fun l r => l = r
  | .ne => some fun l r => l ≠ r
  | .lt => some fun l r => l < r
  | .le => some fun l r => l ≤ r
  | .gt => some fun l r => l > r
  | .ge => some fun l r => l ≥ r
  | .and => some fun l r => l ≠ 0 ∧ r ≠ 0
  | .or => some fun l r => l ≠ 0 ∨ r ≠ 0
  | .add | .sub | .mul | .div | .mod => none

/-- What operators have to compute. -/
structure IsArithmetic (binary : BinaryOp → Value → Value → Except ArithmeticFault Value)
    (unary : UnaryOp → Value → Value) : Prop where
  /-- Only divisions and remainders by zero fail, each with its own fault. -/
  fails_iff : ∀ op l r e, binary op l r = .error e ↔
    r.toInt = 0 ∧ (op = .div ∧ e = .divisionByZero ∨ op = .mod ∧ e = .remainderByZero)
  /-- Sums wrap around. -/
  add : ∀ l r, ∃ v, binary .add l r = .ok v ∧ v.Wraps (l.toInt + r.toInt)
  /-- Differences wrap around. -/
  sub : ∀ l r, ∃ v, binary .sub l r = .ok v ∧ v.Wraps (l.toInt - r.toInt)
  /-- Products wrap around. -/
  mul : ∀ l r, ∃ v, binary .mul l r = .ok v ∧ v.Wraps (l.toInt * r.toInt)
  /-- A divisor that is not zero gives a quotient and a remainder. -/
  divide : ∀ l r : Value, r.toInt ≠ 0 → ∃ q m, binary .div l r = .ok q ∧ binary .mod l r = .ok m ∧
    Arithmetic.Divides l r q m
  /-- Comparisons and logical operators tell whether what they assert is true. -/
  decides : ∀ op holds, BinaryOp.asserts? op = some holds → ∀ l r, ∃ v, binary op l r = .ok v ∧
    v.Tells (holds l.toInt r.toInt)
  /-- Negatives wrap around. -/
  neg : ∀ v, (unary .neg v).Wraps (-v.toInt)
  /-- One more wraps around. -/
  increment : ∀ v, (unary .increment v).Wraps (v.toInt + 1)
  /-- One less wraps around. -/
  decrement : ∀ v, (unary .decrement v).Wraps (v.toInt - 1)
  /-- The negation of a truth value tells whether a value is zero. -/
  not : ∀ v, (unary .not v).Tells (v.toInt = 0)

/-- Only divisions by zero and remainders by zero fail. -/
theorem BinaryOp.apply_eq_error_iff {op : BinaryOp} {l r : Value} {e : ArithmeticFault} :
    op.apply l r = .error e ↔
      r = 0 ∧ (op = .div ∧ e = .divisionByZero ∨ op = .mod ∧ e = .remainderByZero) := by
  cases op with
  | div => by_cases hr : r = 0 <;> simp [apply, hr, eq_comm]
  | mod => by_cases hr : r = 0 <;> simp [apply, hr, eq_comm]
  | _ => simp [apply]

/-- Comparisons and logical operators decide what they assert. -/
theorem BinaryOp.apply_decides {op : BinaryOp} {holds : Int → Int → Prop}
    (h : op.asserts? = some holds) (l r : Value) :
    ∃ v, op.apply l r = .ok v ∧ v.Tells (holds l.toInt r.toInt) := by
  cases op with
  | eq =>
    cases h
    exact ⟨_, rfl, Value.tells_ofBool (beq_iff_eq.trans Int64.toInt_inj.symm)⟩
  | ne =>
    cases h
    exact ⟨_, rfl, Value.tells_ofBool (bne_iff_ne.trans (not_congr Int64.toInt_inj.symm))⟩
  | lt =>
    cases h
    exact ⟨_, rfl, Value.tells_ofBool (decide_eq_true_iff.trans Int64.lt_iff_toInt_lt)⟩
  | le =>
    cases h
    exact ⟨_, rfl, Value.tells_ofBool (decide_eq_true_iff.trans Int64.le_iff_toInt_le)⟩
  | gt =>
    cases h
    exact ⟨_, rfl, Value.tells_ofBool (decide_eq_true_iff.trans Int64.lt_iff_toInt_lt)⟩
  | ge =>
    cases h
    exact ⟨_, rfl, Value.tells_ofBool (decide_eq_true_iff.trans Int64.le_iff_toInt_le)⟩
  | and =>
    cases h
    have hboth : (Value.truthy l && Value.truthy r) = true ↔ l.toInt ≠ 0 ∧ r.toInt ≠ 0 := by
      rw [Bool.and_eq_true, Value.truthy_iff, Value.truthy_iff]
    exact ⟨_, rfl, Value.tells_ofBool hboth⟩
  | or =>
    cases h
    have hone : (Value.truthy l || Value.truthy r) = true ↔ l.toInt ≠ 0 ∨ r.toInt ≠ 0 := by
      rw [Bool.or_eq_true, Value.truthy_iff, Value.truthy_iff]
    exact ⟨_, rfl, Value.tells_ofBool hone⟩
  | _ => cases h

/-- The operators compute what they have to, for all values: they fail on a zero divisor and nowhere
else, sums, differences, products and changes by one are exact up to multiples of 2⁶⁴, quotients are
rounded toward zero except for the one that does not fit, and comparisons and logical operators
decide statements about the exact integers. -/
theorem operators_isArithmetic : IsArithmetic BinaryOp.apply UnaryOp.apply where
  fails_iff := by
    intro op l r e
    have hzero : r.toInt = 0 ↔ r = 0 := Int64.toInt_inj (y := 0)
    rw [hzero]
    exact BinaryOp.apply_eq_error_iff
  add := fun l r => ⟨l + r, rfl, Value.wraps_of_bmod (Int64.toInt_add l r)⟩
  sub := fun l r => ⟨l - r, rfl, Value.wraps_of_bmod (Int64.toInt_sub l r)⟩
  mul := fun l r => ⟨l * r, rfl, Value.wraps_of_bmod (Int64.toInt_mul l r)⟩
  divide := by
    intro l r hr
    have hne : r ≠ 0 := by
      rintro rfl
      exact hr rfl
    exact ⟨l / r, l % r, if_neg hne, if_neg hne, Arithmetic.divides l hne⟩
  decides := fun _ _ h l r => BinaryOp.apply_decides h l r
  neg := fun v => Value.wraps_of_bmod (Int64.toInt_neg v)
  increment := fun v => Value.wraps_of_bmod (Int64.toInt_add v 1)
  decrement := fun v => Value.wraps_of_bmod (Int64.toInt_sub v 1)
  not := by
    intro v
    refine Value.tells_ofBool ?_
    rw [Bool.not_eq_true', ← Bool.not_eq_true, Value.truthy_iff, ne_eq, not_not]

example : BinaryOp.div.apply Int64.minValue (-1) = .ok Int64.minValue := by decide

end IntScript
