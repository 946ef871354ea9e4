import IntScript.Proofs.Text.Decimal
import Mathlib.Logic.Function.Basic

/-!
# Texts that can be taken apart

A text is put together from parts. The parts can be told again if each of them ends where a
character stands that it cannot have itself, in front of it or behind it. So numbers can be read off
a text in which other characters than digits stand behind them.
-/

namespace IntScript

/-- Two texts of characters of a kind are equal if they are cut off by the same character that is
not of the kind, and so is what comes behind. -/
theorem append_cons_inj {p : Char → Bool} {u v x y : List Char} {c : Char} (hu : u.all p = true)
    (hv : v.all p = true) (hc : p c = false) (h : u ++ c :: x = v ++ c :: y) : u = v ∧ x = y := by
  have htake : ∀ w z : List Char, w.all p = true → (w ++ c :: z).takeWhile p = w := by
    intro w z hw
    have hstop : ¬ p c = true := by rw [hc]; decide
    rw [List.takeWhile_append_of_pos (List.all_eq_true.1 hw), List.takeWhile_cons_of_neg hstop,
      List.append_nil]
  have heq : u = v := by rw [← htake u x hu, ← htake v y hv, h]
  subst heq
  exact ⟨rfl, (List.cons.inj (List.append_cancel_left h)).2⟩

/-- Two texts of characters of a kind are equal if the same character that is not of the kind stands
in front of them, and so is what comes before. -/
theorem append_cons_inj_last {p : Char → Bool} {u v x y : List Char} {c : Char}
    (hx : x.all p = true) (hy : y.all p = true) (hc : p c = false)
    (h : u ++ c :: x = v ++ c :: y) : u = v ∧ x = y := by
  have hreverse := congrArg List.reverse h
  simp only [List.reverse_append, List.reverse_cons, List.append_assoc, List.singleton_append]
    at hreverse
  obtain ⟨hxy, huv⟩ := append_cons_inj (by rwa [List.all_reverse]) (by rwa [List.all_reverse]) hc
    hreverse
  exact ⟨List.reverse_inj.1 huv, List.reverse_inj.1 hxy⟩

/-- A part of a text can be told from what follows if that begins with a character that the part
cannot have. -/
theorem append_stop_iff {p : Char → Bool} {u v stop x y : List Char} (hu : u.all p = true)
    (hv : v.all p = true) (hstop : stop.head?.map p = some false) :
    u ++ (stop ++ x) = v ++ (stop ++ y) ↔ u = v ∧ x = y := by
  obtain ⟨c, hhead, hc⟩ := Option.map_eq_some_iff.1 hstop
  obtain ⟨cs, rfl⟩ := List.head?_eq_some_iff.1 hhead
  constructor
  · intro h
    obtain ⟨huv, hxy⟩ := append_cons_inj hu hv hc h
    exact ⟨huv, List.append_cancel_left hxy⟩
  · rintro ⟨rfl, rfl⟩
    rfl

/-- Different numbers are written differently. -/
theorem Decimal.ofNat_injective {m n : Nat} (h : Decimal.ofNat m = Decimal.ofNat n) : m = n := by
  rw [← Decimal.value_ofNat m, h, Decimal.value_ofNat]

/-- A digit is none of the other characters. -/
theorem bne_of_isDigit {c d : Char} (hc : c.isDigit = true) (hd : d.isDigit = false) :
    (c != d) = true := by
  refine bne_iff_ne.2 ?_
  rintro rfl
  rw [hc] at hd
  cases hd

namespace Decimal

/-- The text of a number that may be unknown, with a word for that. -/
def ofOption (unknown : List Char) : Option Nat → List Char
  | some n => ofNat n
  | none => unknown

variable (unknown : List Char)

/-- A number that may be unknown is written with digits and the characters of the word. -/
theorem ofOption_all {p : Char → Bool} (hdigit : ∀ c, c.isDigit = true → p c = true)
    (hunknown : unknown.all p = true) (o : Option Nat) : (ofOption unknown o).all p = true := by
  cases o with
  | none => exact hunknown
  | some n =>
    exact List.all_eq_true.2 fun c hc => hdigit c (List.all_eq_true.1 (ofNat_all n) c hc)

/-- Numbers that may be unknown are written differently if the word is no number. -/
theorem ofOption_injective (hunknown : unknown.all Char.isDigit = false) :
    Function.Injective (ofOption unknown) := by
  have hword : ∀ n, ofNat n ≠ unknown := by
    rintro n rfl
    rw [ofNat_all] at hunknown
    cases hunknown
  intro o o' h
  cases o with
  | none =>
    cases o' with
    | none => rfl
    | some n => exact absurd h.symm (hword n)
  | some n =>
    cases o' with
    | none => exact absurd h (hword n)
    | some m => exact congrArg some (ofNat_injective h)

end Decimal

/-- Different values are printed differently. -/
theorem Value.chars_injective : Function.Injective Value.chars := by
  intro v w h
  have hv := Decimal.int64?_chars_self v
  rw [h, Decimal.int64?_chars_self w] at hv
  exact (Option.some.inj hv).symm

/-- A value is printed with digits and signs. -/
theorem Value.chars_all (v : Value) :
    (Value.chars v).all (fun c => c == '-' || c.isDigit) = true := by
  refine List.all_eq_true.2 fun c hc => ?_
  rw [Bool.or_eq_true, beq_iff_eq]
  exact Decimal.mem_chars hc

end IntScript
