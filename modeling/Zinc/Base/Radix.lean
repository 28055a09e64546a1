import Mathlib.Data.Nat.Digits.Lemmas

/-! Numbers as digits with the most significant one in front. Exactly one sequence of
digits of a number has no leading zero; any other sequence of more than one digit
either has one in front or stands for another number. -/

namespace Radix

/-- The digits of a number without leading zeros; zero has one digit. -/
def digits (b n : ℕ) : List ℕ := if n = 0 then [0] else (Nat.digits b n).reverse

/-- The number that digits stand for. -/
def value (b : ℕ) (ds : List ℕ) : ℕ := Nat.ofDigits b ds.reverse

theorem value_digits (b n : ℕ) : value b (digits b n) = n := by
  unfold value digits
  split
  next h => rw [h]; rfl
  next => rw [List.reverse_reverse, Nat.ofDigits_digits]

theorem digits_lt {b : ℕ} (hb : 1 < b) {n d : ℕ} (hd : d ∈ digits b n) : d < b := by
  unfold digits at hd
  split at hd
  next =>
    rw [List.mem_singleton.mp hd]
    omega
  next => exact Nat.digits_lt_base hb (List.mem_reverse.mp hd)

/-- The first digit is not zero, unless it is the only one. -/
theorem head_digits_ne_zero (b : ℕ) {n : ℕ} (hn : n ≠ 0) : (digits b n).head? ≠ some 0 := by
  rw [digits, if_neg hn, List.head?_reverse,
    List.getLast?_eq_some_getLast (Nat.digits_ne_nil_iff_ne_zero.mpr hn)]
  intro h
  exact Nat.getLast_digit_ne_zero b hn (Option.some.inj h)

/-- Digits without a leading zero are the digits of their number. -/
theorem digits_value {b : ℕ} (hb : 1 < b) {ds : List ℕ} (hlt : ∀ d ∈ ds, d < b) (hne : ds ≠ [])
    (hhead : ds.head? ≠ some 0) : digits b (value b ds) = ds := by
  have hrev : ds.reverse ≠ [] := by rwa [ne_eq, List.reverse_eq_nil_iff]
  have hlast : ∀ h : ds.reverse ≠ [], ds.reverse.getLast h ≠ 0 := by
    intro h hzero
    apply hhead
    rw [← List.getLast?_reverse, List.getLast?_eq_some_getLast h, hzero]
  have hdigits : Nat.digits b (value b ds) = ds.reverse :=
    Nat.digits_ofDigits b hb _ (fun d hd => hlt d (List.mem_reverse.mp hd)) hlast
  have hvalue : value b ds ≠ 0 := by
    rw [← Nat.digits_ne_nil_iff_ne_zero (b := b), hdigits]
    exact hrev
  rw [digits, if_neg hvalue, hdigits, List.reverse_reverse]

/-- When more than one digit are the digits of a number. -/
theorem digits_eq_iff {b : ℕ} (hb : 1 < b) {ds : List ℕ} (hlt : ∀ d ∈ ds, d < b)
    (htwo : 2 ≤ ds.length) (n : ℕ) :
    digits b n = ds ↔ n = value b ds ∧ ds.head? ≠ some 0 := by
  constructor
  · rintro rfl
    refine ⟨(value_digits b n).symm, head_digits_ne_zero b ?_⟩
    rintro rfl
    exact Nat.not_succ_le_self 1 htwo
  · rintro ⟨rfl, hhead⟩
    exact digits_value hb hlt (List.ne_nil_of_length_pos (by omega)) hhead

end Radix
