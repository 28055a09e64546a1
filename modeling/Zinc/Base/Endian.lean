import Mathlib.Algebra.Group.Nat.Defs
import Mathlib.Data.List.Basic

/-! Fixed-width natural numbers as bytes, least significant byte first. -/

namespace Endian

/-- The `k` low bytes of a number. -/
def bytes : ℕ → ℕ → List UInt8
  | 0, _ => []
  | k + 1, n => UInt8.ofNat n :: bytes k (n / 256)

/-- The number with the given bytes. -/
def value : List UInt8 → ℕ
  | [] => 0
  | b :: bs => b.toNat + 256 * value bs

@[simp] theorem length_bytes (k n : ℕ) : (bytes k n).length = k := by
  induction k generalizing n with
  | zero => rfl
  | succ k ih => rw [bytes, List.length_cons, ih]

theorem value_bytes (k n : ℕ) : value (bytes k n) = n % 256 ^ k := by
  induction k generalizing n with
  | zero => simp [bytes, value, Nat.mod_one]
  | succ k ih =>
    have hb : (UInt8.ofNat n).toNat = n % 256 := UInt8.toNat_ofNat
    rw [bytes, value, ih, hb, Nat.pow_succ', Nat.mod_mul]

theorem value_bytes_of_lt {k n : ℕ} (h : n < 256 ^ k) : value (bytes k n) = n := by
  rw [value_bytes, Nat.mod_eq_of_lt h]

theorem value_lt (bs : List UInt8) : value bs < 256 ^ bs.length := by
  induction bs with
  | nil => simp [value]
  | cons b bs ih =>
    have := b.toNat_lt
    rw [value, List.length_cons, Nat.pow_succ]
    omega

theorem bytes_value (bs : List UInt8) : bytes bs.length (value bs) = bs := by
  induction bs with
  | nil => rfl
  | cons b bs ih =>
    have hb := b.toNat_lt
    have hlow : UInt8.ofNat (b.toNat + 256 * value bs) = b := by
      rw [← UInt8.toNat_inj, UInt8.toNat_ofNat']
      omega
    rw [List.length_cons, value, bytes, hlow, show (b.toNat + 256 * value bs) / 256 = value bs by omega,
      ih]

theorem value_append (xs ys : List UInt8) :
    value (xs ++ ys) = value xs + 256 ^ xs.length * value ys := by
  induction xs with
  | nil => simp [value]
  | cons x xs ih =>
    rw [List.cons_append, value, value, ih, List.length_cons, Nat.pow_succ, Nat.mul_add,
      Nat.mul_comm _ 256, Nat.mul_assoc, Nat.add_assoc]

theorem value_eq_zero_iff (bs : List UInt8) : value bs = 0 ↔ ∀ b ∈ bs, b = 0 := by
  induction bs with
  | nil => simp [value]
  | cons b bs ih =>
    rw [value, List.forall_mem_cons, ← ih, ← UInt8.toNat_inj, UInt8.toNat_zero]
    omega

/-- The complement of all bytes is the complement of the number. -/
theorem value_not (bs : List UInt8) : value (bs.map (~~~·)) + value bs + 1 = 256 ^ bs.length := by
  induction bs with
  | nil => rfl
  | cons b bs ih =>
    have hb := b.toNat_lt
    have hnot : (~~~b).toNat = 255 - b.toNat := UInt8.toNat_not b
    rw [List.map_cons, value, value, hnot, List.length_cons, Nat.pow_succ]
    omega

/-- Add one; the carry out of the last byte is lost. -/
def succ : List UInt8 → List UInt8
  | [] => []
  | b :: bs => if b + 1 ≠ 0 then (b + 1) :: bs else 0 :: succ bs

@[simp] theorem length_succ (bs : List UInt8) : (succ bs).length = bs.length := by
  induction bs with
  | nil => rfl
  | cons b bs ih =>
    rw [succ]
    split
    · rfl
    · rw [List.length_cons, ih, List.length_cons]

theorem value_succ (bs : List UInt8) : value (succ bs) = (value bs + 1) % 256 ^ bs.length := by
  induction bs with
  | nil => simp [succ, value]
  | cons b bs ih =>
    have hb := b.toNat_lt
    have hlt := value_lt bs
    have hone : (b + 1).toNat = (b.toNat + 1) % 256 := UInt8.toNat_add b 1
    rw [succ, value, List.length_cons, Nat.pow_succ]
    split
    next hne =>
      have : (b + 1).toNat ≠ 0 := fun h => hne (UInt8.toNat_inj.mp h)
      rw [value, Nat.mod_eq_of_lt (by omega)]
      omega
    next heq =>
      have : (b + 1).toNat = 0 := by rw [not_not.mp heq]; rfl
      rw [value, ih, Nat.mul_comm _ 256, show b.toNat + 256 * value bs + 1 = 256 * (value bs + 1) by omega,
        Nat.mul_mod_mul_left, UInt8.toNat_zero, Nat.zero_add]

end Endian
