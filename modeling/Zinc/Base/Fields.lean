import Mathlib.Algebra.Ring.Int.Defs
import Mathlib.Algebra.Ring.Nat

/-! Fields of a machine word. A mask keeps the lowest bits of a word, a shift to the right
brings a field down to them, and a shift to the top and back gives them their sign. -/

namespace Fields

variable {w n s : ℕ}

theorem getLsbD_mask (w n i : ℕ) :
    (BitVec.ofNat w (2 ^ n - 1)).getLsbD i = (decide (i < w) && decide (i < n)) := by
  rw [BitVec.getLsbD_ofNat, Nat.testBit_two_pow_sub_one]

/-- A mask keeps the lowest bits. -/
theorem and_mask (word : BitVec w) :
    word &&& BitVec.ofNat w (2 ^ n - 1) = (word.setWidth n).setWidth w := by
  apply BitVec.eq_of_getLsbD_eq
  intro i hi
  rw [BitVec.getLsbD_and, getLsbD_mask, BitVec.getLsbD_setWidth, BitVec.getLsbD_setWidth]
  simp [hi, Bool.and_comm]

/-- A field that is shifted down. -/
theorem setWidth_sshiftRight (h : s + n ≤ w) (word : BitVec w) :
    (word.sshiftRight s).setWidth n = word.extractLsb' s n := by
  apply BitVec.eq_of_getLsbD_eq
  intro i hi
  rw [BitVec.getLsbD_setWidth, BitVec.getLsbD_sshiftRight, BitVec.getLsbD_extractLsb']
  simp [hi, show s + i < w by omega, show ¬ w ≤ i by omega]

/-- The lowest bits, shifted to the top and back, are a signed number. -/
theorem sshiftRight_shiftLeft (hn : 0 < n) (hw : n ≤ w) (word : BitVec w) :
    (word <<< (w - n)).sshiftRight (w - n) = (word.setWidth n).signExtend w := by
  apply BitVec.eq_of_getLsbD_eq
  intro i hi
  rw [BitVec.getLsbD_signExtend, BitVec.getLsbD_sshiftRight, BitVec.msb_setWidth,
    BitVec.msb_eq_getLsbD_last, BitVec.getLsbD_shiftLeft, BitVec.getLsbD_shiftLeft,
    BitVec.getLsbD_setWidth]
  by_cases hin : i < n
  · simp [hin, hi, show ¬ w ≤ i by omega, show w - n + i < w by omega,
      show ¬ w - n + i < w - n by omega]
  · simp [hin, hi, show ¬ w - n + i < w by omega, show w - 1 < w by omega,
      show ¬ w - 1 < w - n by omega, show w - 1 - (w - n) = n - 1 by omega, hn]

/-- A field is kept in a longer word. -/
theorem setWidth_signExtend (h : n ≤ w) (field : BitVec n) :
    (field.signExtend w).setWidth n = field := by
  apply BitVec.eq_of_getLsbD_eq
  intro i hi
  rw [BitVec.getLsbD_setWidth, BitVec.getLsbD_signExtend]
  simp [hi, show i < w by omega]

/-- The value of the lowest bits as a signed number. -/
theorem toInt_signExtend_setWidth (h : n ≤ w) (word : BitVec w) :
    ((word.setWidth n).signExtend w).toInt = word.toInt.bmod (2 ^ n) := by
  rw [BitVec.toInt_signExtend_of_le h, ← BitVec.signExtend_eq_setWidth_of_le word h,
    BitVec.toInt_signExtend_eq_toInt_bmod_of_le word h]

/-- A signed number that fits the field is kept. -/
theorem signExtend_setWidth_of_fits (hn : 0 < n) (h : n ≤ w) {word : BitVec w}
    (hlow : -2 ^ (n - 1) ≤ word.toInt) (hhigh : word.toInt < 2 ^ (n - 1)) :
    (word.setWidth n).signExtend w = word := by
  apply BitVec.eq_of_toInt_eq
  rw [toInt_signExtend_setWidth h]
  have hpow : ((2 ^ n : ℕ) : ℤ) = 2 * 2 ^ (n - 1) := by
    rw [show n = n - 1 + 1 by omega, Nat.pow_succ]
    push_cast
    omega
  apply Int.bmod_eq_of_le <;> rw [hpow] <;> omega

end Fields
