import Mathlib.Data.BitVec
import Mathlib.Logic.Function.Iterate

/-! Feedback shift registers that run to the right. A clock pulse shifts the register by one
place and adds the polynomial when the bit that leaves it differs from the bit that comes in.
The register is linear, so the bits of a symbol can be added first and shifted out afterwards,
and what is added above the symbol is only moved. -/

namespace Zinc.ShiftRegister

variable {w : ℕ} (polynomial : BitVec w)

/-- One place to the right, without input. -/
def shift (c : BitVec w) : BitVec w :=
  if c.getLsbD 0 then (c >>> 1) ^^^ polynomial else c >>> 1

/-- One clock pulse with an input bit. -/
def clock (c : BitVec w) (bit : Bool) : BitVec w :=
  if c.getLsbD 0 ^^ bit then (c >>> 1) ^^^ polynomial else c >>> 1

/-- The register after a sequence of bits. -/
def feed (c : BitVec w) (bits : List Bool) : BitVec w := bits.foldl (clock polynomial) c

/-- The lowest `k` bits of a symbol, the least one first. -/
def bits (k : ℕ) (symbol : BitVec w) : List Bool := (List.range k).map symbol.getLsbD

@[simp] theorem feed_nil (c : BitVec w) : feed polynomial c [] = c := rfl

@[simp] theorem feed_cons (c : BitVec w) (bit : Bool) (bs : List Bool) :
    feed polynomial c (bit :: bs) = feed polynomial (clock polynomial c bit) bs := rfl

theorem feed_append (c : BitVec w) (as bs : List Bool) :
    feed polynomial c (as ++ bs) = feed polynomial (feed polynomial c as) bs := List.foldl_append

theorem bits_succ (k : ℕ) (symbol : BitVec w) :
    bits (k + 1) symbol = symbol.getLsbD 0 :: bits k (symbol >>> 1) := by
  rw [bits, List.range_succ_eq_map, List.map_cons, List.map_map, bits]
  congr 2
  funext i
  simp [Nat.add_comm]

/-! ### Linearity -/

theorem shift_xor (a b : BitVec w) :
    shift polynomial (a ^^^ b) = shift polynomial a ^^^ shift polynomial b := by
  have hcancel : a >>> 1 ^^^ polynomial ^^^ (b >>> 1 ^^^ polynomial) = a >>> 1 ^^^ b >>> 1 := by
    rw [BitVec.xor_assoc, BitVec.xor_comm (b >>> 1), ← BitVec.xor_assoc polynomial,
      BitVec.xor_self, BitVec.zero_xor]
  simp only [shift, BitVec.getLsbD_xor, BitVec.ushiftRight_xor_distrib]
  cases a.getLsbD 0 <;> cases b.getLsbD 0
  · rfl
  · exact BitVec.xor_assoc _ _ _
  · change a >>> 1 ^^^ b >>> 1 ^^^ polynomial = a >>> 1 ^^^ polynomial ^^^ b >>> 1
    rw [BitVec.xor_assoc, BitVec.xor_comm (b >>> 1), ← BitVec.xor_assoc]
  · exact hcancel.symm

theorem iterate_shift_xor (k : ℕ) (a b : BitVec w) :
    (shift polynomial)^[k] (a ^^^ b) = (shift polynomial)^[k] a ^^^ (shift polynomial)^[k] b := by
  induction k generalizing a b with
  | zero => rfl
  | succ k ih => rw [Function.iterate_succ_apply, shift_xor, ih]; rfl

/-- What stands above the bits that are shifted out is only moved. -/
theorem iterate_shift_of_low (k : ℕ) (c : BitVec w) (h : ∀ i < k, c.getLsbD i = false) :
    (shift polynomial)^[k] c = c >>> k := by
  induction k generalizing c with
  | zero => exact (BitVec.ushiftRight_zero c).symm
  | succ k ih =>
    have hlow : c.getLsbD 0 = false := h 0 (Nat.succ_pos k)
    have hshift : shift polynomial c = c >>> 1 := by simp [shift, hlow]
    have hrest : ∀ i < k, (c >>> 1).getLsbD i = false := by
      intro i hi
      rw [BitVec.getLsbD_ushiftRight]
      exact h (1 + i) (by omega)
    rw [Function.iterate_succ_apply, hshift, ih _ hrest, ← BitVec.shiftRight_add, Nat.add_comm]

/-! ### Symbols -/

/-- The lowest bit of a symbol, and the rest of it. -/
theorem xor_split (symbol : BitVec w) :
    symbol = (if symbol.getLsbD 0 then 1#w else 0#w) ^^^ (symbol >>> 1) <<< 1 := by
  apply BitVec.eq_of_getLsbD_eq
  intro i hi
  rw [BitVec.getLsbD_xor, BitVec.getLsbD_shiftLeft, BitVec.getLsbD_ushiftRight]
  cases i with
  | zero => cases symbol.getLsbD 0 <;> simp [hi]
  | succ i =>
    cases symbol.getLsbD 0 <;> simp [hi, Nat.add_comm]

/-- An input bit is added to the lowest bit of the register before the shift. -/
theorem clock_eq (c : BitVec w) (bit : Bool) (hw : 0 < w) :
    clock polynomial c bit = shift polynomial (c ^^^ if bit then 1#w else 0#w) := by
  have hone : (1#w) >>> 1 = 0#w := by
    apply BitVec.eq_of_getLsbD_eq
    intro i hi
    simp
  cases bit with
  | false => simp [clock, shift]
  | true => simp [clock, shift, BitVec.ushiftRight_xor_distrib, hone, hw]

/-- Clocking in a symbol of `k` bits is adding it and shifting `k` times. -/
theorem feed_bits (hw : 0 < w) (k : ℕ) (c symbol : BitVec w) (h : symbol >>> k = 0#w) :
    feed polynomial c (bits k symbol) = (shift polynomial)^[k] (c ^^^ symbol) := by
  induction k generalizing c symbol with
  | zero =>
    rw [BitVec.ushiftRight_zero] at h
    rw [h, BitVec.xor_zero]
    rfl
  | succ k ih =>
    have hrest : symbol >>> 1 >>> k = 0#w := by
      rw [← BitVec.shiftRight_add, Nat.add_comm]
      exact h
    have hhigh : shift polynomial ((symbol >>> 1) <<< 1) = symbol >>> 1 := by
      have hlow : ((symbol >>> 1) <<< 1).getLsbD 0 = false := by simp
      rw [shift, hlow]
      apply BitVec.eq_of_getLsbD_eq
      intro i hi
      have hlast : symbol.getLsbD (i + 1) = true → i + 1 < w := BitVec.lt_of_getLsbD
      simpa [Nat.add_comm 1 i] using hlast
    rw [bits_succ, feed_cons, ih _ _ hrest, clock_eq polynomial c _ hw, Function.iterate_succ_apply]
    conv_rhs => rw [xor_split symbol, ← BitVec.xor_assoc, shift_xor, hhigh]

/-- A symbol at a time: the table holds what the lowest `k` bits of the register with the
symbol become, and the rest of the register is moved. -/
theorem iterate_shift_eq (k : ℕ) (c low : BitVec w) (h : ∀ i < k, low.getLsbD i = c.getLsbD i)
    (hlow : low >>> k = 0#w) :
    (shift polynomial)^[k] c = (c >>> k) ^^^ (shift polynomial)^[k] low := by
  have hhigh : ∀ i < k, (c ^^^ low).getLsbD i = false := by
    intro i hi
    rw [BitVec.getLsbD_xor, h i hi, Bool.xor_self]
  calc (shift polynomial)^[k] c
      = (shift polynomial)^[k] (c ^^^ low ^^^ low) := by
        rw [BitVec.xor_assoc, BitVec.xor_self, BitVec.xor_zero]
    _ = (c ^^^ low) >>> k ^^^ (shift polynomial)^[k] low := by
        rw [iterate_shift_xor, iterate_shift_of_low polynomial k _ hhigh]
    _ = (c >>> k) ^^^ (shift polynomial)^[k] low := by
        rw [BitVec.ushiftRight_xor_distrib, hlow, BitVec.xor_zero]

end Zinc.ShiftRegister
