import Mathlib.Algebra.BigOperators.Group.List.Basic
import Mathlib.Algebra.Group.Embedding
import Mathlib.Algebra.GroupWithZero.Nat
import Mathlib.Algebra.Order.Group.Nat
import Mathlib.Data.Finset.Card
import Mathlib.Data.Finset.Union
import Mathlib.Data.List.GetD
import Mathlib.Order.Bounds.Defs
import Mathlib.Order.Lattice.Nat

/-! Finite sets of natural numbers as lists of words. A number stands for a bit of
the word with the index of its quotient by the width. Words of zeros behind the
list change nothing, so lists of different lengths can stand for the same set. The
highest number is found by a search from the last word down, the next number by a
search from a word up, and the number of bits is the sum over the words. -/

namespace WordSet

variable {w : ℕ}

/-- The bit at a position; there are zeros behind the list. -/
def bit (words : List (BitVec w)) (p : ℕ) : Bool := (words.getD (p / w) 0#w).getLsbD (p % w)

theorem div_lt_of_bit {words : List (BitVec w)} {p : ℕ} (h : bit words p = true) :
    p / w < words.length := by
  by_contra hle
  rw [bit, List.getD_eq_default _ _ (Nat.not_lt.mp hle), BitVec.getLsbD_zero] at h
  cases h

@[simp] theorem bit_nil (p : ℕ) : bit ([] : List (BitVec w)) p = false := by
  simp [bit]

/-- Zeros behind the words. -/
theorem getD_append_replicate (words : List (BitVec w)) (n i : ℕ) :
    (words ++ List.replicate n 0#w).getD i 0#w = words.getD i 0#w := by
  simp only [List.getD_eq_getElem?_getD, List.getElem?_append, List.getElem?_replicate]
  split
  · rfl
  next h =>
    rw [List.getElem?_eq_none (Nat.not_lt.mp h)]
    split <;> rfl

theorem bit_append_replicate (words : List (BitVec w)) (n p : ℕ) :
    bit (words ++ List.replicate n 0#w) p = bit words p := by
  rw [bit, bit, getD_append_replicate]

theorem getD_set {words : List (BitVec w)} {i : ℕ} (hi : i < words.length) (word : BitVec w) (j : ℕ) :
    (words.set i word).getD j 0#w = if j = i then word else words.getD j 0#w := by
  simp only [List.getD_eq_getElem?_getD, List.getElem?_set]
  by_cases hij : j = i
  · rw [if_pos hij.symm, if_pos hij, if_pos (hij ▸ hi), Option.getD_some]
  · rw [if_neg (Ne.symm hij), if_neg hij]

/-- Another word in the place of one of the words. -/
theorem bit_set {words : List (BitVec w)} {i : ℕ} (hi : i < words.length) (word : BitVec w) (p : ℕ) :
    bit (words.set i word) p = if p / w = i then word.getLsbD (p % w) else bit words p := by
  rw [bit, getD_set hi]
  split <;> rfl

theorem getD_mapIdx (f : ℕ → BitVec w → BitVec w) (words : List (BitVec w)) {i : ℕ}
    (hi : i < words.length) : (words.mapIdx f).getD i 0#w = f i (words.getD i 0#w) := by
  simp only [List.getD_eq_getElem?_getD, List.getElem?_mapIdx, List.getElem?_eq_getElem hi,
    Option.map_some, Option.getD_some]

/-- Every word changed by a function of its index. -/
theorem bit_mapIdx (f : ℕ → BitVec w → BitVec w) (words : List (BitVec w)) (p : ℕ) :
    bit (words.mapIdx f) p =
      if p / w < words.length then (f (p / w) (words.getD (p / w) 0#w)).getLsbD (p % w) else false := by
  split
  next h => rw [bit, getD_mapIdx f words h]
  next h => rw [bit, List.getD_eq_default _ _ (by simpa using h), BitVec.getLsbD_zero]

/-- An operation on words that is one on bits. -/
theorem bit_mapIdx_of {words words' : List (BitVec w)} {f : ℕ → BitVec w → BitVec w}
    {g : Bool → Bool → Bool} (hw : 0 < w)
    (hin : ∀ i < words.length, ∀ k < w, (f i (words.getD i 0#w)).getLsbD k =
      g ((words.getD i 0#w).getLsbD k) ((words'.getD i 0#w).getLsbD k))
    (hout : ∀ p, words.length ≤ p / w → g false (bit words' p) = false) (p : ℕ) :
    bit (words.mapIdx f) p = g (bit words p) (bit words' p) := by
  rw [bit_mapIdx]
  split
  next h => exact hin _ h _ (Nat.mod_lt p hw)
  next h =>
    have hle := Nat.not_lt.mp h
    have hfalse : bit words p = false := by
      rw [bit, List.getD_eq_default _ _ hle, BitVec.getLsbD_zero]
    rw [hfalse, hout p hle]

theorem bit_take (words : List (BitVec w)) (n p : ℕ) :
    bit (words.take n) p = if p / w < n then bit words p else false := by
  rw [bit, List.getD_eq_getElem?_getD, List.getElem?_take]
  split
  · rw [bit, List.getD_eq_getElem?_getD]
  · rw [Option.getD_none, BitVec.getLsbD_zero]

/-- The word with one bit. -/
theorem getLsbD_one_shiftLeft {k : ℕ} (hk : k < w) (j : ℕ) :
    (1#w <<< k).getLsbD j = decide (j = k) := by
  rw [← BitVec.twoPow_eq, BitVec.getLsbD_twoPow, decide_eq_true hk, Bool.true_and]
  exact decide_eq_decide.mpr eq_comm

/-- The word with all bits below a position. -/
theorem getLsbD_one_shiftLeft_sub_one {k : ℕ} (hk : k < w) (j : ℕ) :
    (1#w <<< k - 1#w).getLsbD j = decide (j < k) := by
  have hpow : 2 ^ k < 2 ^ w := Nat.pow_lt_pow_right (by decide) hk
  have hone : 1 ≤ 2 ^ k := Nat.one_le_two_pow
  have hnat : (1#w <<< k - 1#w).toNat = 2 ^ k - 1 := by
    rw [← BitVec.twoPow_eq, BitVec.toNat_sub_of_le, BitVec.toNat_twoPow, BitVec.toNat_ofNat,
      Nat.mod_eq_of_lt hpow, Nat.mod_eq_of_lt (by omega)]
    rw [BitVec.le_def, BitVec.toNat_twoPow, BitVec.toNat_ofNat, Nat.mod_eq_of_lt hpow,
      Nat.mod_eq_of_lt (by omega)]
    exact hone
  rw [← BitVec.testBit_toNat, hnat, Nat.testBit_two_pow_sub_one]

theorem ne_zero_of_getLsbD {word : BitVec w} {i : ℕ} (h : word.getLsbD i = true) : word ≠ 0#w := by
  rintro rfl
  rw [BitVec.getLsbD_zero] at h
  cases h

theorem mul_add_div (hw : 0 < w) {k : ℕ} (hk : k < w) (i : ℕ) : (i * w + k) / w = i := by
  rw [Nat.add_comm, Nat.add_mul_div_right _ _ hw, Nat.div_eq_of_lt hk, Nat.zero_add]

theorem bit_mul_add (hw : 0 < w) (words : List (BitVec w)) (i : ℕ) {k : ℕ} (hk : k < w) :
    bit words (i * w + k) = (words.getD i 0#w).getLsbD k := by
  rw [bit, mul_add_div hw hk, Nat.mul_add_mod', Nat.mod_eq_of_lt hk]

/-- Lists stand for the same set exactly when their words agree, up to zeros. -/
theorem bit_eq_iff (hw : 0 < w) {words words' : List (BitVec w)} :
    (∀ p, bit words p = bit words' p) ↔ ∀ i, words.getD i 0#w = words'.getD i 0#w := by
  constructor
  · intro h i
    ext k hk
    have hbit := h (i * w + k)
    rwa [bit_mul_add hw words i hk, bit_mul_add hw words' i hk, BitVec.getLsbD_eq_getElem hk,
      BitVec.getLsbD_eq_getElem hk] at hbit
  · intro h p
    rw [bit, bit, h]

/-! ### Search -/

theorem getLsbD_shiftRight_eq (word : BitVec w) (offset k : ℕ) :
    (word >>> offset).getLsbD k = word.getLsbD (offset + k) := BitVec.getLsbD_ushiftRight ..

theorem toNat_clz_lt {word : BitVec w} (h : word ≠ 0#w) : word.clz.toNat < w := by
  have hlt := BitVec.clz_lt_iff_ne_zero.mpr h
  rwa [BitVec.lt_def, BitVec.natCast_eq_ofNat, BitVec.toNat_ofNat, Nat.mod_two_pow_self] at hlt

/-- There is no bit above the leading one. -/
theorem le_of_getLsbD {word : BitVec w} {k : ℕ} (h : word.getLsbD k = true) :
    k ≤ w - 1 - word.clz.toNat := by
  have hlt := toNat_clz_lt (ne_zero_of_getLsbD h)
  by_contra hgt
  have hbound := Nat.pow_le_pow_right (n := 2) (by decide) (show w - word.clz.toNat ≤ k by omega)
  have hfalse := Nat.testBit_lt_two_pow (BitVec.toNat_lt_two_pow_sub_clz.trans_le hbound)
  rw [BitVec.testBit_toNat, h] at hfalse
  cases hfalse

/-- The highest bit of the first `n` words, searched from the last one down. -/
def highest (words : List (BitVec w)) : ℕ → Option ℕ
  | 0 => none
  | i + 1 =>
    let word := words.getD i 0#w
    if word ≠ 0#w then some (i * w + (w - 1 - word.clz.toNat)) else highest words i

theorem highest_eq_none {words : List (BitVec w)} {n : ℕ} (h : highest words n = none) {p : ℕ}
    (hp : p / w < n) : bit words p = false := by
  induction n with
  | zero => exact absurd hp (Nat.not_lt_zero _)
  | succ n ih =>
    rw [highest] at h
    split at h
    · cases h
    next hzero =>
      by_cases hlast : p / w = n
      · rw [bit, hlast, not_not.mp hzero, BitVec.getLsbD_zero]
      · exact ih h (by omega)

/-- The search finds a bit, and there is no higher one in the words searched. -/
theorem highest_eq_some (hw : 0 < w) {words : List (BitVec w)} {n p : ℕ}
    (h : highest words n = some p) :
    bit words p = true ∧ ∀ q, q / w < n → bit words q = true → q ≤ p := by
  induction n with
  | zero => cases h
  | succ n ih =>
    rw [highest] at h
    split at h
    next hword =>
      obtain rfl := Option.some.inj h
      have hclz := toNat_clz_lt hword
      refine ⟨?_, fun q hq hbit => ?_⟩
      · rw [bit_mul_add hw words n (by omega)]
        exact BitVec.getLsbD_true_clz_of_ne_zero hw hword
      · rw [← Nat.div_add_mod' q w]
        rcases Nat.lt_or_eq_of_le (Nat.le_of_lt_succ hq) with hlt | heq
        · have hmul := Nat.mul_le_mul_right w (Nat.succ_le_of_lt hlt)
          have hmod := Nat.mod_lt q hw
          rw [Nat.succ_mul] at hmul
          omega
        · rw [bit, heq] at hbit
          rw [heq]
          exact Nat.add_le_add_left (le_of_getLsbD hbit) _
    next hzero =>
      obtain ⟨hbit, hmax⟩ := ih h
      refine ⟨hbit, fun q hq hq' => ?_⟩
      by_cases hlast : q / w = n
      · rw [bit, hlast, not_not.mp hzero, BitVec.getLsbD_zero] at hq'
        cases hq'
      · exact hmax q (by omega) hq'

/-! ### The set -/

/-- The positions of the bits. -/
def positions (words : List (BitVec w)) : Finset ℕ :=
  (Finset.range (words.length * w)).filter fun p => bit words p = true

theorem lt_mul_of_bit (hw : 0 < w) {words : List (BitVec w)} {p : ℕ} (h : bit words p = true) :
    p < words.length * w := (Nat.div_lt_iff_lt_mul hw).mp (div_lt_of_bit h)

theorem mem_positions (hw : 0 < w) {words : List (BitVec w)} {p : ℕ} :
    p ∈ positions words ↔ bit words p = true := by
  rw [positions, Finset.mem_filter, Finset.mem_range]
  exact and_iff_right_of_imp (lt_mul_of_bit hw)

theorem positions_eq_iff (hw : 0 < w) {words words' : List (BitVec w)} :
    positions words = positions words' ↔ ∀ p, bit words p = bit words' p := by
  constructor
  · intro h p
    rw [Bool.eq_iff_iff, ← mem_positions hw, ← mem_positions hw, h]
  · intro h
    ext p
    rw [mem_positions hw, mem_positions hw, h]

/-- The bits of one word. -/
theorem card_bits (word : BitVec w) :
    ((Finset.range w).filter fun k => word.getLsbD k = true).card = word.cpop.toNat := by
  have hcount : ∀ n, ((Finset.range n).filter fun k => word.getLsbD k = true).card =
      word.cpopNatRec n 0 := by
    intro n
    induction n with
    | zero => rfl
    | succ n ih =>
      rw [Finset.range_add_one, Finset.filter_insert, BitVec.cpopNatRec_succ, BitVec.cpopNatRec_eq,
        ← ih]
      cases h : word.getLsbD n with
      | true =>
        rw [if_pos rfl, Finset.card_insert_of_notMem (by simp)]
        rfl
      | false =>
        rw [if_neg Bool.false_ne_true]
        rfl
  rw [BitVec.toNat_cpop, hcount]

theorem bit_cons (hw : 0 < w) (word : BitVec w) (words : List (BitVec w)) (p : ℕ) :
    bit (word :: words) p = if p < w then word.getLsbD p else bit words (p - w) := by
  split
  next h => rw [bit, Nat.div_eq_of_lt h, Nat.mod_eq_of_lt h, List.getD_cons_zero]
  next h =>
    obtain ⟨q, rfl⟩ := Nat.exists_eq_add_of_le (Nat.not_lt.mp h)
    rw [bit, Nat.add_div_left _ hw, Nat.add_mod_left, List.getD_cons_succ, Nat.add_sub_cancel_left,
      bit]

/-- The bits of the first word and, behind them, those of the other words. -/
theorem positions_cons (hw : 0 < w) (word : BitVec w) (words : List (BitVec w)) :
    positions (word :: words) = ((Finset.range w).filter fun k => word.getLsbD k = true) ∪
      (positions words).map (addRightEmbedding w) := by
  ext p
  simp only [mem_positions hw, bit_cons hw, Finset.mem_union, Finset.mem_filter, Finset.mem_range,
    Finset.mem_map, addRightEmbedding_apply]
  split
  next h =>
    refine ⟨fun hbit => .inl ⟨h, hbit⟩, ?_⟩
    rintro (⟨-, hbit⟩ | ⟨q, -, rfl⟩)
    · exact hbit
    · omega
  next h =>
    refine ⟨fun hbit => .inr ⟨p - w, hbit, by omega⟩, ?_⟩
    rintro (⟨hlt, -⟩ | ⟨q, hq, rfl⟩)
    · omega
    · rwa [Nat.add_sub_cancel]

/-- The number of bits. -/
theorem card_positions (hw : 0 < w) (words : List (BitVec w)) :
    (positions words).card = (words.map fun word => word.cpop.toNat).sum := by
  induction words with
  | nil => simp [positions]
  | cons word words ih =>
    rw [positions_cons hw, Finset.card_union_of_disjoint, Finset.card_map, card_bits, ih,
      List.map_cons, List.sum_cons]
    rw [Finset.disjoint_left]
    intro p hp hq
    rw [Finset.mem_filter, Finset.mem_range] at hp
    rw [Finset.mem_map] at hq
    obtain ⟨q, -, rfl⟩ := hq
    have hlt : q + w < w := hp.1
    omega

end WordSet
