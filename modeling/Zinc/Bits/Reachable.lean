import Zinc.Bits.Refinement

/-! What can be asked of a `BitSet`, and the sets that it can come to stand for: it is
empty at first or has the bits of an array, and every mutator does to it what the
operation on sets does. -/

namespace Zinc.Bits

open WordSet

variable {s t : Finset ℕ} {pos p fromIndex : ℕ}

theorem next_eq (hp : p ∈ s) (hle : fromIndex ≤ p) (hmin : ∀ q ∈ s, fromIndex ≤ q → p ≤ q) :
    next s fromIndex = p := by
  have hmem : p ∈ s.filter fun q => fromIndex ≤ q := Finset.mem_filter.mpr ⟨hp, hle⟩
  rw [next, dif_pos ⟨p, hmem⟩]
  apply le_antisymm (Finset.min'_le _ _ hmem)
  apply Finset.le_min'
  intro q hq
  obtain ⟨hq, hle⟩ := Finset.mem_filter.mp hq
  exact hmin q hq hle

theorem next_eq_npos (h : ∀ q ∈ s, q < fromIndex) : next s fromIndex = npos := by
  rw [next, dif_neg]
  rintro ⟨q, hq⟩
  obtain ⟨hq, hle⟩ := Finset.mem_filter.mp hq
  exact Nat.not_lt.mpr hle (h q hq)

theorem next_congr {fromIndex' : ℕ} (h : ∀ q ∈ s, fromIndex ≤ q ↔ fromIndex' ≤ q) :
    next s fromIndex = next s fromIndex' := by
  rw [next, next]
  simp only [Finset.filter_congr h]

namespace BitSet

variable {b other : BitSet}

/-! ### Arrays -/

theorem holds_fromLongArray {longs : List (BitVec 64)} (h : Low (positions longs)) :
    Holds (fromLongArray longs) (positions longs) := Holds.refresh h rfl

/-- The bytes read so far are the low bits of the block. -/
theorem getLsbD_block_of_le (bytes : List UInt8) (i : ℕ) {n : ℕ} (hn : n ≤ 8) {k : ℕ} (hk : k < 64) :
    ((List.range n).foldl (fun block j =>
      if bytes.length ≤ i * 8 + j then block
      else block ||| (BitVec.ofNat 64 (bytes.getD (i * 8 + j) 0).toNat <<< (j * 8))) 0#64).getLsbD k =
      (decide (k < n * 8) && (bytes.getD (i * 8 + k / 8) 0).toNat.testBit (k % 8)) := by
  induction n with
  | zero => simp
  | succ n ih =>
    have ih := ih (by omega)
    rw [List.range_succ, List.foldl_append, List.foldl_cons, List.foldl_nil]
    by_cases hlast : k / 8 = n
    · have hlt : ¬ k < n * 8 := by omega
      have hlt' : k < (n + 1) * 8 := by omega
      have hsub : k - n * 8 = k % 8 := by omega
      rw [decide_eq_false hlt, Bool.false_and] at ih
      rw [decide_eq_true hlt', Bool.true_and, hlast]
      split
      next hle =>
        rw [ih, List.getD_eq_default _ _ hle]
        simp
      next =>
        rw [BitVec.getLsbD_or, ih, BitVec.getLsbD_shiftLeft, BitVec.getLsbD_ofNat, hsub]
        simp [hk, hlt]
        omega
    · have hlt : k < (n + 1) * 8 ↔ k < n * 8 := by omega
      have hrest : (BitVec.ofNat 64 (bytes.getD (i * 8 + n) 0).toNat <<< (n * 8)).getLsbD k = false := by
        rw [BitVec.getLsbD_shiftLeft, BitVec.getLsbD_ofNat]
        by_cases h : k < n * 8
        · simp [h]
        · have hbyte : (bytes.getD (i * 8 + n) 0).toNat < 2 ^ (k - n * 8) :=
            (UInt8.toNat_lt _).trans_le (Nat.pow_le_pow_right (by decide) (by omega))
          rw [Nat.testBit_lt_two_pow hbyte, Bool.and_false, Bool.and_false]
      rw [decide_eq_decide.mpr hlt, ← ih]
      split
      · rfl
      · rw [BitVec.getLsbD_or, hrest, Bool.or_false]

theorem bit_bytes (bytes : List UInt8) (p : ℕ) :
    bit (bytes.map UInt8.toBitVec) p = (bytes.getD (p / 8) 0).toNat.testBit (p % 8) := by
  rw [bit, show (0#8 : BitVec 8) = UInt8.toBitVec 0 from rfl, List.getD_map]
  rfl

theorem bit_blocks (bytes : List UInt8) (p : ℕ) :
    bit ((List.range ((bytes.length + 7) / 8)).map (block bytes)) p =
      bit (bytes.map UInt8.toBitVec) p := by
  have hdiv : p / 64 * 8 + p % 64 / 8 = p / 8 := by omega
  have hmod : p % 64 % 8 = p % 8 := by omega
  rw [bit_bytes, bit, List.getD_eq_getElem?_getD, List.getElem?_map]
  by_cases h : p / 64 < (bytes.length + 7) / 8
  · rw [List.getElem?_range h, Option.map_some, Option.getD_some, block,
      getLsbD_block_of_le bytes (p / 64) le_rfl (Nat.mod_lt p (by decide)), hdiv, hmod,
      decide_eq_true (Nat.mod_lt p (by decide)), Bool.true_and]
  · rw [List.getElem?_eq_none (by simpa using h), List.getD_eq_default _ _ (by omega)]
    simp

theorem holds_fromByteArray {bytes : List UInt8} (h : Low (positions (bytes.map UInt8.toBitVec))) :
    Holds (fromByteArray bytes) (positions (bytes.map UInt8.toBitVec)) := by
  apply Holds.refresh h
  ext p
  rw [mem_positions (by decide), mem_positions (by decide), bit_blocks]

/-! ### Questions -/

theorem Holds.get_eq (h : Holds b s) (p : ℕ) : b.get p = decide (p ∈ s) := by
  rw [BitSet.get_eq, Bool.eq_iff_iff, decide_eq_true_iff, h.mem]

theorem Holds.findHighestSet_eq (h : Holds b s) : b.highestSet = b.findHighestSet := by
  rw [BitSet.findHighestSet_eq, h.positions_eq, h.highestSet_eq]

theorem Holds.highestSet_eq_npos (h : Holds b s) : b.highestSet = npos ↔ s = ∅ := by
  rw [h.highestSet_eq, h.low.top_eq_npos]

theorem Holds.size_eq (h : Holds b s) : b.size = s.sup (· + 1) := by
  unfold size
  split
  next hnpos =>
    rw [h.highestSet_eq_npos.mp hnpos]
    rfl
  next hnpos =>
    have hne := Finset.nonempty_iff_ne_empty.mpr (h.highestSet_eq_npos.not.mp hnpos)
    rw [h.highestSet_eq]
    apply le_antisymm (Finset.le_sup (f := (· + 1)) (top_mem hne))
    apply Finset.sup_le
    intro p hp
    exact Nat.succ_le_succ (le_top hp)

theorem Holds.count_eq (h : Holds b s) : b.count = s.card := by
  rw [← h.positions_eq, card_positions (by decide), count]

theorem Holds.any_eq (h : Holds b s) : b.any = decide (s ≠ ∅) := by
  rw [any, decide_eq_decide, ne_eq, ne_eq, h.highestSet_eq_npos]

theorem Holds.none_eq (h : Holds b s) : b.none = decide (s = ∅) := by
  rw [none, decide_eq_decide, h.highestSet_eq_npos]

/-- The loop finds the next bit behind the words that it does not look at. -/
theorem nextSetLoop_eq {data words : List (BitVec 64)} {i k : ℕ} (hk : k < 64)
    (hwords : data.drop i = words) :
    nextSetLoop words i k = next (positions data) (i * 64 + k) := by
  have hbit : ∀ {p}, p ∈ positions data ↔ bit data p = true := mem_positions (by decide)
  induction words generalizing i k with
  | nil =>
    have hlength := List.drop_eq_nil_iff.mp hwords
    rw [nextSetLoop, next_eq_npos]
    intro q hq
    have hlt := lt_mul_of_bit (by decide) (hbit.mp hq)
    omega
  | cons word words ih =>
    have hword : data.getD i 0#64 = word := by
      rw [List.getD_eq_getElem?_getD, ← List.head?_drop, hwords]
      rfl
    have hrest : data.drop (i + 1) = words := by
      rw [← List.drop_drop, hwords]
      rfl
    rw [nextSetLoop]
    split
    next hne =>
      have hfound := BitVec.getLsbD_true_ctz_of_ne_zero hne.2
      rw [getLsbD_shiftRight_eq] at hfound
      have hlt := BitVec.lt_of_getLsbD hfound
      refine (next_eq (hbit.mpr ?_) (by omega) fun q hq hle => ?_).symm
      · rw [Nat.add_assoc, bit_mul_add (by decide) _ _ hlt, hword, hfound]
      · by_contra hgt
        have hq := hbit.mp hq
        have hdiv : q / 64 = i := by omega
        have hearlier := BitVec.getLsbD_false_of_lt_ctz (x := word >>> k) (i := q % 64 - k) (by omega)
        rw [getLsbD_shiftRight_eq, show k + (q % 64 - k) = q % 64 by omega] at hearlier
        rw [bit, hdiv, hword, hearlier] at hq
        cases hq
    next hzero =>
      have hshift : word >>> k = 0#64 := by
        by_contra hne
        refine hzero ⟨?_, hne⟩
        rintro rfl
        exact hne (BitVec.zero_ushiftRight ..)
      rw [ih (by decide) hrest]
      apply next_congr
      intro q hq
      have hq := hbit.mp hq
      by_contra hiff
      have hdiv : q / 64 = i := by omega
      have hnone := congrArg (fun x => BitVec.getLsbD x (q % 64 - k)) hshift
      rw [getLsbD_shiftRight_eq, show k + (q % 64 - k) = q % 64 by omega, BitVec.getLsbD_zero]
        at hnone
      rw [bit, hdiv, hword, hnone] at hq
      cases hq

theorem Holds.nextSetBit_eq (h : Holds b s) (fromIndex : ℕ) : b.nextSetBit fromIndex = next s fromIndex := by
  unfold nextSetBit
  split
  next hlt =>
    rw [next_eq_npos]
    intro q hq
    rw [h.highestSet_eq] at hlt
    exact (le_top hq).trans_lt hlt
  next => rw [nextSetLoop_eq (Nat.mod_lt _ (by decide)) rfl, Nat.div_add_mod', h.positions_eq]

theorem Holds.eq_iff (h : Holds b s) (hother : Holds other t) : b.eq other = true ↔ s = t := by
  rw [← h.positions_eq, ← hother.positions_eq, positions_eq_iff (by decide),
    bit_eq_iff (by decide), BitSet.eq, List.all_eq_true]
  have hpad : ∀ (words : List (BitVec 64)) (i : ℕ),
      (if i < words.length then words.getD i 0#64 else 0#64) = words.getD i 0#64 := by
    intro words i
    split
    · rfl
    next hle => exact (List.getD_eq_default _ _ (Nat.not_lt.mp hle)).symm
  simp only [hpad, List.mem_range, decide_eq_true_iff]
  constructor
  · intro hall i
    by_cases hi : i < max b.data.length other.data.length
    · exact hall i hi
    · rw [List.getD_eq_default _ _ (by omega), List.getD_eq_default _ _ (by omega)]
  · exact fun hall i _ => hall i

/-- The array has the words up to the highest bit. -/
theorem Holds.toLongArray (h : Holds b s) : positions b.toLongArray = s := by
  unfold BitSet.toLongArray
  split
  next hnpos =>
    rw [h.highestSet_eq_npos.mp hnpos]
    rfl
  next =>
    ext p
    rw [mem_positions (by decide), bit_take]
    split
    next => exact h.mem.symm
    next hle =>
      refine iff_of_false Bool.false_ne_true fun hp => ?_
      have htop := le_top hp
      rw [← h.highestSet_eq] at htop
      omega

/-! ### Runs -/

/-- A `BitSet` that constructors and mutators make, and the set that the operations on
sets make in its place. -/
inductive Reachable : BitSet → Finset ℕ → Prop
  | new : Reachable BitSet.new ∅
  | ofSize (n : ℕ) : Reachable (BitSet.ofSize n) ∅
  | fromLongArray {longs : List (BitVec 64)} (h : Low (positions longs)) :
    Reachable (BitSet.fromLongArray longs) (positions longs)
  | fromByteArray {bytes : List UInt8} (h : Low (positions (bytes.map UInt8.toBitVec))) :
    Reachable (BitSet.fromByteArray bytes) (positions (bytes.map UInt8.toBitVec))
  | set {b : BitSet} {s : Finset ℕ} {pos : ℕ} (h : Reachable b s) (hpos : pos < 2 ^ 64 - 64) :
    Reachable (b.set pos) (insert pos s)
  | clear {b : BitSet} {s : Finset ℕ} (pos : ℕ) (h : Reachable b s) :
    Reachable (b.clear pos) (s.erase pos)
  | flip {b : BitSet} {s : Finset ℕ} {pos : ℕ} (h : Reachable b s) (hpos : pos < 2 ^ 64 - 64) :
    Reachable (b.flip pos) (symmDiff s {pos})
  | andNot {b other : BitSet} {s t : Finset ℕ} (h : Reachable b s) (hother : Reachable other t) :
    Reachable (BitSet.andNot other b) (s \ t)
  | and {b other : BitSet} {s t : Finset ℕ} (h : Reachable b s) (hother : Reachable other t) :
    Reachable (BitSet.and other b) (s ∩ t)
  | or {b other : BitSet} {s t : Finset ℕ} (h : Reachable b s) (hother : Reachable other t) :
    Reachable (BitSet.or other b) (s ∪ t)
  | xor {b other : BitSet} {s t : Finset ℕ} (h : Reachable b s) (hother : Reachable other t) :
    Reachable (BitSet.xor other b) (symmDiff s t)

theorem Reachable.holds (h : Reachable b s) : Holds b s := by
  induction h with
  | new => exact holds_new
  | ofSize n => exact holds_ofSize n
  | fromLongArray h => exact holds_fromLongArray h
  | fromByteArray h => exact holds_fromByteArray h
  | set _ hpos ih => exact ih.set hpos
  | clear pos _ ih => exact ih.clear pos
  | flip _ hpos ih => exact ih.flip hpos
  | andNot _ _ ih ih' => exact ih.andNot ih'
  | and _ _ ih ih' => exact ih.and ih'
  | or _ _ ih ih' => exact ih.or ih'
  | xor _ _ ih ih' => exact ih.xor ih'

/-- The cache and every answer are those of the set. -/
theorem answers_eq (h : Reachable b s) (hother : Reachable other t) :
    b.highestSet = b.findHighestSet ∧ (∀ p, b.get p = decide (p ∈ s)) ∧
    b.size = s.sup (· + 1) ∧ b.count = s.card ∧
    b.any = decide (s ≠ ∅) ∧ b.none = decide (s = ∅) ∧
    (∀ fromIndex, b.nextSetBit fromIndex = next s fromIndex) ∧
    (b.eq other = true ↔ s = t) ∧ (fromLongArray b.toLongArray).eq b = true := by
  have hb := h.holds
  have hlong : Holds (fromLongArray b.toLongArray) s := Holds.refresh hb.low hb.toLongArray
  exact ⟨hb.findHighestSet_eq, hb.get_eq, hb.size_eq, hb.count_eq, hb.any_eq, hb.none_eq,
    hb.nextSetBit_eq, hb.eq_iff hother.holds, (hlong.eq_iff hb).mpr rfl⟩

/-- The words that were allocated do not tell sets apart. -/
theorem answers_eq_flip : (new.set 70).nextSetBit 7 = 70 ∧
    (new.set 70).eq ((ofSize 300).flip 70) = true := by
  have hset : Reachable (new.set 70) {70} := Reachable.new.set (by decide)
  have hflip : Reachable ((ofSize 300).flip 70) (symmDiff ∅ {70}) :=
    (Reachable.ofSize 300).flip (by decide)
  obtain ⟨-, -, -, -, -, -, hnext, heq, -⟩ := answers_eq hset hflip
  exact ⟨(hnext 7).trans (by decide), heq.mpr (by decide)⟩

end BitSet

end Zinc.Bits
