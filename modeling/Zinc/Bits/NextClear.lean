import Zinc.Bits.Reachable

/-! `nextClearBit`. The search stays within the words and gives the first position
behind them when it finds no clear bit, also when it starts further behind. So the
answer is the next clear position exactly when the search does not start there. -/

namespace Zinc.Bits.BitSet

open WordSet

variable {b : BitSet}

/-- The positions of a word that the search may find from an offset on. -/
theorem getLsbD_clear (word : BitVec 64) {offset k : ℕ} (hoffset : offset < 64) (hk : k < 64) :
    (~~~word &&& ~~~(1#64 <<< offset - 1#64)).getLsbD k = true ↔
      word.getLsbD k = false ∧ offset ≤ k := by
  rw [BitVec.getLsbD_and, BitVec.getLsbD_not, BitVec.getLsbD_not,
    getLsbD_one_shiftLeft_sub_one hoffset]
  simp [hk]

/-- What the search answers from a position on: it gives a clear position with none in
front of it, or the end of the words. -/
structure Clear (data : List (BitVec 64)) (fromIndex r : ℕ) : Prop where
  le : fromIndex ≤ r
  clear : bit data r = false
  between : ∀ j, fromIndex ≤ j → j < r → bit data j = true

/-- A start that skips nothing but set positions. -/
theorem Clear.of_le {data : List (BitVec 64)} {fromIndex fromIndex' r : ℕ}
    (h : Clear data fromIndex' r) (hle : fromIndex ≤ fromIndex')
    (hset : ∀ j, fromIndex ≤ j → j < fromIndex' → bit data j = true) : Clear data fromIndex r where
  le := hle.trans h.le
  clear := h.clear
  between j hj hlt := by
    by_cases hfront : j < fromIndex'
    · exact hset j hj hfront
    · exact h.between j (Nat.not_lt.mp hfront) hlt

/-- The loop looks at one word after the other. -/
theorem nextClearLoop_eq {data words : List (BitVec 64)} {i k : ℕ} (hk : k < 64)
    (hwords : data.drop i = words) (hstart : i * 64 + k ≤ data.length * 64) :
    Clear data (i * 64 + k) (nextClearLoop data.length words i k) := by
  induction words generalizing i k with
  | nil =>
    have hlength := List.drop_eq_nil_iff.mp hwords
    have hend : i * 64 + k = data.length * 64 := by omega
    rw [nextClearLoop, hend]
    refine ⟨le_rfl, ?_, fun j hj hlt => absurd hlt (Nat.not_lt.mpr hj)⟩
    rw [Bool.eq_false_iff]
    intro hbit
    exact absurd (lt_mul_of_bit (by decide) hbit) (lt_irrefl _)
  | cons word words ih =>
    have hword : data.getD i 0#64 = word := by
      rw [List.getD_eq_getElem?_getD, ← List.head?_drop, hwords]
      rfl
    have hrest : data.drop (i + 1) = words := by
      rw [← List.drop_drop, hwords]
      rfl
    have hlt : i < data.length := by
      by_contra hle
      rw [List.drop_eq_nil_of_le (Nat.not_lt.mp hle)] at hwords
      cases hwords
    have hbit : ∀ j, i * 64 ≤ j → j < (i + 1) * 64 → bit data j = word.getLsbD (j % 64) := by
      intro j hj hlast
      rw [bit, show j / 64 = i by omega, hword]
    rw [nextClearLoop]
    split
    next hne =>
      have hfound := BitVec.getLsbD_true_ctz_of_ne_zero hne
      have hctz := BitVec.lt_of_getLsbD hfound
      obtain ⟨hclear, hoffset⟩ := (getLsbD_clear word hk hctz).mp hfound
      refine ⟨by omega, ?_, fun j hj hlast => ?_⟩
      · rw [bit_mul_add (by decide) _ _ hctz, hword, hclear]
      · have hearlier := BitVec.getLsbD_false_of_lt_ctz
          (x := ~~~word &&& ~~~(1#64 <<< k - 1#64)) (i := j % 64) (by omega)
        rw [← Bool.not_eq_true, getLsbD_clear word hk (Nat.mod_lt _ (by decide))] at hearlier
        rw [hbit j (by omega) (by omega), ← Bool.not_eq_false]
        exact fun hzero => hearlier ⟨hzero, by omega⟩
    next hzero =>
      refine (ih (k := 0) (by decide) hrest (by omega)).of_le (by omega) fun j hj hlast => ?_
      have hnone := congrArg (fun x => BitVec.getLsbD x (j % 64)) (not_not.mp hzero)
      simp only [BitVec.getLsbD_zero] at hnone
      rw [← Bool.not_eq_true, getLsbD_clear word hk (Nat.mod_lt _ (by decide))] at hnone
      rw [hbit j (by omega) (by omega), ← Bool.not_eq_false]
      exact fun hclear => hnone ⟨hclear, by omega⟩

/-- Beyond the words the answer is the end of them. -/
theorem nextClearBit_of_length_lt {fromIndex : ℕ} (h : b.data.length * 64 < fromIndex) :
    b.nextClearBit fromIndex = b.data.length * 64 := by
  rw [nextClearBit, List.drop_eq_nil_of_le (by omega)]
  rfl

/-- The answer is the next clear position if and only if the search starts no further
than right behind the words. -/
theorem nextClearBit_correct_iff (b : BitSet) (i : ℕ) :
    (i ≤ b.nextClearBit i ∧ b.get (b.nextClearBit i) = false ∧
      ∀ j, i ≤ j → j < b.nextClearBit i → b.get j = true) ↔ i ≤ b.data.length * 64 := by
  constructor
  · rintro ⟨hle, -, -⟩
    by_contra hlt
    rw [nextClearBit_of_length_lt (Nat.not_le.mp hlt)] at hle
    exact hlt hle
  · intro hle
    have hclear : Clear b.data (i / 64 * 64 + i % 64) (b.nextClearBit i) :=
      nextClearLoop_eq (Nat.mod_lt i (by decide)) rfl (by rwa [Nat.div_add_mod'])
    rw [Nat.div_add_mod'] at hclear
    simp only [get_eq]
    exact ⟨hclear.le, hclear.clear, hclear.between⟩

/-- In a set without words the search from position 1 answers 0. -/
theorem not_nextClearBit_correct : ¬ ∀ b s, Reachable b s → ∀ i < 2 ^ 64 - 64,
    i ≤ b.nextClearBit i ∧ b.get (b.nextClearBit i) = false ∧
      ∀ j, i ≤ j → j < b.nextClearBit i → b.get j = true := by
  intro h
  exact absurd (h new ∅ .new 1 (by decide)).1 (by decide)

end Zinc.Bits.BitSet
