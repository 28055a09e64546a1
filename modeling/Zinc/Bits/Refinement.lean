import Zinc.Bits.BitSet
import Mathlib.Data.Finset.Max
import Mathlib.Data.Finset.SymmDiff

/-! A `BitSet` is a finite set of positions. Each mutator does to the bits what the
operation on sets does, and leaves the greatest position in the cache; so everything
that can be asked of a `BitSet` is determined by the set. Positions stay below
2^64 - 64, where no rounding up wraps and `NPOS` names no position. -/

namespace Zinc.Bits

open WordSet

/-! ### Sets of positions -/

/-- The greatest element; `NPOS` if there is none. -/
def top (s : Finset ℕ) : ℕ := if h : s.Nonempty then s.max' h else npos

/-- The least element that is not below a position; `NPOS` if there is none. -/
def next (s : Finset ℕ) (fromIndex : ℕ) : ℕ :=
  if h : (s.filter fun p => fromIndex ≤ p).Nonempty then (s.filter fun p => fromIndex ≤ p).min' h
  else npos

variable {s t : Finset ℕ} {pos p : ℕ}

theorem top_empty : top ∅ = npos := rfl

theorem top_eq (hp : p ∈ s) (h : ∀ q ∈ s, q ≤ p) : top s = p := by
  rw [top, dif_pos ⟨p, hp⟩]
  exact le_antisymm (Finset.max'_le _ _ _ h) (Finset.le_max' _ _ hp)

theorem top_mem (h : s.Nonempty) : top s ∈ s := by
  rw [top, dif_pos h]
  exact Finset.max'_mem s h

theorem le_top (hp : p ∈ s) : p ≤ top s := by
  rw [top, dif_pos ⟨p, hp⟩]
  exact Finset.le_max' s p hp

/-- The positions that a word index can reach. -/
def Low (s : Finset ℕ) : Prop := ∀ p ∈ s, p < 2 ^ 64 - 64

theorem low_empty : Low ∅ := by
  intro p hp
  cases hp

theorem Low.insert (hs : Low s) (hpos : pos < 2 ^ 64 - 64) : Low (insert pos s) :=
  Finset.forall_mem_insert .. |>.mpr ⟨hpos, hs⟩

theorem Low.mono (hs : Low s) (h : t ⊆ s) : Low t := fun p hp => hs p (h hp)

theorem Low.top_eq_npos (h : Low s) : top s = npos ↔ s = ∅ := by
  constructor
  · intro htop
    by_contra hne
    have hlt := h _ (top_mem (Finset.nonempty_iff_ne_empty.mpr hne))
    rw [htop, npos] at hlt
    omega
  · rintro rfl
    exact top_empty

theorem top_insert (hs : Low s) (pos : ℕ) :
    top (insert pos s) = if top s = npos ∨ top s < pos then pos else top s := by
  by_cases hempty : s = ∅
  · rw [if_pos (.inl (hs.top_eq_npos.mpr hempty)), hempty]
    exact top_eq (Finset.mem_insert_self _ _) (by simp)
  have hne := Finset.nonempty_iff_ne_empty.mpr hempty
  have hnpos : top s ≠ npos := hs.top_eq_npos.not.mpr hempty
  split
  next hlt =>
    have hbelow := hlt.resolve_left hnpos
    apply top_eq (Finset.mem_insert_self _ _)
    rw [Finset.forall_mem_insert]
    exact ⟨le_rfl, fun q hq => (le_top hq).trans hbelow.le⟩
  next hle =>
    apply top_eq (Finset.mem_insert_of_mem (top_mem hne))
    rw [Finset.forall_mem_insert]
    exact ⟨by omega, fun q hq => le_top hq⟩

/-- The greatest element stays when another one goes. -/
theorem top_erase (hp : p ∈ s) (h : pos ≠ top s) : top (s.erase pos) = top s := by
  apply top_eq (Finset.mem_erase.mpr ⟨h.symm, top_mem ⟨p, hp⟩⟩)
  intro q hq
  exact le_top (Finset.mem_of_mem_erase hq)

namespace BitSet

variable {b other : BitSet}

/-! ### Words -/

theorem getLsbD_mask (k : ℕ) : (mask pos).getLsbD k = decide (k = pos % 64) :=
  getLsbD_one_shiftLeft (Nat.mod_lt pos (by decide)) k

/-- A word meets the mask of a position where it has the bit. -/
theorem and_mask_eq_zero (word : BitVec 64) : word &&& mask pos = 0#64 ↔ word.getLsbD (pos % 64) = false := by
  constructor
  · intro h
    have hbit := congrArg (fun x => BitVec.getLsbD x (pos % 64)) h
    simpa [BitVec.getLsbD_and, getLsbD_mask] using hbit
  · intro h
    ext k hk
    rw [BitVec.getElem_zero, ← BitVec.getLsbD_eq_getElem, BitVec.getLsbD_and, getLsbD_mask]
    by_cases hpos : k = pos % 64
    · rw [hpos, h, Bool.false_and]
    · rw [decide_eq_false hpos, Bool.and_false]

theorem and_mask_word (b : BitSet) : b.word pos &&& mask pos = 0#64 ↔ bit b.data pos = false :=
  and_mask_eq_zero _

theorem and_mask_word_ne (b : BitSet) : b.word pos &&& mask pos ≠ 0#64 ↔ bit b.data pos = true := by
  rw [ne_eq, and_mask_word, Bool.not_eq_false]

theorem get_eq (b : BitSet) : b.get pos = bit b.data pos := by
  unfold get
  split
  next h => rw [bit, List.getD_eq_default _ _ h, BitVec.getLsbD_zero]
  next h =>
    rw [Bool.eq_iff_iff, decide_eq_true_iff]
    exact and_mask_word_ne b

/-- The bits behind a change of one word by the mask of a position. -/
theorem bit_set_mask {data : List (BitVec 64)} (hpos : pos / 64 < data.length)
    {f : BitVec 64 → BitVec 64 → BitVec 64} {g : Bool → Bool → Bool}
    (hf : ∀ x y : BitVec 64, ∀ k < 64, (f x y).getLsbD k = g (x.getLsbD k) (y.getLsbD k))
    (hg : ∀ x, g x false = x) (p : ℕ) :
    bit (data.set (pos / 64) (f (data.getD (pos / 64) 0#64) (mask pos))) p =
      g (bit data p) (decide (p = pos)) := by
  rw [bit_set hpos]
  split
  next h =>
    have hmod : (p % 64 = pos % 64) = (p = pos) := by
      rw [eq_iff_iff]
      omega
    simp only [hf _ _ _ (Nat.mod_lt p (show 0 < 64 by decide)), getLsbD_mask, hmod, bit, h]
  next h =>
    have hne : p ≠ pos := fun heq => h (by rw [heq])
    rw [decide_eq_false hne, hg]

/-! ### The cache -/

theorem findHighestSet_eq (b : BitSet) : b.findHighestSet = top (positions b.data) := by
  have hbit : ∀ {p}, p ∈ positions b.data ↔ bit b.data p = true := mem_positions (by decide)
  rw [findHighestSet]
  cases h : highest b.data b.data.length with
  | none =>
    have hempty : positions b.data = ∅ := by
      rw [Finset.eq_empty_iff_forall_notMem]
      intro p hp
      have hp := hbit.mp hp
      rw [highest_eq_none h (div_lt_of_bit hp)] at hp
      cases hp
    rw [hempty]
    rfl
  | some p =>
    obtain ⟨hp, hmax⟩ := highest_eq_some (by decide) h
    refine (top_eq (hbit.mpr hp) fun q hq => ?_).symm
    have hq := hbit.mp hq
    exact hmax q (div_lt_of_bit hq) hq

/-- The words stand for a set, below the bound, and its greatest element is cached. -/
structure Holds (b : BitSet) (s : Finset ℕ) : Prop where
  low : Low s
  positions_eq : positions b.data = s
  highestSet_eq : b.highestSet = top s

theorem Holds.mem (h : Holds b s) : p ∈ s ↔ bit b.data p = true := by
  rw [← h.positions_eq]
  exact mem_positions (by decide)

theorem Holds.refresh {data : List (BitVec 64)} (hlow : Low s) (hpositions : positions data = s) :
    Holds (b.refresh data) s where
  low := hlow
  positions_eq := hpositions
  highestSet_eq := by
    rw [BitSet.refresh, findHighestSet_eq]
    exact congrArg top hpositions

/-! ### Constructors -/

theorem positions_replicate (n : ℕ) : positions (List.replicate n 0#64) = ∅ := by
  rw [Finset.eq_empty_iff_forall_notMem]
  intro p hp
  rw [mem_positions (by decide), ← List.nil_append (List.replicate n 0#64), bit_append_replicate,
    bit_nil] at hp
  cases hp

theorem holds_new : Holds new ∅ := ⟨low_empty, rfl, rfl⟩

theorem holds_ofSize (n : ℕ) : Holds (ofSize n) ∅ where
  low := low_empty
  positions_eq := positions_replicate _
  highestSet_eq := rfl

/-! ### Single positions -/

theorem lt_length_reserve (hpos : pos < 2 ^ 64 - 64) : pos / 64 < (b.reserve pos).data.length := by
  unfold reserve resize longRange
  split
  · dsimp only
    rw [List.length_append, List.length_replicate]
    omega
  · omega

theorem bit_reserve (p : ℕ) : bit (b.reserve pos).data p = bit b.data p := by
  unfold reserve
  split
  · exact bit_append_replicate ..
  · rfl

/-- Room for a position changes nothing. -/
theorem Holds.reserve (h : Holds b s) (pos : ℕ) : Holds (b.reserve pos) s where
  low := h.low
  positions_eq := by
    rw [← h.positions_eq, positions_eq_iff (by decide)]
    exact bit_reserve
  highestSet_eq := by
    rw [← h.highestSet_eq, BitSet.reserve]
    split <;> rfl

theorem Holds.raise {data : List (BitVec 64)} (h : Holds b s) (hpos : pos < 2 ^ 64 - 64)
    (hpositions : positions data = insert pos s) :
    Holds (BitSet.raise pos { b with data }) (insert pos s) := by
  unfold BitSet.raise
  have htop := top_insert h.low pos
  rw [← h.highestSet_eq] at htop
  split
  next hraise => exact ⟨h.low.insert hpos, hpositions, by rw [htop, if_pos hraise]⟩
  next hraise => exact ⟨h.low.insert hpos, hpositions, by rw [htop, if_neg hraise]⟩

theorem Holds.lower {data : List (BitVec 64)} (h : Holds b s) (hpos : pos ∈ s)
    (hpositions : positions data = s.erase pos) :
    Holds (BitSet.lower pos { b with data }) (s.erase pos) := by
  have hlow := h.low.mono (Finset.erase_subset pos s)
  unfold BitSet.lower
  split
  next => exact Holds.refresh (b := b) hlow hpositions
  next hne =>
    refine ⟨hlow, hpositions, ?_⟩
    rw [top_erase hpos (by rwa [← h.highestSet_eq])]
    exact h.highestSet_eq

theorem Holds.set (h : Holds b s) (hpos : pos < 2 ^ 64 - 64) : Holds (b.set pos) (insert pos s) := by
  have hroom := lt_length_reserve (b := b) hpos
  have hr := h.reserve pos
  unfold BitSet.set
  dsimp only
  split
  next hbit =>
    apply hr.raise hpos
    ext p
    rw [mem_positions (by decide), word,
      bit_set_mask hroom (g := (· || ·)) (fun _ _ _ _ => BitVec.getLsbD_or) Bool.or_false,
      Bool.or_eq_true, decide_eq_true_iff, ← hr.mem, Finset.mem_insert, or_comm]
  next hbit =>
    rw [and_mask_word, Bool.not_eq_false, ← hr.mem] at hbit
    rwa [Finset.insert_eq_of_mem hbit]

theorem Holds.clear (h : Holds b s) (pos : ℕ) : Holds (b.clear pos) (s.erase pos) := by
  unfold BitSet.clear
  split
  next hle =>
    rw [Finset.erase_eq_of_notMem]
    · exact h
    · rw [h.mem, bit, List.getD_eq_default _ _ hle, BitVec.getLsbD_zero]
      exact Bool.false_ne_true
  next hlt =>
  split
  next hbit =>
    rw [and_mask_word_ne, ← h.mem] at hbit
    apply h.lower hbit
    ext p
    rw [mem_positions (by decide), word,
      bit_set_mask (f := fun x y => x &&& ~~~y) (Nat.not_le.mp hlt) (g := fun x y => x && !y) _
        (fun x => by simp),
      Bool.and_eq_true, Bool.not_eq_true', decide_eq_false_iff_not, ← h.mem, Finset.mem_erase,
      and_comm]
    intro x y k hk
    simp [hk]
  next hbit =>
    rw [not_not, and_mask_word, ← Bool.not_eq_true, ← h.mem] at hbit
    rwa [Finset.erase_eq_of_notMem hbit]

/-- The set with a position flipped. -/
theorem symmDiff_singleton : symmDiff s {pos} = if pos ∈ s then s.erase pos else insert pos s := by
  ext p
  rw [Finset.mem_symmDiff, Finset.mem_singleton]
  by_cases hp : p = pos
  · rw [hp]
    split
    next h => simp [h]
    next h => simp [h]
  · split
    next => simp [hp]
    next => simp [hp]

theorem Holds.flip (h : Holds b s) (hpos : pos < 2 ^ 64 - 64) :
    Holds (b.flip pos) (symmDiff s {pos}) := by
  have hroom := lt_length_reserve (b := b) hpos
  have hr := h.reserve pos
  have hbits := bit_set_mask (p := pos) hroom (g := Bool.xor) (fun _ _ _ _ => BitVec.getLsbD_xor)
    Bool.xor_false
  have hpositions : positions ((b.reserve pos).data.set (pos / 64)
      ((b.reserve pos).word pos ^^^ mask pos)) = symmDiff s {pos} := by
    ext p
    rw [mem_positions (by decide), word, bit_set_mask hroom (g := Bool.xor)
      (fun _ _ _ _ => BitVec.getLsbD_xor) Bool.xor_false, Bool.xor_iff_ne, Finset.mem_symmDiff,
      Finset.mem_singleton, hr.mem]
    by_cases hp : p = pos <;> simp [hp]
  unfold BitSet.flip
  dsimp only
  rw [decide_eq_true rfl, Bool.xor_true] at hbits
  split
  next hbit =>
    rw [and_mask_word_ne, word, hbits, Bool.not_eq_true', ← Bool.not_eq_true, ← hr.mem] at hbit
    rw [symmDiff_singleton, if_neg hbit] at hpositions ⊢
    exact hr.raise hpos hpositions
  next hbit =>
    rw [not_not, and_mask_word, word, hbits, Bool.not_eq_false', ← hr.mem] at hbit
    rw [symmDiff_singleton, if_pos hbit] at hpositions ⊢
    exact hr.lower hbit hpositions

/-! ### Two sets -/

/-- A mutator that changes words with those of another operand. -/
theorem Holds.combine {data : List (BitVec 64)} {f : ℕ → BitVec 64 → BitVec 64}
    {g : Bool → Bool → Bool} (h : Holds b s) (hother : Holds other t) (hdata : positions data = s)
    (hin : ∀ i < data.length, ∀ k < 64, (f i (data.getD i 0#64)).getLsbD k =
      g ((data.getD i 0#64).getLsbD k) ((other.data.getD i 0#64).getLsbD k))
    (hout : ∀ p, data.length ≤ p / 64 → g false (bit other.data p) = false)
    (hfalse : g false false = false) {u : Finset ℕ}
    (hu : ∀ p, p ∈ u ↔ g (decide (p ∈ s)) (decide (p ∈ t)) = true) :
    Holds (b.refresh (data.mapIdx f)) u := by
  apply Holds.refresh
  · intro p hp
    by_contra hlt
    rw [hu, decide_eq_false (fun hs => hlt (h.low p hs)),
      decide_eq_false (fun ht => hlt (hother.low p ht)), hfalse] at hp
    cases hp
  · ext p
    have hs : bit data p = decide (p ∈ s) := by
      rw [Bool.eq_iff_iff, decide_eq_true_iff, ← hdata, mem_positions (by decide)]
    have ht : bit other.data p = decide (p ∈ t) := by
      rw [Bool.eq_iff_iff, decide_eq_true_iff, hother.mem]
    rw [mem_positions (by decide), bit_mapIdx_of (by decide) hin hout, hs, ht, hu]

/-- Behind the shorter operand there are zeros. -/
theorem getD_of_not_lt_min {i : ℕ} (hi : i < b.data.length)
    (h : ¬ i < min b.data.length other.data.length) : other.data.getD i 0#64 = 0#64 :=
  List.getD_eq_default _ _ (by omega)

theorem Holds.andNot (h : Holds b s) (hother : Holds other t) : Holds (andNot other b) (s \ t) := by
  apply h.combine (g := fun x y => x && !y) hother h.positions_eq
  · intro i hi k hk
    split
    · simp [hk]
    next hmin =>
      rw [getD_of_not_lt_min hi hmin]
      simp
  · exact fun _ _ => rfl
  · rfl
  · intro p
    simp

theorem Holds.and (h : Holds b s) (hother : Holds other t) : Holds (and other b) (s ∩ t) := by
  apply h.combine (g := (· && ·)) hother h.positions_eq
  · intro i hi k hk
    split
    · simp
    next hmin =>
      rw [getD_of_not_lt_min hi hmin]
      simp
  · exact fun _ _ => rfl
  · rfl
  · intro p
    simp

/-- The first operand with as many words as the second one. -/
theorem Holds.widen (h : Holds b s) (other : BitSet) :
    other.data.length ≤ (widen other b).length ∧ positions (BitSet.widen other b) = s := by
  unfold BitSet.widen resize
  split
  · rw [List.length_append, List.length_replicate]
    refine ⟨by omega, ?_⟩
    rw [← h.positions_eq, positions_eq_iff (by decide)]
    exact fun p => bit_append_replicate ..
  · exact ⟨by omega, h.positions_eq⟩

theorem bit_of_length_le {data : List (BitVec 64)} {n p : ℕ} (hn : data.length ≤ n) (h : n ≤ p / 64) :
    bit data p = false := by
  rw [bit, List.getD_eq_default _ _ (hn.trans h), BitVec.getLsbD_zero]

/-- The loop of `operator|=` and `operator^=`: words are combined where the other operand has
some. -/
theorem Holds.combine_widen {f : BitVec 64 → BitVec 64 → BitVec 64} {g : Bool → Bool → Bool}
    (h : Holds b s) (hother : Holds other t)
    (hf : ∀ x y k, (f x y).getLsbD k = g (x.getLsbD k) (y.getLsbD k)) (hg : ∀ x, g x false = x)
    {u : Finset ℕ} (hu : ∀ p, p ∈ u ↔ g (decide (p ∈ s)) (decide (p ∈ t)) = true) :
    Holds (b.refresh ((BitSet.widen other b).mapIdx fun i word =>
      if i < other.data.length then f word (other.data.getD i 0#64) else word)) u := by
  obtain ⟨hle, hpositions⟩ := h.widen other
  apply h.combine (g := g) hother hpositions
  · intro i _ k _
    split
    · exact hf _ _ k
    next hlt =>
      rw [List.getD_eq_default _ _ (Nat.not_lt.mp hlt), BitVec.getLsbD_zero, hg]
  · intro p hp
    rw [bit_of_length_le hle hp, hg]
  · exact hg false
  · exact hu

theorem Holds.or (h : Holds b s) (hother : Holds other t) : Holds (or other b) (s ∪ t) := by
  apply h.combine_widen (f := (· ||| ·)) (g := (· || ·)) hother
  · exact fun x y k => BitVec.getLsbD_or
  · exact Bool.or_false
  · intro p
    simp

theorem Holds.xor (h : Holds b s) (hother : Holds other t) : Holds (xor other b) (symmDiff s t) := by
  apply h.combine_widen (f := (· ^^^ ·)) (g := Bool.xor) hother
  · exact fun x y k => BitVec.getLsbD_xor
  · exact Bool.xor_false
  · intro p
    rw [Finset.mem_symmDiff]
    by_cases hs : p ∈ s <;> by_cases ht : p ∈ t <;> simp [hs, ht]

end BitSet

end Zinc.Bits
