import Zinc.Bits.Reachable
import Zinc.Buffer.Access
import Mathlib.Data.Finset.Sort

/-! A `BitSet` as an array of bytes, and what a buffer does with one. The number of
bytes is the highest position divided by eight and rounded up, where it is the size
that has to be: a set whose highest position is the first one of a byte goes without
that byte. A set of values of an enumeration is written in as many bytes as its highest
value gives, and read from as many as its reader is told. -/

namespace Zinc.Bits

open Buffer ByteBuffer WordSet Throw

/-! ### Codecs -/

def writeFixedBitSet (bitSet : BitSet) : Action Unit := writeArray bitSet.toByteArray writeUnsignedByte

def readFixedBitSet (length : ℕ) : Action BitSet := do
  let bytes ← readArray readUnsignedByte length
  pure (BitSet.fromByteArray bytes)

/-- The values of an enumeration are given by their numbers. -/
def enumBits (enumSet : List ℕ) : BitSet := enumSet.foldl (fun bitSet value => bitSet.set value) .new

def writeEnumSet (enumSet : List ℕ) : Action Unit := writeFixedBitSet (enumBits enumSet)

def readEnumSet (length : ℕ) : Action (List ℕ) := do
  let bitSet ← readFixedBitSet length
  pure ((List.range (length * 8 % longRange)).filter fun i => bitSet.get i)

/-! ### Bytes -/

namespace BitSet

variable {b : BitSet} {s : Finset ℕ}

theorem getLsbD_byte_of_le (b : BitSet) (i : ℕ) {n k : ℕ} (hn : n ≤ 8) (hk : k < 8) :
    ((List.range n).foldl (fun byte j =>
      if b.get (i * 8 + j) then byte ||| 1#8 <<< j else byte) 0#8).getLsbD k =
      (decide (k < n) && b.get (i * 8 + k)) := by
  induction n with
  | zero => simp
  | succ n ih =>
    have ih := ih (by omega)
    rw [List.range_succ, List.foldl_append, List.foldl_cons, List.foldl_nil]
    by_cases hlast : k = n
    · subst hlast
      rw [decide_eq_false (lt_irrefl k), Bool.false_and] at ih
      rw [decide_eq_true (Nat.lt_succ_self k), Bool.true_and]
      split
      next h => rw [BitVec.getLsbD_or, getLsbD_one_shiftLeft hk, decide_eq_true rfl, Bool.or_true, h]
      next h => rw [ih, Bool.eq_false_iff.mpr h]
    · have hlt : k < n + 1 ↔ k < n := by omega
      rw [decide_eq_decide.mpr hlt, ← ih]
      split
      next => rw [BitVec.getLsbD_or, getLsbD_one_shiftLeft (by omega), decide_eq_false hlast, Bool.or_false]
      next => rfl

theorem testBit_byte (b : BitSet) (i : ℕ) {k : ℕ} (hk : k < 8) :
    (b.byte i).toNat.testBit k = b.get (i * 8 + k) := by
  have hbit := getLsbD_byte_of_le b i le_rfl hk
  rw [decide_eq_true hk, Bool.true_and] at hbit
  exact hbit

/-- The bytes have the bits of their positions. -/
theorem bit_toByteArray (b : BitSet) (p : ℕ) : bit (b.toByteArray.map UInt8.toBitVec) p =
    (decide (p < 8 * b.toByteArray.length) && b.get p) := by
  have hdiv : p / 8 * 8 + p % 8 = p := Nat.div_add_mod' p 8
  rw [bit_bytes]
  by_cases hlt : p < 8 * b.toByteArray.length
  · rw [decide_eq_true hlt, Bool.true_and]
    unfold toByteArray at hlt ⊢
    split at hlt
    · cases hlt
    next hne =>
      rw [List.length_map, List.length_range] at hlt
      rw [if_neg hne, List.getD_eq_getElem?_getD, List.getElem?_map, List.getElem?_range (by omega),
        Option.map_some, Option.getD_some, testBit_byte b _ (Nat.mod_lt p (by decide)), hdiv]
  · rw [decide_eq_false hlt, Bool.false_and, List.getD_eq_default _ _ (by omega)]
    simp

theorem Holds.length_toByteArray (h : Holds b s) :
    b.toByteArray.length = if s = ∅ then 0 else (top s + 7) / 8 := by
  unfold toByteArray
  split
  next hnpos =>
    rw [if_pos (h.highestSet_eq_npos.mp hnpos)]
    rfl
  next hnpos =>
    have hne := h.highestSet_eq_npos.not.mp hnpos
    have hlow := h.low _ (top_mem (Finset.nonempty_iff_ne_empty.mpr hne))
    rw [if_neg hne, List.length_map, List.length_range, h.highestSet_eq, longRange,
      Nat.mod_eq_of_lt (by omega)]

theorem Holds.positions_toByteArray (h : Holds b s) :
    positions (b.toByteArray.map UInt8.toBitVec) = s.filter (· < 8 * b.toByteArray.length) := by
  ext p
  rw [mem_positions (by decide), bit_toByteArray, Finset.mem_filter, h.get_eq]
  simp [and_comm]

/-- The set fits into its bytes. -/
def Covered (s : Finset ℕ) : Prop := s = ∅ ∨ top s % 8 ≠ 0

theorem Holds.covered_iff (h : Holds b s) : Covered s ↔ b.none = true ∨ b.highestSet % 8 ≠ 0 := by
  rw [Covered, h.none_eq, decide_eq_true_iff, h.highestSet_eq]

theorem Holds.length_eq_iff (h : Holds b s) : b.toByteArray.length = (b.size + 7) / 8 ↔ Covered s := by
  rw [h.length_toByteArray, Covered, size]
  simp only [h.highestSet_eq_npos]
  by_cases hs : s = ∅
  · simp [hs]
  · rw [if_neg hs, if_neg hs, h.highestSet_eq]
    have hor : s = ∅ ∨ top s % 8 ≠ 0 ↔ top s % 8 ≠ 0 := or_iff_right hs
    rw [hor]
    omega

theorem Holds.positions_of_covered (h : Holds b s) (hcovered : Covered s) :
    positions (b.toByteArray.map UInt8.toBitVec) = s := by
  rw [h.positions_toByteArray, Finset.filter_eq_self]
  intro p hp
  have hle := le_top hp
  have hne : s ≠ ∅ := Finset.ne_empty_of_mem hp
  have htop := hcovered.resolve_left hne
  rw [h.length_toByteArray, if_neg hne]
  omega

theorem Holds.fromByteArray_toByteArray (h : Holds b s) (hcovered : Covered s) :
    Holds (fromByteArray b.toByteArray) s := by
  have hpositions := h.positions_of_covered hcovered
  have hlow := h.low
  rw [← hpositions] at hlow ⊢
  exact holds_fromByteArray hlow

end BitSet

/-! ### Buffers -/

variable {e : Bool} {view : ByteBuffer → Bytes → Prop} {b : BitSet} {s : Finset ℕ}

theorem writeFixedBitSet_produces (hv : Writable e view) (b : BitSet) :
    Produces view (writeFixedBitSet b) b.toByteArray := by
  have hall := Produces.forEach (fun c => [c]) b.toByteArray fun c _ => hv.writeByte c
  rwa [List.flatMap_singleton'] at hall

theorem readFixedBitSet_consumes (hv : Readable e view) (bytes : Bytes) :
    Consumes view (readFixedBitSet bytes.length) bytes (BitSet.fromByteArray bytes) := by
  have hall := Consumes.replicate (fun c => [c]) bytes fun c _ => hv.readByte c
  rw [List.flatMap_singleton'] at hall
  exact hall.bind_pure BitSet.fromByteArray

/-- Written to a buffer that was read to its end, and read in as many bytes. -/
def FixedReadsBack (b : BitSet) : Prop :=
  ∀ e buffer suffix, Stored e buffer [] → ∃ b' buffer',
    (do writeFixedBitSet b; writeBytes suffix; readFixedBitSet b.toByteArray.length) buffer =
      .ok (b', buffer') ∧ b'.eq b = true

theorem BitSet.Holds.fixedReadsBack (h : b.Holds s) (hcovered : BitSet.Covered s) :
    FixedReadsBack b := by
  intro e buffer suffix hbuffer
  obtain ⟨buffer₁, hwrite, h₁⟩ := writeFixedBitSet_produces (writable_stored e) b buffer [] hbuffer
  rw [List.nil_append] at h₁
  obtain ⟨buffer₂, hsuffix, h₂⟩ := (writable_stored e).writeBytes suffix buffer₁ _ h₁
  obtain ⟨buffer₃, hread, -⟩ := readFixedBitSet_consumes (readable_stored e) _ buffer₂ suffix h₂
  refine ⟨_, buffer₃, ?_, ((h.fromByteArray_toByteArray hcovered).eq_iff h).mpr rfl⟩
  rw [bind_of_eq_ok hwrite, bind_of_eq_ok hsuffix, hread]

/-- The array of bytes gives the set back, has as many bytes as its size needs, and is
read back from a buffer, if and only if the highest position is not the first of a byte. -/
theorem BitSet.toByteArray_faithful_iff (h : BitSet.Reachable b s) :
    ((BitSet.fromByteArray b.toByteArray).eq b = true ∧
      b.toByteArray.length = (b.size + 7) / 8 ∧ FixedReadsBack b) ↔
      b.none = true ∨ b.highestSet % 8 ≠ 0 := by
  have hb := h.holds
  rw [← hb.covered_iff]
  constructor
  · rintro ⟨-, hlength, -⟩
    exact hb.length_eq_iff.mp hlength
  · intro hcovered
    exact ⟨((hb.fromByteArray_toByteArray hcovered).eq_iff hb).mpr rfl,
      hb.length_eq_iff.mpr hcovered, hb.fixedReadsBack hcovered⟩

theorem BitSet.toByteArray_faithful_nine :
    ((BitSet.fromByteArray (BitSet.new.set 9).toByteArray).eq (BitSet.new.set 9) = true ∧
      (BitSet.new.set 9).toByteArray.length = ((BitSet.new.set 9).size + 7) / 8 ∧
      FixedReadsBack (BitSet.new.set 9)) ↔
      (BitSet.new.set 9).none = true ∨ (BitSet.new.set 9).highestSet % 8 ≠ 0 :=
  BitSet.toByteArray_faithful_iff (BitSet.Reachable.new.set (by decide))

/-- The set of the position 0 has no bytes. -/
theorem BitSet.not_toByteArray_faithful : ¬ ∀ b s, BitSet.Reachable b s →
    (BitSet.fromByteArray b.toByteArray).eq b = true ∧
      b.toByteArray.length = (b.size + 7) / 8 ∧ FixedReadsBack b := by
  intro h
  have heq := (h (BitSet.new.set 0) _ (BitSet.Reachable.new.set (by decide))).1
  exact absurd heq (by decide)

/-! ### Enumerations -/

theorem holds_foldl_set {enumSet : List ℕ} (hlow : ∀ value ∈ enumSet, value < 2 ^ 64 - 64)
    (h : b.Holds s) : (enumSet.foldl (fun bitSet value => bitSet.set value) b).Holds
      (enumSet.toFinset ∪ s) := by
  induction enumSet generalizing b s with
  | nil =>
    rw [List.toFinset_nil, Finset.empty_union]
    exact h
  | cons value enumSet ih =>
    rw [List.forall_mem_cons] at hlow
    rw [List.foldl_cons, List.toFinset_cons, Finset.insert_union, ← Finset.union_insert]
    exact ih hlow.2 (h.set hlow.1)

theorem holds_enumBits {enumSet : List ℕ} (hlow : ∀ value ∈ enumSet, value < 2 ^ 64 - 64) :
    (enumBits enumSet).Holds enumSet.toFinset := by
  have h := holds_foldl_set hlow BitSet.holds_new
  rwa [Finset.union_empty] at h

/-- The numbers below a bound with a property, in order. -/
theorem filter_range_eq_sort {n : ℕ} {p : ℕ → Bool} (h : ∀ i, i ∈ s ↔ i < n ∧ p i = true) :
    (List.range n).filter p = s.sort := by
  have hs : ((List.range n).filter p).toFinset = s := by
    ext i
    rw [List.mem_toFinset, List.mem_filter, List.mem_range, h]
  rw [← hs]
  exact ((List.toFinset_sort (· ≤ ·) (List.nodup_range.filter _)).mpr
    (List.pairwise_le_range.filter _)).symm

/-- Written to a new buffer, read at a width, with the reader at the end of what was
written; further bytes were written in between. -/
def EnumReadsBack (length : ℕ) (enumSet : List ℕ) (suffix : Bytes) : Prop :=
  ∃ buffer buffer₁ buffer₂, writeEnumSet enumSet .new = .ok ((), buffer) ∧
    writeBytes suffix buffer = .ok ((), buffer₁) ∧
    readEnumSet length buffer₁ = .ok (enumSet.toFinset.sort, buffer₂) ∧
    buffer₂.getReaderPointer = buffer.size

variable {length : ℕ} {enumSet : List ℕ} {suffix : Bytes}

/-- No position is rounded up to more words. -/
theorem length_data_enumBits_le (enumSet : List ℕ) : (enumBits enumSet).data.length ≤ 2 ^ 58 - 1 := by
  have hset : ∀ (b : BitSet) (pos : ℕ), b.data.length ≤ 2 ^ 58 - 1 →
      (b.set pos).data.length ≤ 2 ^ 58 - 1 := by
    intro b pos hle
    have hreserve : (b.reserve pos).data.length ≤ 2 ^ 58 - 1 := by
      unfold BitSet.reserve
      split
      · rw [BitSet.resize, List.length_append, List.length_replicate, longRange]
        omega
      · exact hle
    unfold BitSet.set BitSet.raise
    dsimp only
    split
    · split <;> simpa using hreserve
    · exact hreserve
  have hall : ∀ b : BitSet, b.data.length ≤ 2 ^ 58 - 1 →
      (enumSet.foldl (fun bitSet value => bitSet.set value) b).data.length ≤ 2 ^ 58 - 1 := by
    induction enumSet with
    | nil => exact fun _ h => h
    | cons value enumSet ih => exact fun b h => ih _ (hset b value h)
  exact hall .new (by decide)

/-- The reader takes the width that it is told, and the memory has more than that. -/
theorem EnumReadsBack.width_eq (h : EnumReadsBack length enumSet suffix) :
    length = (enumBits enumSet).toByteArray.length ∧
      ∀ value ∈ enumSet, value < 8 * length ∧ value < 2 ^ 64 - 64 := by
  obtain ⟨buffer, buffer₁, buffer₂, hwrite, hsuffix, hread, hpointer⟩ := h
  obtain ⟨_, hwrite', hfresh⟩ :=
    writeFixedBitSet_produces (writable_fresh true) (enumBits enumSet) .new [] fresh_new
  rw [writeEnumSet, hwrite'] at hwrite
  cases hwrite
  rw [List.nil_append] at hfresh
  obtain ⟨_, hsuffix', hfresh₁⟩ := (writable_fresh true).writeBytes suffix _ _ hfresh
  rw [hsuffix'] at hsuffix
  cases hsuffix
  obtain ⟨⟨bitSet, _⟩, hfixed, hpure⟩ := bind_eq_ok.mp hread
  obtain ⟨hvalues, rfl⟩ := Prod.mk.inj (Except.ok.inj hpure)
  obtain ⟨⟨bytes, _⟩, harray, hpure⟩ := bind_eq_ok.mp hfixed
  obtain ⟨rfl, rfl⟩ := Prod.mk.inj (Except.ok.inj hpure)
  obtain ⟨-, hbytes, hpassed⟩ := hfresh₁.passed.of_readArray harray
  obtain ⟨hend, hfront⟩ := hfresh₁.pointer_of_passed hpassed
  have hmore := length_lt_memory ((enumBits enumSet).toByteArray ++ suffix)
  rw [List.length_append] at hmore
  rw [hpointer, hfresh.size, List.length_drop] at hend hfront
  have hwidth : length = (enumBits enumSet).toByteArray.length := by
    have hne : (memory ((enumBits enumSet).toByteArray ++ suffix)).drop length ≠ [] := by
      apply List.ne_nil_of_length_pos
      rw [List.length_drop]
      omega
    have := hfront hne
    omega
  rw [memory, List.append_assoc, hwidth, List.take_left] at hbytes
  refine ⟨hwidth, fun value hvalue => ?_⟩
  have hmem : value ∈ enumSet.toFinset.sort := by
    rw [Finset.mem_sort, List.mem_toFinset]
    exact hvalue
  rw [← hvalues, List.mem_filter, List.mem_range, hbytes] at hmem
  have hget : bit (enumBits enumSet).data value = true := by
    have hbit : bit ((enumBits enumSet).toByteArray.map UInt8.toBitVec) value = true := by
      rw [← BitSet.bit_blocks, ← hmem.2, BitSet.get_eq]
      rfl
    rw [BitSet.bit_toByteArray, BitSet.get_eq, Bool.and_eq_true] at hbit
    exact hbit.2
  have hword := div_lt_of_bit hget
  have hwords := length_data_enumBits_le enumSet
  have hlt := hmem.1.trans_le (Nat.mod_le ..)
  exact ⟨by omega, by omega⟩

/-- There is memory behind bytes that were written. -/
theorem exists_memory_append (w suffix : Bytes) :
    ∃ rest, rest ≠ [] ∧ memory (w ++ suffix) = w ++ rest := by
  refine ⟨_, ?_, List.append_assoc ..⟩
  intro hnil
  have hmore := length_lt_memory (w ++ suffix)
  rw [memory, List.append_assoc, hnil, List.append_nil, List.length_append] at hmore
  omega

theorem enumReadsBack_of_covered (hlow : ∀ value ∈ enumSet, value < 2 ^ 64 - 64)
    (hcovered : BitSet.Covered enumSet.toFinset)
    (hlength : length = (enumBits enumSet).toByteArray.length) (suffix : Bytes) :
    EnumReadsBack length enumSet suffix := by
  have hb := holds_enumBits hlow
  obtain ⟨buffer, hwrite, hfresh⟩ :=
    writeFixedBitSet_produces (writable_fresh true) (enumBits enumSet) .new [] fresh_new
  rw [List.nil_append] at hfresh
  obtain ⟨buffer₁, hsuffix, hfresh₁⟩ := (writable_fresh true).writeBytes suffix _ _ hfresh
  obtain ⟨rest, hrest, hmemory⟩ := exists_memory_append (enumBits enumSet).toByteArray suffix
  obtain ⟨buffer₂, hread, hpassed⟩ := readFixedBitSet_consumes (readable_passed _ true)
    (enumBits enumSet).toByteArray buffer₁ rest (hmemory ▸ hfresh₁.passed)
  refine ⟨buffer, buffer₁, buffer₂, hwrite, hsuffix, ?_, ?_⟩
  · have hcopy := hb.fromByteArray_toByteArray hcovered
    have hbound : (enumBits enumSet).toByteArray.length * 8 < longRange := by
      rw [hb.length_toByteArray]
      split
      · decide
      next hne =>
        have := hb.low _ (top_mem (Finset.nonempty_iff_ne_empty.mpr hne))
        rw [longRange]
        omega
    have hinside : ∀ i ∈ enumSet.toFinset, i < (enumBits enumSet).toByteArray.length * 8 := by
      intro i hi
      rw [← hb.positions_of_covered hcovered, hb.positions_toByteArray, Finset.mem_filter] at hi
      omega
    rw [readEnumSet, hlength, bind_of_eq_ok hread, Nat.mod_eq_of_lt hbound,
      filter_range_eq_sort (s := enumSet.toFinset)]
    · rfl
    · intro i
      rw [hcopy.get_eq, decide_eq_true_iff]
      exact ⟨fun hi => ⟨hinside i hi, hi⟩, fun hi => hi.2⟩
  · have hpointer := (hfresh₁.pointer_of_passed hpassed).2 hrest
    rw [hmemory, List.length_append] at hpointer
    rw [hfresh.size]
    exact Nat.add_right_cancel hpointer

/-- A set of values is read back, with the reader behind its bytes, if and only if it is
empty and read in no bytes, or its highest value is not the first one of a byte and the
bytes up to that one are as many as are read; there are no words for the last values of
an `unsigned long`. -/
theorem enumReadsBack_iff (length : ℕ) (enumSet : List ℕ) (suffix : Bytes)
    (hbound : ∀ value ∈ enumSet, value < 8 * length) :
    EnumReadsBack length enumSet suffix ↔ enumSet = [] ∧ length = 0 ∨
      ∃ m ∈ enumSet, (∀ value ∈ enumSet, value ≤ m) ∧ m % 8 ≠ 0 ∧ (m + 7) / 8 = length ∧
        m < 2 ^ 64 - 64 := by
  have hlength (hlow : ∀ value ∈ enumSet, value < 2 ^ 64 - 64) :=
    (holds_enumBits hlow).length_toByteArray
  simp only [List.toFinset_eq_empty_iff] at hlength
  constructor
  · intro h
    obtain ⟨hwidth, hrange⟩ := h.width_eq
    have hlength := hlength fun value hvalue => (hrange value hvalue).2
    by_cases hnil : enumSet = []
    · rw [if_pos hnil] at hlength
      exact .inl ⟨hnil, hwidth.trans hlength⟩
    · rw [if_neg hnil] at hlength
      have hmem := List.mem_toFinset.mp (top_mem (List.toFinset_nonempty_iff _ |>.mpr hnil))
      obtain ⟨hlt, hlow⟩ := hrange _ hmem
      exact .inr ⟨_, hmem, fun value hvalue => le_top (List.mem_toFinset.mpr hvalue), by omega,
        by omega, hlow⟩
  · rintro (⟨rfl, hzero⟩ | ⟨m, hm, hmax, hmod, hdiv, hlow⟩)
    · exact enumReadsBack_of_covered (by simp) (.inl rfl) hzero suffix
    · have htop : top enumSet.toFinset = m :=
        top_eq (List.mem_toFinset.mpr hm) fun q hq => hmax q (List.mem_toFinset.mp hq)
      have hlow : ∀ value ∈ enumSet, value < 2 ^ 64 - 64 := fun value hvalue =>
        (hmax value hvalue).trans_lt hlow
      have hlength := hlength hlow
      rw [if_neg (List.ne_nil_of_mem hm), htop] at hlength
      exact enumReadsBack_of_covered hlow (.inr (by rwa [htop])) (hdiv.symm.trans hlength.symm) suffix

/-- Two different values below sixteen, one of them twice. -/
theorem enumReadsBack_two : EnumReadsBack 2 [9, 3, 9] [1] ↔ ([9, 3, 9] : List ℕ) = [] ∧ 2 = 0 ∨
    ∃ m ∈ ([9, 3, 9] : List ℕ), (∀ value ∈ ([9, 3, 9] : List ℕ), value ≤ m) ∧ m % 8 ≠ 0 ∧
      (m + 7) / 8 = 2 ∧ m < 2 ^ 64 - 64 :=
  enumReadsBack_iff 2 [9, 3, 9] [1] (by decide)

/-- The first value of an enumeration is written in no bytes and read from one. -/
theorem not_enumReadsBack : ¬ ∀ length enumSet suffix,
    (∀ value ∈ enumSet, value < 8 * length) → EnumReadsBack length enumSet suffix := by
  intro h
  have hwidth := (h 1 [0] [] (by decide)).width_eq.1
  exact absurd hwidth (by decide)

end Zinc.Bits
