import Zinc.Bits.Reachable
import Zinc.Buffer.RoundTrip

/-! A `BitSet` as an array of longs. The array ends with the word of the highest position, so
that it depends on the set alone: two sets with the same positions have the same array. In a
buffer it stands behind its length; a buffer of the other byte order reads every word with its
bytes turned round. -/

namespace Zinc.Bits

open Buffer ByteBuffer WordSet Throw

/-! ### Codecs -/

def writeBitSet (bitSet : BitSet) : Action Unit :=
  writePrefixedArray bitSet.toLongArray (writeNumeric (k := 8))

def readBitSet : Action BitSet := do
  let longs ← readPrefixedArray (readNumeric 8)
  pure (BitSet.fromLongArray longs)

/-! ### Canonical arrays -/

namespace BitSet

variable {b other : BitSet} {s t : Finset ℕ}

/-- The same positions. -/
def Same (b other : BitSet) : Prop := ∀ p, b.get p = other.get p

theorem same_iff : b.Same other ↔ positions b.data = positions other.data := by
  rw [positions_eq_iff (by decide), Same]
  simp only [get_eq]

/-- Words of one number are given by their positions. -/
theorem eq_of_positions {words words' : List (BitVec 64)} (hlength : words.length = words'.length)
    (h : positions words = positions words') : words = words' := by
  rw [positions_eq_iff (by decide), bit_eq_iff (by decide)] at h
  apply List.ext_getElem hlength
  intro i hi hi'
  have hword := h i
  rwa [List.getD_eq_getElem _ _ hi, List.getD_eq_getElem _ _ hi'] at hword

/-- The array ends with the word of the highest position. -/
theorem Holds.length_toLongArray (h : Holds b s) :
    b.toLongArray.length = if s = ∅ then 0 else top s / 64 + 1 := by
  unfold BitSet.toLongArray
  by_cases hs : s = ∅
  · rw [if_pos (h.highestSet_eq_npos.mpr hs), if_pos hs, List.length_nil]
  · have htop := h.mem.mp (top_mem (Finset.nonempty_iff_ne_empty.mpr hs))
    have hlt := div_lt_of_bit htop
    rw [if_neg (mt h.highestSet_eq_npos.mp hs), if_neg hs, h.highestSet_eq, List.length_take]
    omega

theorem Holds.toLongArray_eq_iff (h : Holds b s) (hother : Holds other t) :
    b.toLongArray = other.toLongArray ↔ s = t := by
  constructor
  · intro heq
    rw [← h.toLongArray, heq, hother.toLongArray]
  · rintro rfl
    apply eq_of_positions
    · rw [h.length_toLongArray, hother.length_toLongArray]
    · rw [h.toLongArray, hother.toLongArray]

theorem Holds.same_iff (h : Holds b s) (hother : Holds other t) : b.Same other ↔ s = t := by
  rw [BitSet.same_iff, h.positions_eq, hother.positions_eq]

/-- What is made of words of the same number is the set only if they are its words. -/
theorem Holds.same_fromLongArray_iff (h : Holds b s) {longs : List (BitVec 64)}
    (hlength : longs.length = b.toLongArray.length) :
    (fromLongArray longs).Same b ↔ longs = b.toLongArray := by
  rw [BitSet.same_iff, h.positions_eq, ← h.toLongArray]
  exact ⟨eq_of_positions hlength, fun heq => congrArg positions heq⟩

end BitSet

/-! ### Words in a buffer -/

variable {e : Bool} {view : ByteBuffer → Bytes → Prop} {b : BitSet}

/-- The word of a set in a big-endian buffer. -/
def maskBytes (b : BitSet) : Bytes :=
  prefixedBytes (fun word => numericBytes true (k := 8) word) b.toLongArray

theorem produces_writeBitSet (hv : Writable true view) (b : BitSet) :
    Produces view (writeBitSet b) (maskBytes b) :=
  hv.writePrefixedArray fun word _ => hv.writeNumeric (k := 8) word

/-- What a buffer reads of the word of a set. -/
def readMask (e : Bool) (b : BitSet) : BitSet :=
  BitSet.fromLongArray (b.toLongArray.map (crossed e (k := 8)))

theorem consumes_readBitSet (hv : Readable e view) (h : Counted b.toLongArray.length) :
    Consumes view readBitSet (maskBytes b) (readMask e b) := by
  have harray : Consumes view (readPrefixedArray (readNumeric 8)) (maskBytes b)
      (b.toLongArray.map (crossed e (k := 8))) :=
    hv.readPrefixedArray_map h fun word _ => hv.readCrossed (by decide) word
  exact harray.bind_pure _

/-- Every word of a set reads the same in a buffer of the byte order. -/
def Uncrossed (e : Bool) (b : BitSet) : Prop :=
  ∀ word ∈ b.toLongArray, crossed e (k := 8) word = word

theorem uncrossed_true (b : BitSet) : Uncrossed true b := fun word _ => crossed_true (k := 8) word

/-- A set comes back if all its words read the same. -/
theorem BitSet.Holds.same_readMask_iff {s : Finset ℕ} (h : b.Holds s) :
    (readMask e b).Same b ↔ Uncrossed e b := by
  rw [readMask, h.same_fromLongArray_iff (List.length_map _)]
  conv_lhs => rhs; rw [← List.map_id b.toLongArray]
  rw [List.map_inj_left]
  rfl

end Zinc.Bits
