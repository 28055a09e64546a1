import Zinc.Buffer.Access
import Mathlib.Data.List.Infix

/-! The readers that take a VarInt and then as many bytes. The length is used as it
is read: a negative one becomes a size that no vector can reserve, and one beyond the
unread bytes is served from memory that was never written, until the memory ends. So
the readers respect the data of a buffer exactly when it announces a length that the
unread bytes behind it cover. -/

namespace Zinc.Buffer

open Throw InternalByteBuffer ByteBuffer

/-! ### Unread bytes -/

/-- The written bytes behind the reader. -/
def ByteBuffer.unread (buffer : ByteBuffer) : Bytes :=
  buffer.getBytes.drop buffer.getReaderPointer

namespace InternalByteBuffer

variable {b b' : InternalByteBuffer}

/-- The unread bytes are the memory ahead, as far as it lies in front of the writer. -/
theorem Regular.unread_eq (h : Regular b) (e : Bool) :
    (ByteBuffer.mk b e).unread =
      (ahead b).take ((ByteBuffer.mk b e).size - (ByteBuffer.mk b e).getReaderPointer) := by
  rw [unread, ByteBuffer.getBytes, h.getBytes_eq, List.drop_take]
  rfl

/-- A reader that passes memory passes the unread bytes in front of it. -/
theorem Regular.unread_advances (h : Regular b) {n : ℕ} (hadv : Advances b b' n) (e : Bool) :
    (ByteBuffer.mk b' e).unread = (ByteBuffer.mk b e).unread.drop n := by
  have hlen := h.toShape.length_ahead
  have hlen' := hadv.shape.length_ahead
  have hwriter := h.writer
  obtain ⟨k, hblocks, hwrite⟩ := hadv.dropped
  rw [h.unread_eq, List.drop_take, ← hadv.ahead_eq]
  by_cases hall : b.blocks.length ≤ k
  · have hnil : b'.blocks = [] := by rw [hblocks, List.drop_eq_nil_iff]; exact hall
    have hnone : (ByteBuffer.mk b' e).unread = [] := by
      simp [unread, ByteBuffer.getBytes, InternalByteBuffer.getBytes, hnil]
    rw [hnone, ahead, hnil]
    simp
  · have hregular : Regular b' := by
      refine ⟨hadv.shape, ?_, by rw [hadv.writeOffset_eq]; exact h.writeOffset_lt⟩
      rw [hblocks, List.length_drop]
      omega
    rw [hregular.unread_eq]
    -- at the end of the memory nothing is taken, before it both cursors moved along
    by_cases hnil : ahead b' = []
    · rw [hnil, List.take_nil, List.take_nil]
    · have hpos : 0 < (ahead b').length := List.length_pos_iff.mpr hnil
      have hmul : b.blocks.length * blockSize = b'.blocks.length * blockSize + k * blockSize := by
        rw [← Nat.add_mul, hblocks, List.length_drop, Nat.sub_add_cancel (by omega)]
      have hmul' : b.writeBlock * blockSize = b'.writeBlock * blockSize + k * blockSize := by
        rw [← Nat.add_mul, hwrite, Nat.sub_add_cancel (by omega)]
      have hoff := hadv.writeOffset_eq
      have hahead := congrArg List.length hadv.ahead_eq
      rw [List.length_drop] at hahead
      congr 1
      simp only [ByteBuffer.size, getReaderPointer, getWriter, getReader]
      omega

end InternalByteBuffer

/-! ### Announced lengths -/

variable {b : InternalByteBuffer} {e : Bool}

/-- The length that a memory announces, and the number of bytes it takes; a VarInt that
does not end is read as 0. -/
def announced (memory : Bytes) : Option (BitVec 32 × ℕ) :=
  match Base128.decode (varNumericMaxSize 4) memory with
  | some n => some (BitVec.ofNat 32 n, Base128.span (varNumericMaxSize 4) memory)
  | none => if memory.length < varNumericMaxSize 4 then none else some (0, varNumericMaxSize 4)

theorem readVarInt_of_announced (hb : Shape b) (e : Bool) {n : BitVec 32} {s : ℕ}
    (h : announced (ahead b) = some (n, s)) :
    ∃ buffer', readVarInt ⟨b, e⟩ = .ok (n, buffer') ∧ Passed b e buffer' ((ahead b).drop s) := by
  have hstart := passed_start hb e
  unfold announced at h
  split at h
  next m hdec =>
    cases h
    exact (readable_passed b e).readVarNumeric true (k := 4) (by decide) hstart hdec
  next hdec =>
    split at h
    next => cases h
    next hlen =>
      cases h
      exact (readable_passed b e).readVarNumeric_overflow true (k := 4) (by decide) hstart hdec
        (by omega)

theorem readVarInt_of_not_announced (hb : Shape b) (e : Bool) (h : announced (ahead b) = none) :
    readVarInt ⟨b, e⟩ = .error .undefined := by
  unfold announced at h
  split at h
  next => cases h
  next hdec =>
    split at h
    next hlen =>
      have hmore := Base128.decode_eq_none_iff.mp hdec
      rw [List.take_of_length_le hlen.le] at hmore
      exact (readVarNumeric_undefined_iff hb e true (k := 4) (by decide)).mpr ⟨hlen, hmore⟩
    next => cases h

theorem announced_nil : announced [] = none := rfl

theorem le_of_announced {memory : Bytes} {n : BitVec 32} {s : ℕ}
    (h : announced memory = some (n, s)) : s ≤ memory.length := by
  unfold announced at h
  split at h
  next =>
    cases h
    exact Base128.span_le_length _ _
  next =>
    split at h
    next => cases h
    next hlen =>
      cases h
      omega

/-- Behind the last block a VarInt is read from an empty result. -/
theorem readVarInt_of_end (hend : b.blocks.length ≤ b.readBlock) (e : Bool) :
    readVarInt ⟨b, e⟩ = .error .undefined := by
  have hblock : b.blocks[b.readBlock]? = none := by simpa using hend
  have hbytes : readBytes 1 ⟨b, e⟩ = .ok ([], ⟨b, e⟩) := by
    rw [readBytes, InternalByteBuffer.read, if_neg (by decide), InternalByteBuffer.readLoop, hblock]
    rfl
  have hbyte : readByte ⟨b, e⟩ = .error .undefined := by
    rw [readByte, bind_of_eq_ok hbytes]
    rfl
  rw [readVarInt, readVarNumeric, varNumericMaxSize, readVarNumericLoop, bind_apply, hbyte, error_bind]

/-- The readers of a length and as many bytes. -/
def prefixedReaders : List (Action Bytes) :=
  [readString, readPrefixedByteArray, readPrefixedArray readUnsignedByte]

/-- A length that the unread bytes cover gives exactly the next bytes; for any other length
the readers return, and return unread bytes only. -/
def RespectsData (buffer : ByteBuffer) : Prop :=
  ∃ n after, readVarInt buffer = .ok (n, after) ∧
    if 0 ≤ n.toInt ∧ n.toInt ≤ after.unread.length then
      ∀ reader ∈ prefixedReaders, ∃ rest, reader buffer = .ok (after.unread.take n.toNat, rest)
    else ∀ reader ∈ prefixedReaders, ∃ bytes rest,
      reader buffer = .ok (bytes, rest) ∧ bytes <+: after.unread

/-- The memory announces a length that the unread bytes behind it cover. -/
def LengthCovered (buffer : ByteBuffer) : Prop :=
  ∃ n s, announced (ahead buffer.internalBuffer) = some (n, s) ∧
    0 ≤ n.toInt ∧ n.toInt ≤ (buffer.unread.drop s).length

/-! ### Readers behind a length -/

theorem toInt_nonneg_iff {n : BitVec 32} : 0 ≤ n.toInt ↔ n.toNat < 2 ^ 31 := by
  rw [BitVec.toInt_eq_toNat_cond]
  split <;> omega

theorem toInt_eq_toNat {n : BitVec 32} (h : n.toNat < 2 ^ 31) : n.toInt = n.toNat := by
  rw [BitVec.toInt_eq_toNat_cond, if_pos (by omega)]

/-- A negative length becomes a size that no vector can have. -/
theorem maxSize_lt_toSize {n : BitVec 32} (h : 2 ^ 31 ≤ n.toNat) : maxSize < toSize n := by
  have hmsb : n.msb = true := BitVec.msb_eq_true_iff_two_mul_ge.mpr (by omega)
  have hlt := n.isLt
  have hmax : maxSize < 2 ^ 64 - 2 ^ 32 := by decide
  rw [toSize, BitVec.toNat_signExtend, hmsb, if_pos rfl]
  omega

variable {buffer after : ByteBuffer} {n : BitVec 32} {memory : Bytes}

/-- A length that the memory covers. -/
theorem prefixedReaders_of_le (hread : readVarInt buffer = .ok (n, after))
    (hview : Passed b e after memory) (hn : n.toNat < 2 ^ 31) (hle : n.toNat ≤ memory.length) :
    ∀ reader ∈ prefixedReaders, ∃ rest, reader buffer = .ok (memory.take n.toNat, rest) := by
  have hsize : toSize n = n.toNat := toSize_of_lt hn
  have hlen : (memory.take n.toNat).length = n.toNat := by rw [List.length_take]; omega
  rw [← List.take_append_drop n.toNat memory] at hview
  have hbytes : ∃ rest, readBytes (toSize n) after = .ok (memory.take n.toNat, rest) := by
    have hconsumes := (readable_passed b e).readBytes (memory.take n.toNat) (by simp [maxSize]; omega)
    obtain ⟨rest, h, -⟩ := hconsumes after (memory.drop n.toNat) hview
    exact ⟨rest, by rw [hsize, ← h, hlen]⟩
  have harray : ∃ rest, readArray readUnsignedByte (toSize n) after =
      .ok (memory.take n.toNat, rest) := by
    have hconsumes := Consumes.replicate (fun c => [c]) (memory.take n.toNat)
      fun c _ => (readable_passed b e).readByte c
    rw [List.flatMap_singleton', hlen] at hconsumes
    obtain ⟨rest, h, -⟩ := hconsumes after (memory.drop n.toNat) hview
    exact ⟨rest, by rw [hsize, ← h]; rfl⟩
  intro reader hreader
  simp only [prefixedReaders, List.mem_cons, List.not_mem_nil, or_false] at hreader
  obtain rfl | rfl | rfl := hreader
  · rwa [readString, bind_of_eq_ok hread]
  · rwa [readPrefixedByteArray, bind_of_eq_ok hread]
  · rwa [readPrefixedArray, bind_of_eq_ok hread]

/-- The bulk readers throw at a negative length. -/
theorem readString_of_negative (hread : readVarInt buffer = .ok (n, after)) (hn : 2 ^ 31 ≤ n.toNat) :
    readString buffer = .error .lengthError := by
  rw [readString, bind_of_eq_ok hread, readBytes, InternalByteBuffer.read,
    if_pos (maxSize_lt_toSize hn)]
  rfl

/-- The element loop returns as many bytes as were announced, or faults. -/
theorem length_of_readPrefixedArray (hread : readVarInt buffer = .ok (n, after)) {bytes : Bytes}
    {rest : ByteBuffer} (h : readPrefixedArray readUnsignedByte buffer = .ok (bytes, rest)) :
    bytes.length = toSize n := by
  rw [readPrefixedArray, bind_of_eq_ok hread] at h
  exact length_of_replicate h

/-- Beyond the unread bytes the data is not respected. -/
theorem not_respects_of_beyond (hread : readVarInt buffer = .ok (n, after))
    (hbeyond : ¬ (0 ≤ n.toInt ∧ n.toInt ≤ after.unread.length)) : ¬ RespectsData buffer := by
  rintro ⟨n', after', hread', h⟩
  rw [hread] at hread'
  cases hread'
  rw [if_neg hbeyond] at h
  by_cases hn : n.toNat < 2 ^ 31
  · obtain ⟨bytes, rest, hbytes, hprefix⟩ := h (readPrefixedArray readUnsignedByte)
      (by simp [prefixedReaders])
    have hlen := length_of_readPrefixedArray hread hbytes
    have hle := hprefix.length_le
    rw [toSize_of_lt hn] at hlen
    refine hbeyond ⟨toInt_nonneg_iff.mpr hn, ?_⟩
    rw [toInt_eq_toNat hn]
    omega
  · obtain ⟨bytes, rest, hbytes, -⟩ := h readString (by simp [prefixedReaders])
    rw [readString_of_negative hread (by omega)] at hbytes
    cases hbytes

/-! ### Main results -/

/-- Without an announced length nothing is respected. -/
theorem respectsData_iff_of_none (hfault : readVarInt buffer = .error .undefined)
    (hnone : announced (ahead buffer.internalBuffer) = none) :
    RespectsData buffer ↔ LengthCovered buffer := by
  refine iff_of_false ?_ ?_
  · rintro ⟨n, after, hread, -⟩
    rw [hfault] at hread
    cases hread
  · rintro ⟨n, s, h, -⟩
    rw [hnone] at h
    cases h

theorem respectsData_iff_of_regular (h : Regular b) (e : Bool) :
    RespectsData ⟨b, e⟩ ↔ LengthCovered ⟨b, e⟩ := by
  cases hannounced : announced (ahead b) with
  | none =>
    exact respectsData_iff_of_none (readVarInt_of_not_announced h.toShape e hannounced) hannounced
  | some p =>
    obtain ⟨n, s⟩ := p
    obtain ⟨after, hread, hview⟩ := readVarInt_of_announced h.toShape e hannounced
    have hunread : after.unread = (ByteBuffer.mk b e).unread.drop s := by
      obtain ⟨k, hadv, hk⟩ := hview.advances
      obtain rfl : k = s := by
        have := le_of_announced hannounced
        rw [List.length_drop] at hk
        omega
      exact h.unread_advances hadv after.isBigEndian
    constructor
    · intro hrespects
      by_contra hnot
      refine not_respects_of_beyond hread (fun hcovered => hnot ⟨n, s, hannounced, ?_⟩) hrespects
      rwa [hunread] at hcovered
    · rintro ⟨n', s', hannounced', hcovered⟩
      rw [hannounced] at hannounced'
      cases hannounced'
      rw [← hunread] at hcovered
      refine ⟨n, after, hread, ?_⟩
      rw [if_pos hcovered]
      have hn := toInt_nonneg_iff.mp hcovered.1
      have hle := hcovered.2
      rw [toInt_eq_toNat hn] at hle
      -- the unread bytes are the front of the memory ahead
      obtain ⟨m, hm⟩ : ∃ m, after.unread = ((ahead b).drop s).take m := by
        rw [hunread, h.unread_eq, List.drop_take]
        exact ⟨_, rfl⟩
      have hlen := congrArg List.length hm
      rw [List.length_take] at hlen
      have htake : after.unread.take n.toNat = ((ahead b).drop s).take n.toNat := by
        rw [hm, List.take_take, Nat.min_eq_left (by omega)]
      rw [htake]
      exact prefixedReaders_of_le hread hview hn (by omega)

/-- With any content and any reader, the readers respect the data exactly when it announces
a length that the unread bytes cover. -/
theorem respectsData_iff {past : History.Past InternalByteBuffer Queue.Command}
    (h : Table.CommandRun past b) (isBigEndian : Bool) (readPtr : ℕ) :
    RespectsData ⟨b.setReader (readPtr / blockSize, readPtr % blockSize), isBigEndian⟩ ↔
      LengthCovered ⟨b.setReader (readPtr / blockSize, readPtr % blockSize), isBigEndian⟩ := by
  obtain ⟨b', hb'⟩ : ∃ b', b' = b.setReader (readPtr / blockSize, readPtr % blockSize) := ⟨_, rfl⟩
  have huniform : Blocks.Uniform blockSize b'.blocks := by
    rw [hb']
    exact (Table.shape_of_run h).uniform
  have hoff : b'.readOffset < blockSize := by
    rw [hb']
    exact Nat.mod_lt readPtr blockSize_pos
  rw [← hb']
  by_cases hend : b'.blocks.length ≤ b'.readBlock
  · refine respectsData_iff_of_none (readVarInt_of_end hend isBigEndian) ?_
    rw [Shape.ahead_eq_nil_of_end huniform hend, announced_nil]
  · obtain hregular | hdrained := Table.regular_or_drained h
    · refine respectsData_iff_of_regular ⟨⟨huniform, by omega, hoff⟩, ?_, ?_⟩ isBigEndian
      · rw [hb']
        exact hregular.writer
      · rw [hb']
        exact hregular.writeOffset_lt
    · have hnil := hdrained.blocks_eq
      rw [hb'] at hend
      simp [setReader, hnil] at hend

/-- Two bytes behind their length. -/
theorem respectsData_iff_two : ∃ past b, Table.CommandRun past b ∧
    History.actions past = [.write [2, 7, 8]] ∧
    (RespectsData ⟨b.setReader (0 / blockSize, 0 % blockSize), true⟩ ↔
      LengthCovered ⟨b.setReader (0 / blockSize, 0 % blockSize), true⟩) := by
  obtain ⟨b, hwrite, -, -⟩ := holds_new.write [2, 7, 8]
  have hrun : Table.CommandRun [] .new := .start rfl
  have hrun₁ := hrun.next (.write hwrite)
  exact ⟨_, b, hrun₁, rfl, respectsData_iff hrun₁ true 0⟩

/-- A length of five without any byte behind it. -/
theorem not_respectsData : ¬ ∀ past b, Table.CommandRun past b → ∀ isBigEndian readPtr,
    RespectsData ⟨b.setReader (readPtr / blockSize, readPtr % blockSize), isBigEndian⟩ := by
  intro h
  obtain ⟨b, hwrite, hholds, hsame⟩ := holds_new.write [5]
  have hrun : Table.CommandRun [] .new := .start rfl
  have hrespects := h _ _ (hrun.next (.write hwrite)) true 0
  have hstart : b.setReader (0 / blockSize, 0 % blockSize) = b := by
    obtain ⟨blocks, writeBlock, writeOffset, readBlock, readOffset, recycle⟩ := b
    obtain rfl : readBlock = 0 := hsame.readBlock_eq
    obtain rfl : readOffset = 0 := hsame.readOffset_eq
    rfl
  rw [hstart, respectsData_iff_of_regular hholds.regular] at hrespects
  obtain ⟨n, s, hannounced, -, hle⟩ := hrespects
  have hfive : announced ([] ++ [5] ++ zeros (blockSize - b.writeOffset)) = some (5, 1) := rfl
  rw [hholds.ahead_eq, hfive] at hannounced
  cases hannounced
  have hunread : (ByteBuffer.mk b true).unread = [5] := hholds.getBytes
  rw [hunread] at hle
  exact absurd hle (by decide)

end Zinc.Buffer
