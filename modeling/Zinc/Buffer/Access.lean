import Zinc.Buffer.Table
import Zinc.Buffer.View

/-! When the primitive readers index an empty result. A read of one byte is empty
exactly when no allocated memory is left ahead of the reader, whether or not the
memory was ever written. So a byte cannot be read at the end of the last block,
and a VarInt cannot be read when the memory ahead announces another byte with each
of its own and ends before the widest VarInt does. -/

namespace Zinc.Buffer

open Throw InternalByteBuffer ByteBuffer

/-! ### The end of the memory -/

/-- Without memory ahead, a byte is read from an empty result. -/
def Ends (view : ByteBuffer → Bytes → Prop) : Prop :=
  ∀ {buffer}, view buffer [] → readByte buffer = .error .undefined

variable {e : Bool} {view : ByteBuffer → Bytes → Prop}

/-- The loop of a VarInt that the end of the memory cuts off. -/
theorem Readable.varLoop_end (hv : Readable e view) (hend : Ends view) (isSigned : Bool) {w n : ℕ}
    (shift : ℕ) (result : BitVec w) (hw : w ≤ shift + 7 * n) {buffer : ByteBuffer} {a : Bytes}
    (h : view buffer a) (hmore : ∀ c ∈ a, 128 ≤ c.toNat) (ha : shift + 7 * a.length < w) :
    readVarNumericLoop isSigned n shift result buffer = .error .undefined := by
  induction n generalizing shift result buffer a with
  | zero => omega
  | succ n ih =>
    cases a with
    | nil => rw [readVarNumericLoop, bind_apply, hend h, error_bind]
    | cons c a =>
      obtain ⟨buffer₁, hread, h₁⟩ := hv.readByte c buffer a h
      have hc := hmore c List.mem_cons_self
      rw [List.length_cons] at ha
      rw [readVarNumericLoop, bind_of_eq_ok hread]
      simp only [and_highBit_eq_zero, if_neg (show ¬ c.toNat < 128 by omega),
        if_neg (show ¬ w ≤ shift + 7 by omega)]
      exact ih _ _ (by omega) h₁ (fun d hd => hmore d (List.mem_cons_of_mem c hd)) (by omega)

/-- A VarInt is undefined exactly when the memory ends before it. -/
theorem Readable.readVarNumeric_undefined_iff (hv : Readable e view) (hend : Ends view)
    (isSigned : Bool) {k : ℕ} (hk : k * 8 % 7 ≠ 0) {buffer : ByteBuffer} {a : Bytes}
    (h : view buffer a) :
    ByteBuffer.readVarNumeric k isSigned buffer = .error .undefined ↔
      a.length < varNumericMaxSize k ∧ ∀ c ∈ a, 128 ≤ c.toNat := by
  constructor
  · intro hundefined
    cases hdec : Base128.decode (varNumericMaxSize k) a with
    | some m =>
      obtain ⟨buffer', hread, -⟩ := hv.readVarNumeric isSigned hk h hdec
      rw [hread] at hundefined
      cases hundefined
    | none =>
      have hlen : a.length < varNumericMaxSize k := by
        by_contra hlong
        obtain ⟨buffer', hread, -⟩ := hv.readVarNumeric_overflow isSigned hk h hdec (by omega)
        rw [hread] at hundefined
        cases hundefined
      have hmore := Base128.decode_eq_none_iff.mp hdec
      rw [List.take_of_length_le hlen.le] at hmore
      exact ⟨hlen, hmore⟩
  · rintro ⟨hlen, hmore⟩
    have hsize : varNumericMaxSize k = k * 8 / 7 + 1 := rfl
    exact hv.varLoop_end hend isSigned 0 0 (by omega) h hmore (by omega)

/-! ### Memory ahead of a reader -/

namespace InternalByteBuffer

/-- The memory ahead is used up exactly at the end of the last block. -/
theorem Shape.ahead_eq_nil_iff {b : InternalByteBuffer} (hb : Shape b) :
    ahead b = [] ↔ b.readBlock = b.blocks.length := by
  have hlen := hb.length_ahead
  have hoff := hb.readOffset_lt
  have hle := hb.readBlock_le
  rw [← List.length_eq_zero_iff]
  constructor
  · intro hnil
    by_contra hne
    have hmul : (b.readBlock + 1) * blockSize ≤ b.blocks.length * blockSize :=
      Nat.mul_le_mul_right blockSize (by omega)
    rw [Nat.succ_mul] at hmul
    omega
  · intro hend
    rw [hend] at hlen
    omega

theorem Shape.ahead_eq_nil_of_end {b : InternalByteBuffer}
    (hblocks : Blocks.Uniform blockSize b.blocks) (hend : b.blocks.length ≤ b.readBlock) :
    ahead b = [] := by
  have hmul := Nat.mul_le_mul_right blockSize hend
  rw [ahead, List.drop_eq_nil_iff, hblocks.length_flatten]
  omega

end InternalByteBuffer

/-- Behind the end of the memory the distance does not matter. -/
theorem InternalByteBuffer.Advances.min {b b' : InternalByteBuffer} {n : ℕ} (h : Advances b b' n) :
    Advances b b' (min n (ahead b).length) := by
  refine ⟨h.shape, ?_, h.dropped, h.writeOffset_eq, h.recycle_eq, h.writeBlock_eq⟩
  rw [h.ahead_eq]
  obtain hle | hle := Nat.le_total n (ahead b).length
  · rw [Nat.min_eq_left hle]
  · rw [Nat.min_eq_right hle, List.drop_length, List.drop_eq_nil_of_le hle]

/-- The buffer after its reader passed memory of `b`; `bs` is the memory left ahead. -/
structure Passed (b : InternalByteBuffer) (e : Bool) (buffer : ByteBuffer) (bs : Bytes) : Prop where
  advances : ∃ n, Advances b buffer.internalBuffer n ∧ n + bs.length = (ahead b).length
  frame : ReadFrame b buffer.internalBuffer
  ahead_eq : ahead buffer.internalBuffer = bs
  endian : buffer.isBigEndian = e

theorem passed_start {b : InternalByteBuffer} (hb : Shape b) (e : Bool) :
    Passed b e ⟨b, e⟩ (ahead b) :=
  ⟨⟨0, Advances.zero hb, Nat.zero_add _⟩, .refl b, rfl, rfl⟩

theorem Passed.shape {b : InternalByteBuffer} {buffer : ByteBuffer} {bs : Bytes}
    (h : Passed b e buffer bs) : Shape buffer.internalBuffer := by
  obtain ⟨n, hadv, -⟩ := h.advances
  exact hadv.shape

/-- A read returns what is left of the memory, if it asks for more. -/
theorem Passed.readBytes {b : InternalByteBuffer} {buffer : ByteBuffer} {bs : Bytes}
    (h : Passed b e buffer bs) {n : ℕ} (hn : n ≤ maxSize) :
    ∃ buffer', readBytes n buffer = .ok (bs.take n, buffer') ∧ Passed b e buffer' (bs.drop n) := by
  obtain ⟨b', hread, hadv⟩ := h.shape.read hn
  obtain ⟨m, hm, hlen⟩ := h.advances
  have hmin := hadv.min
  rw [h.ahead_eq] at hread hmin
  refine ⟨⟨b', buffer.isBigEndian⟩, by rw [ByteBuffer.readBytes, hread]; rfl,
    ⟨⟨m + min n bs.length, hm.trans hmin, ?_⟩, h.frame.trans (read_frame hread), ?_, h.endian⟩⟩
  · rw [List.length_drop]
    omega
  · rw [hadv.ahead_eq, h.ahead_eq]

theorem readable_passed (b : InternalByteBuffer) (e : Bool) : Readable e (Passed b e) where
  endian h := h.endian
  readBytes w hw buffer rest h := by
    obtain ⟨buffer', hread, h'⟩ := h.readBytes hw
    rw [List.take_left] at hread
    rw [List.drop_left] at h'
    exact ⟨buffer', hread, h'⟩

theorem ends_passed (b : InternalByteBuffer) (e : Bool) : Ends (Passed b e) := by
  intro buffer h
  obtain ⟨buffer', hread, -⟩ := h.readBytes (n := 1) (by decide)
  rw [readByte, bind_of_eq_ok hread]
  rfl

/-- An array of bytes is taken from the memory ahead, which has as many. -/
theorem Passed.of_readArray {b : InternalByteBuffer} {buffer buffer' : ByteBuffer} {bs as : Bytes}
    (h : Passed b e buffer bs) {n : ℕ}
    (hread : readArray readUnsignedByte n buffer = .ok (as, buffer')) :
    n ≤ bs.length ∧ as = bs.take n ∧ Passed b e buffer' (bs.drop n) := by
  induction n generalizing buffer bs as with
  | zero =>
    cases hread
    exact ⟨Nat.zero_le _, rfl, h⟩
  | succ n ih =>
    obtain ⟨⟨a, buffer₁⟩, hbyte, hrest⟩ := bind_eq_ok.mp hread
    obtain ⟨⟨as', buffer₂⟩, hrest, hpure⟩ := bind_eq_ok.mp hrest
    cases hpure
    cases bs with
    | nil =>
      have hfault : readUnsignedByte buffer = .error .undefined := ends_passed b e h
      rw [hfault] at hbyte
      cases hbyte
    | cons c bs =>
      obtain ⟨buffer₃, hbyte', h'⟩ := (readable_passed b e).readByte c buffer bs h
      have hsame : readUnsignedByte buffer = .ok (c, buffer₃) := hbyte'
      rw [hsame] at hbyte
      cases hbyte
      obtain ⟨hle, rfl, hpassed⟩ := ih h' hrest
      exact ⟨Nat.succ_le_succ hle, rfl, hpassed⟩

theorem Fresh.passed {buffer : ByteBuffer} {bs : Bytes} (h : Fresh e buffer bs) :
    Passed buffer.internalBuffer e buffer (memory bs) := by
  have hahead := h.ahead.ahead_eq
  exact ⟨⟨0, Advances.zero h.1.1.shape, by rw [hahead, Nat.zero_add]⟩, .refl _, hahead, h.1.2⟩

/-- The reader of a buffer that was only written to stands behind the memory it passed. -/
theorem Fresh.pointer_of_passed {buffer buffer' : ByteBuffer} {bs rest : Bytes}
    (h : Fresh e buffer bs) (hpassed : Passed buffer.internalBuffer e buffer' rest) :
    (memory bs).length ≤ buffer'.getReaderPointer + rest.length ∧
      (rest ≠ [] → buffer'.getReaderPointer + rest.length = (memory bs).length) := by
  have hstart := h.1.1.shape.length_ahead
  have hlen := hpassed.shape.length_ahead
  have hpointer : buffer'.getReaderPointer = buffer'.internalBuffer.readBlock * blockSize +
      buffer'.internalBuffer.readOffset := rfl
  rw [h.ahead.ahead_eq, ← h.2.readBlock_eq, ← h.2.readOffset_eq] at hstart
  rw [hpassed.ahead_eq, hpassed.frame.blocks_eq h.2.recycle_eq.symm] at hlen
  simp only [InternalByteBuffer.new, Nat.zero_mul, Nat.add_zero] at hstart
  refine ⟨by omega, fun hne => ?_⟩
  have hpos := List.length_pos_of_ne_nil hne
  omega

variable {b : InternalByteBuffer}

theorem readByte_undefined_iff (hb : Shape b) (e : Bool) :
    readByte ⟨b, e⟩ = .error .undefined ↔ b.readBlock = b.blocks.length := by
  have h := passed_start hb e
  rw [← hb.ahead_eq_nil_iff]
  constructor
  · intro hundefined
    cases hahead : ahead b with
    | nil => rfl
    | cons c rest =>
      obtain ⟨buffer', hread, -⟩ := (readable_passed b e).readByte c _ rest (hahead ▸ h)
      rw [hread] at hundefined
      cases hundefined
  · intro hnil
    exact ends_passed b e (hnil ▸ h)

theorem readVarNumeric_undefined_iff (hb : Shape b) (e isSigned : Bool) {k : ℕ}
    (hk : k * 8 % 7 ≠ 0) :
    readVarNumeric k isSigned ⟨b, e⟩ = .error .undefined ↔
      (ahead b).length < varNumericMaxSize k ∧ ∀ c ∈ ahead b, 128 ≤ c.toNat :=
  (readable_passed b e).readVarNumeric_undefined_iff (ends_passed b e) isSigned hk (passed_start hb e)

theorem readZigZagVarNumeric_undefined_iff (hb : Shape b) (e : Bool) {k : ℕ} (hk : k * 8 % 7 ≠ 0) :
    readZigZagVarNumeric k ⟨b, e⟩ = .error .undefined ↔
      (ahead b).length < varNumericMaxSize k ∧ ∀ c ∈ ahead b, 128 ≤ c.toNat := by
  rw [← readVarNumeric_undefined_iff hb e false hk, readZigZagVarNumeric, bind_apply]
  cases readVarNumeric k false ⟨b, e⟩ with
  | error f => rfl
  | ok p => exact iff_of_false (fun h => by cases h) (fun h => by cases h)

end Zinc.Buffer
