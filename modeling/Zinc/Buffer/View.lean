import Zinc.Buffer.Codec
import Mathlib.Tactic.Ring

/-! Specifications of the readers and writers. A view is readable when taking
bytes from the buffer takes them from the view, and writable when writing bytes
appends them to it. The unread bytes and the memory ahead of the reader are
readable; the unread bytes are writable, and stay the whole content of a buffer
that nobody read from. A VarInt is read from any view that holds its end or as
many bytes as the widest VarInt has. -/

namespace Zinc.Buffer

open Throw InternalByteBuffer ByteBuffer

/-! ### Views -/

structure Readable (isBigEndian : Bool) (view : ByteBuffer → Bytes → Prop) : Prop where
  endian : ∀ {buffer bs}, view buffer bs → buffer.isBigEndian = isBigEndian
  readBytes : ∀ w : Bytes, w.length ≤ maxSize → Consumes view (readBytes w.length) w w

structure Writable (isBigEndian : Bool) (view : ByteBuffer → Bytes → Prop) : Prop where
  endian : ∀ {buffer bs}, view buffer bs → buffer.isBigEndian = isBigEndian
  writeBytes : ∀ w : Bytes, Produces view (writeBytes w) w

/-- `bs` are the unread bytes. -/
def Stored (isBigEndian : Bool) (buffer : ByteBuffer) (bs : Bytes) : Prop :=
  buffer.internalBuffer.Holds bs ∧ buffer.isBigEndian = isBigEndian

/-- `bs` are the bytes of a buffer that was only written to. -/
def Fresh (isBigEndian : Bool) (buffer : ByteBuffer) (bs : Bytes) : Prop :=
  Stored isBigEndian buffer bs ∧ buffer.internalBuffer.SameReader .new

/-- `bs` is the allocated memory from the reader on, in a buffer with a number of
written bytes that recycles no blocks. -/
structure Ahead (isBigEndian : Bool) (size : ℕ) (buffer : ByteBuffer) (bs : Bytes) : Prop where
  shape : buffer.internalBuffer.Shape
  ahead_eq : buffer.internalBuffer.ahead = bs
  endian : buffer.isBigEndian = isBigEndian
  recycle : buffer.internalBuffer.enableBlockRecycle = false
  size_eq : buffer.size = size

variable {e : Bool} {view : ByteBuffer → Bytes → Prop}

theorem readable_stored (e : Bool) : Readable e (Stored e) where
  endian h := h.2
  readBytes w hw buffer rest h := by
    obtain ⟨b, hread, hb⟩ := h.1.read (n := w.length) (by simp) hw
    rw [List.take_left, List.drop_left] at *
    exact ⟨{ buffer with internalBuffer := b }, by rw [readBytes, hread]; rfl, hb, h.2⟩

theorem readable_ahead (e : Bool) (size : ℕ) : Readable e (Ahead e size) where
  endian h := h.endian
  readBytes w hw buffer rest h := by
    obtain ⟨b, hread, hadv⟩ := h.shape.read hw
    rw [h.ahead_eq, List.take_left] at hread
    have hsize : (ByteBuffer.mk b buffer.isBigEndian).size = buffer.size := by
      simp only [ByteBuffer.size, getWriter, hadv.writeBlock_eq h.recycle, hadv.writeOffset_eq]
    refine ⟨{ buffer with internalBuffer := b }, by rw [readBytes, hread]; rfl, hadv.shape, ?_,
      h.endian, hadv.recycle_eq.trans h.recycle, hsize.trans h.size_eq⟩
    rw [hadv.ahead_eq, h.ahead_eq, List.drop_left]

theorem writable_stored (e : Bool) : Writable e (Stored e) where
  endian h := h.2
  writeBytes w buffer bs h := by
    obtain ⟨b, hwrite, hb, -⟩ := h.1.write w
    exact ⟨{ buffer with internalBuffer := b }, by rw [writeBytes, hwrite]; rfl, hb, h.2⟩

theorem writable_fresh (e : Bool) : Writable e (Fresh e) where
  endian h := h.1.2
  writeBytes w buffer bs h := by
    obtain ⟨b, hwrite, hb, hsame⟩ := h.1.1.write w
    refine ⟨{ buffer with internalBuffer := b }, by rw [writeBytes, hwrite]; rfl, ⟨hb, h.1.2⟩, ?_⟩
    exact ⟨h.2.readBlock_eq.trans hsame.readBlock_eq.symm,
      h.2.readOffset_eq.trans hsame.readOffset_eq.symm, h.2.recycle_eq.trans hsame.recycle_eq.symm⟩

theorem fresh_new : Fresh true ByteBuffer.new [] := ⟨⟨holds_new, rfl⟩, ⟨rfl, rfl, rfl⟩⟩

/-- A cleared buffer is fresh, but keeps its byte order and its recycling. -/
theorem fresh_clear (buffer : ByteBuffer) (h : buffer.internalBuffer.enableBlockRecycle = false) :
    Fresh buffer.isBigEndian buffer.clear [] :=
  ⟨⟨holds_clear _, rfl⟩, ⟨rfl, rfl, h.symm⟩⟩

theorem Fresh.getBytes {buffer : ByteBuffer} {bs : Bytes} (h : Fresh e buffer bs) :
    buffer.getBytes = bs := by
  have hbytes := h.1.1.getBytes
  rw [← h.2.readBlock_eq, ← h.2.readOffset_eq] at hbytes
  simp only [InternalByteBuffer.new, Nat.zero_mul, Nat.add_zero, List.drop_zero] at hbytes
  exact hbytes

theorem Fresh.size {buffer : ByteBuffer} {bs : Bytes} (h : Fresh e buffer bs) :
    buffer.size = bs.length := by
  have hpos := h.1.1.position
  rw [← h.2.readBlock_eq, ← h.2.readOffset_eq] at hpos
  simp only [InternalByteBuffer.new, Nat.zero_mul, Nat.zero_add] at hpos
  exact hpos

/-- The memory of a buffer with the content `bs`. -/
def memory (bs : Bytes) : Bytes := bs ++ zeros (blockSize - bs.length % blockSize)

theorem length_memory (bs : Bytes) : blockSize ≤ (memory bs).length := by
  have := Nat.mod_lt bs.length blockSize_pos
  have := Nat.mod_le bs.length blockSize
  rw [memory, List.length_append, length_zeros]
  omega

/-- The writer always has memory in front of it. -/
theorem length_lt_memory (bs : Bytes) : bs.length < (memory bs).length := by
  have := Nat.mod_lt bs.length blockSize_pos
  rw [memory, List.length_append, length_zeros]
  omega

theorem Fresh.ahead {buffer : ByteBuffer} {bs : Bytes} (h : Fresh e buffer bs) :
    Ahead e bs.length buffer (memory bs) := by
  have hsize := h.size
  have hoff : buffer.internalBuffer.writeOffset = bs.length % blockSize := by
    rw [← hsize, ByteBuffer.size, getWriter, Nat.mul_add_mod_self_right,
      Nat.mod_eq_of_lt h.1.1.writeOffset_lt]
  refine ⟨h.1.1.shape, ?_, h.1.2, h.2.recycle_eq.symm, hsize⟩
  rw [h.1.1.ahead_eq, hoff, memory]

/-- The buffer with a given content. -/
def ofBytes (bs : Bytes) : ByteBuffer :=
  match writeBytes bs .new with
  | .ok (_, buffer) => buffer
  | .error _ => .new

theorem writeBytes_new (bs : Bytes) :
    writeBytes bs .new = .ok ((), ofBytes bs) ∧ Fresh true (ofBytes bs) bs := by
  obtain ⟨buffer, hwrite, h⟩ := (writable_fresh true).writeBytes bs .new [] fresh_new
  have hof : ofBytes bs = buffer := by rw [ofBytes, hwrite]
  rw [hof]
  exact ⟨hwrite, h⟩

/-! ### Writers -/

theorem Writable.writeByte (hv : Writable e view) (c : UInt8) :
    Produces view (ByteBuffer.writeByte c) [c] := hv.writeBytes [c]

theorem Writable.writeNumeric (hv : Writable e view) {k : ℕ} (value : BitVec (8 * k)) :
    Produces view (ByteBuffer.writeNumeric value) (numericBytes e value) := by
  intro buffer bs h
  have := hv.writeBytes (numericBytes e value) buffer bs h
  simpa only [ByteBuffer.writeNumeric, hv.endian h] using this

theorem Writable.writeVarNumeric (hv : Writable e view) {k : ℕ} (value : BitVec (8 * k)) :
    Produces view (ByteBuffer.writeVarNumeric value) (varNumericBytes (varNumericMaxSize k) value) :=
  hv.writeBytes _

/-! ### Bytes and numbers -/

theorem Readable.readByte (hv : Readable e view) (c : UInt8) :
    Consumes view ByteBuffer.readByte [c] c := by
  have h := hv.readBytes [c] (by simp [maxSize])
  exact h.bind (w := []) (Consumes.pure c)

@[simp] theorem length_numericBytes (e : Bool) {k : ℕ} (value : BitVec (8 * k)) :
    (numericBytes e value).length = k := by
  unfold numericBytes
  split <;> simp

theorem numericOfBytes_numericBytes (e : Bool) {k : ℕ} (value : BitVec (8 * k)) :
    numericOfBytes e k (numericBytes e value) = value := by
  have hlt : value.toNat < 256 ^ k := by
    have := value.isLt
    rwa [Nat.pow_mul] at this
  have hrev : (if e then (numericBytes e value).reverse else numericBytes e value) =
      Endian.bytes k value.toNat := by
    cases e <;> simp [numericBytes]
  rw [numericOfBytes, hrev, Endian.value_bytes_of_lt hlt, BitVec.ofNat_toNat, BitVec.setWidth_eq]

theorem numericBytes_numericOfBytes (e : Bool) {k : ℕ} {bytes : Bytes} (h : bytes.length = k) :
    numericBytes e (numericOfBytes e k bytes) = bytes := by
  have hvalue : ∀ bs : Bytes, bs.length = k →
      Endian.bytes k (BitVec.ofNat (8 * k) (Endian.value bs)).toNat = bs := by
    intro bs hbs
    have hlt := Endian.value_lt bs
    rw [hbs, show 256 = 2 ^ 8 from rfl, ← Nat.pow_mul] at hlt
    rw [BitVec.toNat_ofNat, Nat.mod_eq_of_lt hlt, ← hbs, Endian.bytes_value]
  cases e with
  | false => exact hvalue bytes h
  | true => exact (congrArg List.reverse (hvalue bytes.reverse (by simpa using h))).trans bytes.reverse_reverse

theorem Readable.readNumeric (hv : Readable e view) {k : ℕ} (hk : k ≤ maxSize)
    (value : BitVec (8 * k)) :
    Consumes view (ByteBuffer.readNumeric k) (numericBytes e value) value := by
  intro buffer rest h
  have hlen := length_numericBytes e value
  obtain ⟨buffer', hread, h'⟩ := hv.readBytes (numericBytes e value) (by omega) buffer rest h
  rw [hlen] at hread
  refine ⟨buffer', ?_, h'⟩
  rw [ByteBuffer.readNumeric, hread]
  simp [hv.endian h', numericOfBytes_numericBytes]

/-! ### VarInts -/

/-- The high bit of a byte. -/
theorem and_highBit_eq_zero (c : UInt8) : c &&& 0x80 = 0 ↔ c.toNat < 128 := by
  have hall : ∀ n < 256, n &&& 128 = 0 ↔ n < 128 := by decide +kernel
  rw [← hall c.toNat c.toNat_lt, ← UInt8.toNat_inj]
  rfl

theorem toNat_and_lowBits (c : UInt8) : (c &&& 0x7F).toNat = c.toNat % 128 :=
  Nat.and_two_pow_sub_one_eq_mod c.toNat 7

theorem or_shiftLeft {w acc shift : ℕ} (hacc : acc < 2 ^ shift) (x : ℕ) :
    BitVec.ofNat w acc ||| BitVec.ofNat w x <<< shift = BitVec.ofNat w (acc + 2 ^ shift * x) := by
  have hor : acc + 2 ^ shift * x = acc ||| 2 ^ shift * x := by
    rw [Nat.add_comm, Nat.two_pow_add_eq_or_of_lt hacc, Nat.or_comm]
  rw [hor, BitVec.ofNat_or]
  congr 1
  apply BitVec.eq_of_toNat_eq
  rw [BitVec.toNat_shiftLeft, BitVec.toNat_ofNat, BitVec.toNat_ofNat, Nat.shiftLeft_eq,
    Nat.mod_mul_mod, Nat.mul_comm]

theorem fillSign_eq {w : ℕ} (isSigned : Bool) (x : BitVec w) : fillSign isSigned x = x := by
  unfold fillSign
  split
  next h =>
    obtain ⟨-, hmsb⟩ := h
    ext i hi
    rw [BitVec.msb_eq_getLsbD_last] at hmsb
    have hlast : w - 1 ≤ i → x[i] = true := by
      intro hle
      rw [← BitVec.getLsbD_eq_getElem, show i = w - 1 by omega, hmsb]
    by_cases hle : w - 1 ≤ i
    · simp [hlast hle]
    · simp [show i < w - 1 by omega]
  next => rfl

/-- A digit behind the value of `i` digits. -/
theorem add_digit_lt {i acc d : ℕ} (hacc : acc < 2 ^ (7 * i)) (hd : d < 128) :
    acc + 2 ^ (7 * i) * d < 2 ^ (7 * (i + 1)) := by
  have hpow : 2 ^ (7 * (i + 1)) = 2 ^ (7 * i) * 128 := by rw [Nat.mul_add, Nat.pow_add]
  have hmul := Nat.mul_le_mul_left (2 ^ (7 * i)) (show d + 1 ≤ 128 by omega)
  rw [Nat.mul_add] at hmul
  omega

/-- One round of the loop, after `i` bytes with the value `acc`. -/
theorem Readable.varLoop_cons (hv : Readable e view) (isSigned : Bool) (w n : ℕ) {i acc : ℕ}
    (hacc : acc < 2 ^ (7 * i)) {buffer : ByteBuffer} {c : UInt8} {a : Bytes}
    (h : view buffer (c :: a)) : ∃ buffer₁, view buffer₁ a ∧
      readVarNumericLoop isSigned (n + 1) (7 * i) (BitVec.ofNat w acc) buffer =
        (if c.toNat < 128 then
          .ok (BitVec.ofNat w (acc + 2 ^ (7 * i) * (c.toNat % 128)), buffer₁)
        else if w ≤ 7 * (i + 1) then .ok (0, buffer₁)
        else readVarNumericLoop isSigned n (7 * (i + 1))
          (BitVec.ofNat w (acc + 2 ^ (7 * i) * (c.toNat % 128))) buffer₁) := by
  obtain ⟨buffer₁, hread, h₁⟩ := hv.readByte c buffer a h
  have hres : BitVec.ofNat w acc ||| (c &&& 0x7F).toBitVec.setWidth w <<< (7 * i) =
      BitVec.ofNat w (acc + 2 ^ (7 * i) * (c.toNat % 128)) := by
    rw [← or_shiftLeft hacc, ← toNat_and_lowBits, ← UInt8.toNat_toBitVec, BitVec.ofNat_toNat]
  refine ⟨buffer₁, h₁, ?_⟩
  rw [readVarNumericLoop, bind_of_eq_ok hread]
  simp only [hres, and_highBit_eq_zero, fillSign_eq, Nat.mul_add, Nat.mul_one]
  split
  · rfl
  · split <;> rfl

/-- The loop after `i` bytes with the value `acc`. -/
theorem Readable.varLoop (hv : Readable e view) (isSigned : Bool) {w n i acc : ℕ}
    (hw : w % 7 ≠ 0) (hn : i + n = w / 7 + 1) (hacc : acc < 2 ^ (7 * i)) {buffer : ByteBuffer}
    {a : Bytes} (h : view buffer a) :
    (∀ m, Base128.decode n a = some m → ∃ buffer',
      readVarNumericLoop isSigned n (7 * i) (BitVec.ofNat w acc) buffer =
        .ok (BitVec.ofNat w (acc + 2 ^ (7 * i) * m), buffer') ∧
      view buffer' (a.drop (Base128.span n a))) ∧
    (Base128.decode n a = none → n ≤ a.length → ∃ buffer',
      readVarNumericLoop isSigned n (7 * i) (BitVec.ofNat w acc) buffer = .ok (0, buffer') ∧
      view buffer' (a.drop n)) := by
  induction n generalizing i acc buffer a with
  | zero => exact ⟨by simp [Base128.decode], fun _ _ => ⟨buffer, rfl, h⟩⟩
  | succ n ih =>
    cases a with
    | nil => exact ⟨by simp [Base128.decode], by simp⟩
    | cons c a =>
      obtain ⟨buffer₁, h₁, hloop⟩ := hv.varLoop_cons isSigned w n hacc h
      rw [hloop, Base128.decode, Base128.span]
      by_cases hc : c.toNat < 128
      · simp only [if_pos hc, Option.some.injEq]
        refine ⟨?_, by simp⟩
        rintro m rfl
        exact ⟨buffer₁, by rw [Nat.mod_eq_of_lt hc], h₁⟩
      · simp only [if_neg hc]
        by_cases hlast : w ≤ 7 * (i + 1)
        · obtain rfl : n = 0 := by omega
          rw [if_pos hlast]
          exact ⟨by simp [Base128.decode], fun _ _ => ⟨buffer₁, rfl, h₁⟩⟩
        · have hacc' := add_digit_lt hacc (Nat.mod_lt c.toNat (show 0 < 128 by decide))
          obtain ⟨hsome, hnone⟩ := ih (i := i + 1) (by omega) hacc' h₁
          rw [if_neg hlast]
          constructor
          · intro m hm
            obtain ⟨m', hm', rfl⟩ := Option.map_eq_some_iff.mp hm
            obtain ⟨buffer₂, h₂, hv₂⟩ := hsome m' hm'
            refine ⟨buffer₂, ?_, hv₂⟩
            rw [h₂]
            congr 3
            ring
          · intro hdec hlen
            exact hnone (by simpa using hdec) (by simpa using hlen)

/-- A VarInt that ends within its widest length. -/
theorem Readable.readVarNumeric (hv : Readable e view) (isSigned : Bool) {k : ℕ}
    (hk : k * 8 % 7 ≠ 0) {buffer : ByteBuffer} {a : Bytes} (h : view buffer a) {m : ℕ}
    (hm : Base128.decode (varNumericMaxSize k) a = some m) :
    ∃ buffer', ByteBuffer.readVarNumeric k isSigned buffer = .ok (BitVec.ofNat (8 * k) m, buffer') ∧
      view buffer' (a.drop (Base128.span (varNumericMaxSize k) a)) := by
  have hloop := (hv.varLoop isSigned (w := 8 * k) (n := varNumericMaxSize k) (i := 0) (by omega)
    (by simp [varNumericMaxSize, Nat.mul_comm]) (show 0 < 2 ^ (7 * 0) by simp) h).1 m hm
  simp only [Nat.mul_zero, Nat.pow_zero, Nat.one_mul, Nat.zero_add] at hloop
  exact hloop

/-- A VarInt that does not: all its bytes are consumed and the value is 0. -/
theorem Readable.readVarNumeric_overflow (hv : Readable e view) (isSigned : Bool) {k : ℕ}
    (hk : k * 8 % 7 ≠ 0) {buffer : ByteBuffer} {a : Bytes} (h : view buffer a)
    (hm : Base128.decode (varNumericMaxSize k) a = none) (ha : varNumericMaxSize k ≤ a.length) :
    ∃ buffer', ByteBuffer.readVarNumeric k isSigned buffer = .ok (0, buffer') ∧
      view buffer' (a.drop (varNumericMaxSize k)) :=
  (hv.varLoop isSigned (w := 8 * k) (n := varNumericMaxSize k) (i := 0) (by omega)
    (by simp [varNumericMaxSize, Nat.mul_comm]) (show 0 < 2 ^ (7 * 0) by simp) h).2 hm ha

theorem toNat_shiftRight_seven {w : ℕ} (uv : BitVec w) : (uv >>> 7).toNat = uv.toNat / 128 := by
  rw [BitVec.toNat_ushiftRight, Nat.shiftRight_eq_div_pow]

theorem shiftRight_seven_eq_zero {w : ℕ} (uv : BitVec w) : uv >>> 7 = 0 ↔ uv.toNat < 128 := by
  rw [← BitVec.toNat_inj, toNat_shiftRight_seven]
  simp

theorem varNumericLength_eq {w n : ℕ} (uv : BitVec w) (hn : 0 < n) (huv : uv.toNat < 128 ^ n) :
    varNumericLength n uv = Base128.size uv.toNat := by
  induction n generalizing uv with
  | zero => omega
  | succ n ih =>
    rw [varNumericLength]
    split
    next h => rw [Base128.size_of_lt ((shiftRight_seven_eq_zero uv).mp h)]
    next h =>
      have hle : 128 ≤ uv.toNat := by
        rw [shiftRight_seven_eq_zero] at h
        omega
      have hpos : 0 < n := by
        by_contra hz
        obtain rfl : n = 0 := by omega
        omega
      have hdiv := Base128.div_lt_pow huv
      rw [← toNat_shiftRight_seven] at hdiv
      rw [ih _ hpos hdiv, toNat_shiftRight_seven, Base128.size_of_le hle]

theorem toNat_varByte {w : ℕ} (hw : 7 ≤ w) (uv : BitVec w) :
    (UInt8.ofBitVec ((uv &&& 0x7F).setWidth 8)).toNat = uv.toNat % 128 := by
  have hpow : 127 < 2 ^ w := lt_of_lt_of_le (by decide) (Nat.pow_le_pow_right (by decide) hw)
  have hmask : (0x7F : BitVec w).toNat = 127 := by
    change (BitVec.ofNat w 127).toNat = 127
    rw [BitVec.toNat_ofNat, Nat.mod_eq_of_lt hpow]
  rw [UInt8.toNat_ofBitVec, BitVec.toNat_setWidth, BitVec.toNat_and, hmask,
    Nat.and_two_pow_sub_one_eq_mod uv.toNat 7]
  omega

theorem varNumericBytes_eq {w n : ℕ} (hw : 7 ≤ w) (uv : BitVec w) :
    varNumericBytes n uv = Base128.encode n uv.toNat := by
  induction n generalizing uv with
  | zero => rfl
  | succ n ih =>
    have hbyte := toNat_varByte hw uv
    have hor : (UInt8.ofBitVec ((uv &&& 0x7F).setWidth 8) ||| 0x80).toNat = uv.toNat % 128 + 128 := by
      have h := Nat.two_pow_add_eq_or_of_lt (show uv.toNat % 128 < 2 ^ 7 by omega) 1
      rw [UInt8.toNat_or, hbyte, Nat.or_comm, Nat.add_comm]
      exact h.symm
    rw [varNumericBytes]
    split
    next h =>
      have hlt := (shiftRight_seven_eq_zero uv).mp h
      rw [Base128.encode_succ_of_lt hlt]
      congr 1
      rw [← UInt8.toNat_inj, toNat_and_lowBits, hor, UInt8.toNat_ofNat']
      omega
    next h =>
      have hle : 128 ≤ uv.toNat := by
        rw [shiftRight_seven_eq_zero] at h
        omega
      rw [Base128.encode_succ_of_le hle, ih, toNat_shiftRight_seven]
      congr 1
      rw [← UInt8.toNat_inj, hor, UInt8.toNat_ofNat']
      omega

theorem toNat_lt_maxSize {k : ℕ} (value : BitVec (8 * k)) :
    value.toNat < 128 ^ varNumericMaxSize k := by
  have h := value.isLt
  have hpow : (128 : ℕ) ^ varNumericMaxSize k = 2 ^ (7 * varNumericMaxSize k) := by
    rw [Nat.pow_mul]
  rw [hpow]
  refine lt_of_lt_of_le h (Nat.pow_le_pow_right (by decide) ?_)
  unfold varNumericMaxSize
  omega

theorem getVarNumericLength_eq {k : ℕ} (value : BitVec (8 * k)) :
    getVarNumericLength value = Base128.size value.toNat :=
  varNumericLength_eq value (Nat.succ_pos _) (toNat_lt_maxSize value)

theorem toSize_of_lt {value : BitVec 32} (h : value.toNat < 2 ^ 31) : toSize value = value.toNat := by
  have hmsb : value.msb = false := BitVec.msb_eq_false_iff_two_mul_lt.mpr (by omega)
  rw [toSize, BitVec.toNat_signExtend, hmsb]
  simp [BitVec.toNat_setWidth]
  omega

theorem toSize_ofNat {n : ℕ} (h : n < 2 ^ 31) : toSize (BitVec.ofNat 32 n) = n := by
  have hn : (BitVec.ofNat 32 n).toNat = n := by
    rw [BitVec.toNat_ofNat, Nat.mod_eq_of_lt (by omega)]
  rw [toSize_of_lt (by omega), hn]

/-- A value that was written is read back. -/
theorem Readable.readVarNumeric_varNumericBytes (hv : Readable e view) (isSigned : Bool) {k : ℕ}
    (hk : k * 8 % 7 ≠ 0) (value : BitVec (8 * k)) :
    Consumes view (ByteBuffer.readVarNumeric k isSigned)
      (varNumericBytes (varNumericMaxSize k) value) value := by
  intro buffer rest h
  have hlt := toNat_lt_maxSize value
  have hpos : 0 < varNumericMaxSize k := Nat.succ_pos _
  rw [varNumericBytes_eq (by omega)] at h
  obtain ⟨hdec, hspan⟩ := Base128.decode_encode_append hpos hlt rest
  obtain ⟨buffer', hread, h'⟩ := hv.readVarNumeric isSigned hk h hdec
  rw [hspan, ← Base128.length_encode hpos hlt, List.drop_left] at h'
  exact ⟨buffer', by rw [hread, BitVec.ofNat_toNat, BitVec.setWidth_eq], h'⟩

/-! ### Bytes one by one -/

/-- Writing a list of bytes one by one. -/
theorem writeArray_new (bs : Bytes) : ∃ buffer,
    writeArray bs writeUnsignedByte .new = .ok ((), buffer) ∧ Fresh true buffer bs := by
  have hall := Produces.forEach (fun c => [c]) bs fun c _ => (writable_fresh true).writeByte c
  rw [List.flatMap_singleton'] at hall
  obtain ⟨buffer, hwrite, h⟩ := hall .new [] fresh_new
  exact ⟨buffer, hwrite, h⟩

/-- The content of a buffer that was only written to, read byte by byte. -/
theorem readArray_fresh {buffer : ByteBuffer} {bs : Bytes} (h : Fresh true buffer bs) :
    ∃ buffer', readArray readUnsignedByte buffer.size buffer = .ok (bs, buffer') := by
  have hall := Consumes.replicate (fun c => [c]) bs fun c _ => (readable_stored true).readByte c
  rw [List.flatMap_singleton', ← h.size] at hall
  rcases hall buffer [] (by rw [List.append_nil]; exact h.1) with ⟨buffer', hread, -⟩
  exact ⟨buffer', hread⟩

end Zinc.Buffer
