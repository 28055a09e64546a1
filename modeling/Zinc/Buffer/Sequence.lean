import Zinc.Buffer.View

/-! Sequences of values of different kinds. Each kind of value has a writer and a
reader; what the writers of a list of values leave in a fresh buffer, the readers
of their kinds take out again. Where the values fall relative to the blocks of
the buffer plays no role, since writers and readers are specified on views. -/

namespace Zinc.Buffer

open Throw ByteBuffer

/-- The kinds of values, by the writer and the reader that belong together. A
number of `k` bytes is an integer or a float of that width. -/
inductive Kind where
  | byte
  | unsignedByte
  | numeric (k : ℕ)
  | varNumeric (k : ℕ) (isSigned : Bool)
  | zigZagVarNumeric (k : ℕ)
  | string
  | prefixedByteArray
  | uuid

namespace Kind

abbrev Carrier : Kind → Type
  | byte | unsignedByte => UInt8
  | numeric k | varNumeric k _ | zigZagVarNumeric k => BitVec (8 * k)
  | string | prefixedByteArray => Bytes
  | uuid => UUID

def write : (kind : Kind) → kind.Carrier → Action Unit
  | byte, c => writeByte c
  | unsignedByte, c => writeUnsignedByte c
  | numeric _, value => writeNumeric value
  | varNumeric _ _, value => writeVarNumeric value
  | zigZagVarNumeric _, value => writeZigZagVarNumeric value
  | string, value => writeString value
  | prefixedByteArray, bytes => writePrefixedByteArray bytes
  | uuid, value => writeUUID value

def read : (kind : Kind) → Action kind.Carrier
  | byte => readByte
  | unsignedByte => readUnsignedByte
  | numeric k => readNumeric k
  | varNumeric k isSigned => readVarNumeric k isSigned
  | zigZagVarNumeric k => readZigZagVarNumeric k
  | string => readString
  | prefixedByteArray => readPrefixedByteArray
  | uuid => readUUID

/-- The widths that exist and the sizes that an `int` can hold. -/
def Fits : (kind : Kind) → kind.Carrier → Prop
  | byte, _ | unsignedByte, _ | uuid, _ => True
  | numeric k, _ => k = 2 ∨ k = 4 ∨ k = 8
  | varNumeric k _, _ | zigZagVarNumeric k, _ => k = 4 ∨ k = 8
  | string, bytes | prefixedByteArray, bytes => bytes.length < 2 ^ 31

/-- The bytes of a value in a buffer with a byte order. -/
def bytes (isBigEndian : Bool) : (kind : Kind) → kind.Carrier → Bytes
  | byte, c | unsignedByte, c => [c]
  | numeric _, value => numericBytes isBigEndian value
  | varNumeric k _, value => varNumericBytes (varNumericMaxSize k) value
  | zigZagVarNumeric k, value => varNumericBytes (varNumericMaxSize k) (zigZag value)
  | string, bytes | prefixedByteArray, bytes =>
    varNumericBytes (varNumericMaxSize 4) (toInt bytes.length) ++ bytes
  | uuid, value => value.1

end Kind

/-- A value with its kind. -/
abbrev Value := Σ kind : Kind, kind.Carrier

def writeValues (values : List Value) : Action Unit :=
  Throw.forEach (fun value => value.1.write value.2) values

def readValues : List Kind → Action (List Value)
  | [] => pure []
  | kind :: kinds => do
    let value ← kind.read
    let values ← readValues kinds
    pure (⟨kind, value⟩ :: values)

/-! ### Single values -/

variable {e : Bool} {view : ByteBuffer → Bytes → Prop}

theorem Writable.writeVarBytes (hv : Writable e view) (bytes : Bytes) :
    Produces view (do writeVarInt (toInt bytes.length); ByteBuffer.writeBytes bytes)
      (varNumericBytes (varNumericMaxSize 4) (toInt bytes.length) ++ bytes) :=
  (hv.writeVarNumeric (k := 4) _).bind (hv.writeBytes bytes)

theorem Writable.writeValue (hv : Writable e view) : (kind : Kind) → (value : kind.Carrier) →
    Produces view (kind.write value) (kind.bytes e value)
  | .byte, c | .unsignedByte, c => hv.writeByte c
  | .numeric _, value => hv.writeNumeric value
  | .varNumeric _ _, value => hv.writeVarNumeric value
  | .zigZagVarNumeric _, value => hv.writeVarNumeric (zigZag value)
  | .string, bytes | .prefixedByteArray, bytes => hv.writeVarBytes bytes
  | .uuid, value => by
    have h := Produces.forEach (fun c => [c]) value.1 fun c _ => hv.writeByte c
    rwa [List.flatMap_singleton'] at h

theorem Readable.readVarBytes (hv : Readable e view) {bytes : Bytes} (h : bytes.length < 2 ^ 31) :
    Consumes view (do let length ← readVarInt; ByteBuffer.readBytes (toSize length))
      (varNumericBytes (varNumericMaxSize 4) (toInt bytes.length) ++ bytes) bytes := by
  apply (hv.readVarNumeric_varNumericBytes true (k := 4) (by decide) _).bind
  rw [show toSize (toInt bytes.length) = bytes.length from toSize_ofNat h]
  exact hv.readBytes bytes (le_maxSize (by omega))

theorem getElem_last {w : ℕ} (value : BitVec w) {i : ℕ} (hi : i < w) (hlast : ¬ 1 + i < w) :
    value[i] = value.msb := by
  rw [BitVec.msb_eq_getLsbD_last, ← BitVec.getLsbD_eq_getElem, show w - 1 = i by omega]

/-- The sign that zigzag moves to the lowest bit. -/
theorem sshiftRight_last {w : ℕ} (value : BitVec w) :
    value.sshiftRight (w - 1) = if value.msb then BitVec.allOnes w else 0 := by
  ext i hi
  rw [BitVec.getElem_sshiftRight]
  cases hmsb : value.msb with
  | true =>
    rw [if_pos rfl, BitVec.getElem_allOnes]
    split
    · rw [getElem_last value _ (by omega), hmsb]
    · rfl
  | false =>
    rw [if_neg Bool.false_ne_true]
    split
    · rw [getElem_last value _ (by omega), hmsb]
      simp
    · simp

/-- The bits above the lowest one, with the sign undone. -/
theorem xor_shiftRight_one {w : ℕ} {value sign : BitVec w}
    (hsign : ∀ i, (hi : i < w) → sign[i] = value.msb) :
    ((value <<< 1 ^^^ sign) >>> 1) ^^^ sign = value := by
  ext i hi
  simp only [BitVec.getElem_xor, BitVec.getElem_ushiftRight, BitVec.getLsbD_xor,
    BitVec.getLsbD_shiftLeft]
  rw [hsign i hi]
  by_cases hlast : 1 + i < w
  · rw [BitVec.getLsbD_eq_getElem hlast, hsign _ hlast]
    simp [hlast, BitVec.getLsbD_eq_getElem hi]
  · rw [BitVec.getLsbD_of_ge sign _ (Nat.le_of_not_lt hlast)]
    simp [hlast, getElem_last value hi hlast]

theorem zigZag_inv {w : ℕ} (value : BitVec w) :
    (zigZag value >>> 1) ^^^ (-(zigZag value &&& 1)) = value := by
  unfold zigZag
  rw [sshiftRight_last]
  cases hmsb : value.msb with
  | false =>
    have hlow : (value <<< 1 ^^^ 0) &&& 1 = 0 := by
      ext i hi
      simp
      omega
    have hneg : (-0 : BitVec w) = 0 := BitVec.neg_zero w
    rw [if_neg Bool.false_ne_true, hlow, hneg]
    exact xor_shiftRight_one fun i hi => by simp [hmsb]
  | true =>
    have hlow : (value <<< 1 ^^^ BitVec.allOnes w) &&& 1 = 1 := by
      ext i hi
      simp
      omega
    have hneg : (-1 : BitVec w) = BitVec.allOnes w := BitVec.neg_one_eq_allOnes
    rw [if_pos rfl, hlow, hneg]
    exact xor_shiftRight_one fun i hi => by simp [hmsb]

theorem Readable.readValue (hv : Readable e view) : (kind : Kind) → (value : kind.Carrier) →
    kind.Fits value → Consumes view kind.read (kind.bytes e value) value
  | .byte, c, _ | .unsignedByte, c, _ => hv.readByte c
  | .numeric k, value, h => hv.readNumeric (by
      have hk : k = 2 ∨ k = 4 ∨ k = 8 := h
      unfold maxSize
      omega) value
  | .varNumeric k isSigned, value, h => hv.readVarNumeric_varNumericBytes isSigned (by
      rcases h with rfl | rfl <;> decide) value
  | .zigZagVarNumeric k, value, h => by
    have hk : k * 8 % 7 ≠ 0 := by rcases h with rfl | rfl <;> decide
    have hread := (hv.readVarNumeric_varNumericBytes false hk (zigZag value)).bind_pure
      fun uv : BitVec (8 * k) => (uv >>> 1) ^^^ (-(uv &&& 1))
    rwa [zigZag_inv] at hread
  | .string, bytes, h | .prefixedByteArray, bytes, h => hv.readVarBytes h
  | .uuid, value, _ => by
    have hread := hv.readBytes value.1 (by rw [value.2]; unfold maxSize; omega)
    rw [value.2] at hread
    intro buffer rest h
    rcases hread buffer rest h with ⟨buffer', hbytes, hrest⟩
    refine ⟨buffer', ?_, hrest⟩
    change readUUID buffer = _
    rw [readUUID, bind_of_eq_ok hbytes, dif_pos value.2]
    rfl

/-! ### Sequences -/

/-- The bytes of a sequence. -/
def valuesBytes (isBigEndian : Bool) (values : List Value) : Bytes :=
  values.flatMap fun value => value.1.bytes isBigEndian value.2

theorem Writable.writeValues (hv : Writable e view) (values : List Value) :
    Produces view (Buffer.writeValues values) (valuesBytes e values) :=
  Produces.forEach _ values fun value _ => hv.writeValue value.1 value.2

theorem Readable.readValues (hv : Readable e view) (values : List Value)
    (h : ∀ value ∈ values, value.1.Fits value.2) :
    Consumes view (Buffer.readValues (values.map Sigma.fst)) (valuesBytes e values) values := by
  induction values with
  | nil => exact Consumes.pure []
  | cons value values ih =>
    have hrest := ih fun v hv => h v (List.mem_cons_of_mem value hv)
    apply (hv.readValue value.1 value.2 (h value List.mem_cons_self)).bind
    exact hrest.bind_pure (value :: ·)

/-- The cursors meet when nothing is left to read. -/
theorem InternalByteBuffer.Holds.getReader_eq {b : InternalByteBuffer} (h : b.Holds []) :
    b.getReader = b.getWriter := by
  have hpos := h.position
  have hread := h.shape.readOffset_lt
  have hwrite := h.writeOffset_lt
  rw [List.length_nil, Nat.add_zero] at hpos
  unfold blockSize at *
  exact Prod.ext (by change b.readBlock = b.writeBlock; omega)
    (by change b.readOffset = b.writeOffset; omega)

/-- What is written to a fresh buffer is read back, up to the writer. -/
theorem readValues_writeValues (isBigEndian : Bool) (values : List Value)
    (h : ∀ value ∈ values, value.1.Fits value.2) :
    ∃ written read, writeValues values ⟨.new, isBigEndian⟩ = .ok ((), written) ∧
      readValues (values.map Sigma.fst) written = .ok (values, read) ∧
      read.internalBuffer.getReader = read.internalBuffer.getWriter := by
  have hnew : Stored isBigEndian ⟨.new, isBigEndian⟩ [] := ⟨InternalByteBuffer.holds_new, rfl⟩
  rcases (writable_stored isBigEndian).writeValues values _ [] hnew with ⟨written, hwrite, hwritten⟩
  rcases (readable_stored isBigEndian).readValues values h written [] (by simpa using hwritten) with
    ⟨read, hread, hstored⟩
  exact ⟨written, read, hwrite, hread, hstored.1.getReader_eq⟩

theorem readValues_writeValues_sample : ∃ written read,
    writeValues [⟨.varNumeric 4 true, -1⟩, ⟨.string, [72, 105]⟩, ⟨.numeric 2, 255⟩] ⟨.new, false⟩ =
      .ok ((), written) ∧
    readValues [.varNumeric 4 true, .string, .numeric 2] written =
      .ok ([⟨.varNumeric 4 true, -1⟩, ⟨.string, [72, 105]⟩, ⟨.numeric 2, 255⟩], read) ∧
    read.internalBuffer.getReader = read.internalBuffer.getWriter :=
  readValues_writeValues false [⟨.varNumeric 4 true, -1⟩, ⟨.string, [72, 105]⟩, ⟨.numeric 2, 255⟩]
    (by simp [Kind.Fits])

end Zinc.Buffer
