import Zinc.Base.Base128
import Zinc.Base.Endian
import Zinc.Buffer.Memory

/-! The readers and writers of `ByteBuffer`. A `char` and an `unsigned char` are
both a byte here, an integer or a float of `k` bytes is a bit vector of width
`8 * k`, and a `std::string` is its bytes. A view is readable when taking bytes
from the buffer takes them from the view, and writable when writing appends to
it; the specifications of the readers and writers are stated once for all
readable or writable views. -/

namespace Zinc.Buffer

/-- The bytes of a text. -/
def utf8 (text : String) : Bytes := text.toUTF8.data.toList

@[simp] theorem utf8_inj {a b : String} : utf8 a = utf8 b ↔ a = b := by
  unfold utf8 String.toUTF8
  rw [Array.toList_inj]
  exact ⟨fun h => String.toByteArray_inj.mp (ByteArray.ext h), fun h => by rw [h]⟩

structure Identifier where
  namespaceV : Bytes
  object : Bytes
  deriving DecidableEq

namespace Identifier

/-- `Identifier()`. -/
def new : Identifier := ⟨utf8 "minecraft", utf8 "placeholder"⟩

/-- `Identifier(const std::string&)`; without a colon the first `resize` throws. -/
def ofString (value : Bytes) : Except Fault Identifier :=
  match value.findIdx? (· = 58) with
  | none => .error .lengthError
  | some pos => .ok ⟨value.take pos, value.drop (pos + 1)⟩

def toString (identifier : Identifier) : Bytes :=
  identifier.namespaceV ++ 58 :: identifier.object

end Identifier

/-- `uuids::uuid`. -/
abbrev UUID := { bytes : Bytes // bytes.length = 16 }

/-- The default constructor of `uuids::uuid`. -/
def nilUUID : UUID := ⟨zeros 16, length_zeros 16⟩

/-- Computations on a buffer. -/
abbrev Action (α : Type) := Throw.Action ByteBuffer Fault α

namespace ByteBuffer

def fail {α : Type} (f : Fault) : Action α := fun _ => .error f

/-! ### Bytes and numbers -/

def writeBytes (bytes : Bytes) : Action Unit := fun buffer => do
  let internalBuffer ← buffer.internalBuffer.write bytes
  return ((), { buffer with internalBuffer })

def readBytes (length : ℕ) : Action Bytes := fun buffer => do
  let (bytes, internalBuffer) ← buffer.internalBuffer.read length
  return (bytes, { buffer with internalBuffer })

def writeByte (c : UInt8) : Action Unit := writeBytes [c]

/-- `readBytes[0]` of an empty result is undefined. -/
def readByte : Action UInt8 := do
  match ← readBytes 1 with
  | c :: _ => pure c
  | [] => fail .undefined

def writeUnsignedByte (c : UInt8) : Action Unit := writeByte c

def readUnsignedByte : Action UInt8 := readByte

/-- The bytes of a number in the byte order of a buffer. -/
def numericBytes (isBigEndian : Bool) {k : ℕ} (value : BitVec (8 * k)) : Bytes :=
  let bytes := Endian.bytes k value.toNat
  if isBigEndian then bytes.reverse else bytes

/-- The number with the given bytes; missing high bytes are zero. -/
def numericOfBytes (isBigEndian : Bool) (k : ℕ) (bytes : Bytes) : BitVec (8 * k) :=
  BitVec.ofNat (8 * k) (Endian.value (if isBigEndian then bytes.reverse else bytes))

/-- `writeNumeric` of a type of `k > 1` bytes. -/
def writeNumeric {k : ℕ} (value : BitVec (8 * k)) : Action Unit := fun buffer =>
  writeBytes (numericBytes buffer.isBigEndian value) buffer

/-- `readNumeric` of a type of `k > 1` bytes. -/
def readNumeric (k : ℕ) : Action (BitVec (8 * k)) := fun buffer => do
  let (bytes, buffer) ← readBytes k buffer
  return (numericOfBytes buffer.isBigEndian k bytes, buffer)

/-! ### VarInts -/

def varNumericMaxSize (k : ℕ) : ℕ := k * 8 / 7 + 1

/-- The loop of `getVarNumericLength`. -/
def varNumericLength {w : ℕ} : ℕ → BitVec w → ℕ
  | 0, _ => 0
  | n + 1, uv => if uv >>> 7 = 0 then 1 else varNumericLength n (uv >>> 7) + 1

def getVarNumericLength {k : ℕ} (value : BitVec (8 * k)) : ℕ :=
  varNumericLength (varNumericMaxSize k) value

/-- The array that `writeVarNumeric` fills; the last byte loses its high bit. -/
def varNumericBytes {w : ℕ} : ℕ → BitVec w → Bytes
  | 0, _ => []
  | n + 1, uv =>
    let byte := UInt8.ofBitVec ((uv &&& 0x7F).setWidth 8) ||| 0x80
    if uv >>> 7 = 0 then [byte &&& 0x7F] else byte :: varNumericBytes n (uv >>> 7)

def writeVarNumeric {k : ℕ} (value : BitVec (8 * k)) : Action Unit :=
  writeBytes (varNumericBytes (varNumericMaxSize k) value)

/-- A signed result whose sign bit is set has it set once more. -/
def fillSign {w : ℕ} (isSigned : Bool) (result : BitVec w) : BitVec w :=
  if isSigned ∧ result.msb then result ||| BitVec.allOnes w <<< (w - 1) else result

/-- The loop of `readVarNumeric`: a number whose last byte allowed by the shift
announces another one is logged and read as 0. -/
def readVarNumericLoop (isSigned : Bool) {w : ℕ} : ℕ → ℕ → BitVec w → Action (BitVec w)
  | 0, _, _ => pure 0
  | n + 1, shift, result => do
    let byte ← readByte
    let result := result ||| (byte &&& 0x7F).toBitVec.setWidth w <<< shift
    if byte &&& 0x80 = 0 then pure (fillSign isSigned result)
    else if w ≤ shift + 7 then pure 0
    else readVarNumericLoop isSigned n (shift + 7) result

def readVarNumeric (k : ℕ) (isSigned : Bool) : Action (BitVec (8 * k)) :=
  readVarNumericLoop isSigned (varNumericMaxSize k) 0 0

/-- The transformed value of the zigzag writers. -/
def zigZag {w : ℕ} (value : BitVec w) : BitVec w := (value <<< 1) ^^^ value.sshiftRight (w - 1)

def writeZigZagVarNumeric {k : ℕ} (value : BitVec (8 * k)) : Action Unit :=
  writeVarNumeric (zigZag value)

def readZigZagVarNumeric (k : ℕ) : Action (BitVec (8 * k)) := do
  let uv ← readVarNumeric k false
  pure ((uv >>> 1) ^^^ (-(uv &&& 1)))

/-- `writeVarNumeric<int>`. -/
def writeVarInt (value : BitVec 32) : Action Unit := writeVarNumeric (k := 4) value

/-- `readVarNumeric<int>`. -/
def readVarInt : Action (BitVec 32) := readVarNumeric 4 true

/-- The cast of a `size_t` to `int`. -/
def toInt (size : ℕ) : BitVec 32 := BitVec.ofNat 32 size

/-- The cast of an `int` to `size_t`. -/
def toSize (value : BitVec 32) : ℕ := (value.signExtend 64).toNat

/-! ### Strings, arrays and optional values -/

def writeString (value : Bytes) : Action Unit := do
  writeVarInt (toInt value.length)
  writeBytes value

def readString : Action Bytes := do
  let length ← readVarInt
  readBytes (toSize length)

def writeIdentifier (value : Identifier) : Action Unit := writeString value.toString

def readIdentifier : Action Identifier := do
  let value ← readString
  fun buffer => do
    let identifier ← Identifier.ofString value
    return (identifier, buffer)

def writeUUID (uuid : UUID) : Action Unit := Throw.forEach writeUnsignedByte uuid.1

/-- With fewer bytes the rest of the array stays indeterminate. -/
def readUUID : Action UUID := do
  let bytes ← readBytes 16
  if h : bytes.length = 16 then pure ⟨bytes, h⟩ else fail .undefined

def writeArray {α : Type} (value : List α) (func : α → Action Unit) : Action Unit :=
  Throw.forEach func value

def writePrefixedArray {α : Type} (value : List α) (func : α → Action Unit) : Action Unit := do
  writeVarInt (toInt value.length)
  writeArray value func

def readArray {α : Type} (func : Action α) (length : ℕ) : Action (List α) :=
  Throw.replicate func length

def readPrefixedArray {α : Type} (func : Action α) : Action (List α) := do
  let length ← readVarInt
  readArray func (toSize length)

def writePrefixedOptional {α : Type} (value : Option α) (func : α → Action Unit) : Action Unit := do
  writeByte (if value.isSome then 1 else 0)
  match value with
  | some a => func a
  | none => pure ()

def readPrefixedOptional {α : Type} (func : Action α) : Action (Option α) := do
  let hasValue ← readByte
  if hasValue = 0 then pure none else
    let a ← func
    pure (some a)

def writeByteArray (bytes : Bytes) : Action Unit := writeBytes bytes

def writePrefixedByteArray (bytes : Bytes) : Action Unit := do
  writeVarInt (toInt bytes.length)
  writeBytes bytes

def readByteArray (length : ℕ) : Action Bytes := readBytes length

def readPrefixedByteArray : Action Bytes := do
  let length ← readVarInt
  readBytes (toSize length)

end ByteBuffer

end Zinc.Buffer
