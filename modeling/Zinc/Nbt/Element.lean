import Zinc.Nbt.Tree

/-! `NBTElement`: one record for all types, with the fields that a type does not
use left at their defaults. The settings of an element say whether it stands in
a list, whether it is the root of a network message, and which type to take in
place of its own; encoding and decoding rebuild them for the children of a list
and of a compound. The bound on the recursion of `decode` is part of the model
only. -/

namespace Zinc.Nbt

open Buffer Buffer.ByteBuffer NBTElementType

structure NBTSettings where
  isInArray : Bool
  isNetwork : Bool
  type : NBTElementType
  deriving DecidableEq

/-- The default constructor. -/
def NBTSettings.new : NBTSettings := ⟨false, false, .endTag⟩

structure NBTElement where
  settings : NBTSettings
  tag : Bytes
  type : NBTElementType
  byteValue : UInt8
  shortValue : BitVec 16
  intValue : BitVec 32
  longValue : BitVec 64
  floatValue : BitVec 32
  doubleValue : BitVec 64
  byteArrayValue : Bytes
  stringValue : Bytes
  childElements : List NBTElement
  intArrayValue : List (BitVec 32)
  longArrayValue : List (BitVec 64)

namespace NBTElement

/-- An element of a type with all values at their defaults. -/
def blank (settings : NBTSettings) (tag : Bytes) (type : NBTElementType) : NBTElement :=
  { settings, tag, type, byteValue := 0, shortValue := 0, intValue := 0, longValue := 0,
    floatValue := 0, doubleValue := 0, byteArrayValue := [], stringValue := [],
    childElements := [], intArrayValue := [], longArrayValue := [] }

/-- `NBTElement(const NBTSettings&)`. -/
def new (settings : NBTSettings) : NBTElement := blank settings [] .endTag

@[simp] theorem blank_settings (settings : NBTSettings) (tag : Bytes) (type : NBTElementType) :
    (blank settings tag type).settings = settings := rfl

@[simp] theorem blank_tag (settings : NBTSettings) (tag : Bytes) (type : NBTElementType) :
    (blank settings tag type).tag = tag := rfl

/-! ### Elements -/

/-- `NBTElement::String(tag, value)`; without a tag in a list. -/
def string (tag value : Bytes) : NBTElement := { blank .new tag .string with stringValue := value }

def byte (tag : Bytes) (value : UInt8) : NBTElement := { blank .new tag .byte with byteValue := value }

def int (tag : Bytes) (value : BitVec 32) : NBTElement := { blank .new tag .int with intValue := value }

def list (tag : Bytes) (children : List NBTElement) : NBTElement :=
  { blank .new tag .list with childElements := children }

def compound (tag : Bytes) (children : List NBTElement) : NBTElement :=
  { blank .new tag .compound with childElements := children }

@[simp] theorem string_tag (tag value : Bytes) : (string tag value).tag = tag := rfl

@[simp] theorem byte_tag (tag : Bytes) (value : UInt8) : (byte tag value).tag = tag := rfl

@[simp] theorem int_tag (tag : Bytes) (value : BitVec 32) : (int tag value).tag = tag := rfl

@[simp] theorem list_tag (tag : Bytes) (children : List NBTElement) : (list tag children).tag = tag := rfl

@[simp] theorem compound_tag (tag : Bytes) (children : List NBTElement) :
    (compound tag children).tag = tag := rfl

/-! ### Encoding -/

/-- The size as an unsigned short, then the bytes. -/
def writeShortString (bytes : Bytes) : Action Unit := do
  writeNumeric (k := 2) (BitVec.ofNat 16 bytes.length)
  writeBytes bytes

def writeTag (settings : NBTSettings) (tag : Bytes) : Action Unit := fun buffer =>
  if buffer.isBigEndian = false then
    if settings.isNetwork = false then writeShortString tag buffer else writeString tag buffer
  else
    if ¬ (tag = [] ∧ settings.isNetwork) then writeShortString tag buffer else .ok ((), buffer)

/-- A number of `k` bytes. -/
def writeNumber (k : ℕ) (settings : NBTSettings) (value : BitVec (8 * k)) : Action Unit :=
  fun buffer =>
    if buffer.isBigEndian then writeNumeric value buffer
    else if settings.isNetwork then writeZigZagVarNumeric value buffer
    else writeNumeric value buffer

def writeInt (settings : NBTSettings) (value : BitVec 32) : Action Unit := writeNumber 4 settings value

def writeLong (settings : NBTSettings) (value : BitVec 64) : Action Unit := writeNumber 8 settings value

/-- The length of an array or a list. -/
def writeLength (settings : NBTSettings) (length : ℕ) : Action Unit :=
  writeInt settings (BitVec.ofNat 32 length)

def writeStringValue (settings : NBTSettings) (value : Bytes) : Action Unit := fun buffer =>
  if buffer.isBigEndian then writeShortString value buffer
  else if settings.isNetwork = false then writeShortString value buffer
  else writeString value buffer

/-- The cases of `encode` without children. -/
def encodeScalar (settings : NBTSettings) (type : NBTElementType) (element : NBTElement) :
    Action Unit :=
  match type with
  | .byte => writeByte element.byteValue
  | .short => writeNumeric (k := 2) element.shortValue
  | .int => writeInt settings element.intValue
  | .long => writeLong settings element.longValue
  | .float => writeNumeric (k := 4) element.floatValue
  | .double => writeNumeric (k := 8) element.doubleValue
  | .byteArray => do
    writeLength settings element.byteArrayValue.length
    writeByteArray element.byteArrayValue
  | .intArray => do
    writeLength settings element.intArrayValue.length
    writeArray element.intArrayValue fun v => writeNumeric (k := 4) v
  | .longArray => do
    writeLength settings element.longArrayValue.length
    writeArray element.longArrayValue fun v => writeNumeric (k := 8) v
  | .string => writeStringValue settings element.stringValue
  | _ => pure ()

/-- The type and the tag; an element of a list has neither. -/
def encodeHead (settings : NBTSettings) (type : NBTElementType) (tag : Bytes) : Action Unit :=
  if settings.isInArray then pure ()
  else if type = .endTag then writeByte type.toByte
  else do
    writeByte type.toByte
    writeTag settings tag

mutual

/-- `encode` of an element whose settings were replaced by the given ones. -/
def encodeWith (settings : NBTSettings) : NBTElement → Action Unit
  | element@⟨_, tag, ownType, _, _, _, _, _, _, _, _, childElements, _, _⟩ => do
    let type := if settings.type ≠ .endTag then settings.type else ownType
    encodeHead settings type tag
    match type with
    | .list =>
      match childElements.head? with
      | none => do
        writeByte 0
        writeLength settings 0
      | some first =>
        if childElements.any (fun child => first.type ≠ child.type) then do
          -- "All NBTList elements must have the same type"
          writeByte 0
          writeLength settings 0
        else do
          writeByte first.type.toByte
          writeLength settings childElements.length
          encodeChildren { settings with type := first.type, isInArray := true, isNetwork := false }
            childElements
    | .compound => do
      encodeChildren { type := .endTag, isInArray := false, isNetwork := false } childElements
      writeByte 0
    | _ => encodeScalar settings type element

/-- The children in order, each with the settings that its parent rebuilt. -/
def encodeChildren (settings : NBTSettings) : List NBTElement → Action Unit
  | [] => pure ()
  | element :: elements => do
    encodeWith settings element
    encodeChildren settings elements

end

/-- `NBTElement::encode(ByteBuffer&)`. -/
def encode (element : NBTElement) : Action Unit := encodeWith element.settings element

/-! ### Decoding -/

def readShortString : Action Bytes := do
  let length ← readNumeric 2
  readBytes length.toNat

def readTag (settings : NBTSettings) (tag : Bytes) : Action Bytes := fun buffer =>
  if buffer.isBigEndian = false then
    if settings.isNetwork = false then readShortString buffer else readString buffer
  else
    if settings.isNetwork = false then readShortString buffer else .ok (tag, buffer)

/-- A number of `k` bytes. -/
def readNumber (k : ℕ) (settings : NBTSettings) : Action (BitVec (8 * k)) := fun buffer =>
  if buffer.isBigEndian then readNumeric k buffer
  else if settings.isNetwork then readZigZagVarNumeric k buffer
  else readNumeric k buffer

def readInt (settings : NBTSettings) : Action (BitVec 32) := readNumber 4 settings

def readLong (settings : NBTSettings) : Action (BitVec 64) := readNumber 8 settings

def readLength (settings : NBTSettings) : Action ℕ := do
  let length ← readInt settings
  pure length.toNat

def readStringValue (settings : NBTSettings) : Action Bytes := fun buffer =>
  if buffer.isBigEndian then readShortString buffer
  else if settings.isNetwork = false then readShortString buffer
  else readString buffer

/-- The type that the settings force. -/
def forceType (element : NBTElement) : NBTElement :=
  if element.settings.type ≠ .endTag then { element with type := element.settings.type } else element

/-- The type and the tag; an element of a list has neither. -/
def decodeHead (element : NBTElement) : Action NBTElement :=
  if element.settings.isInArray then pure element else do
    let code ← readByte
    if ofByte code = .endTag then pure { element with type := .endTag } else do
      let tag ← readTag element.settings element.tag
      pure { element with type := ofByte code, tag }

/-- The cases of `decode` without children. -/
def decodeScalar (element : NBTElement) : Action NBTElement :=
  match element.type with
  | .byte => do
    let byteValue ← readByte
    pure { element with byteValue }
  | .short => do
    let shortValue ← readNumeric 2
    pure { element with shortValue }
  | .int => do
    let intValue ← readInt element.settings
    pure { element with intValue }
  | .long => do
    let longValue ← readLong element.settings
    pure { element with longValue }
  | .float => do
    let floatValue ← readNumeric 4
    pure { element with floatValue }
  | .double => do
    let doubleValue ← readNumeric 8
    pure { element with doubleValue }
  | .byteArray => do
    let length ← readLength element.settings
    let byteArrayValue ← readByteArray length
    pure { element with byteArrayValue }
  | .intArray => do
    let length ← readLength element.settings
    let intArrayValue ← readArray (readNumeric 4) length
    pure { element with intArrayValue }
  | .longArray => do
    let length ← readLength element.settings
    let longArrayValue ← readArray (readNumeric 8) length
    pure { element with longArrayValue }
  | .string => do
    let stringValue ← readStringValue element.settings
    pure { element with stringValue }
  | _ => pure element

def isBigEndian : Action Bool := fun buffer => .ok (buffer.isBigEndian, buffer)

/-- The byte at the reader when the reader is in front of the writer. -/
def peek : Action (Option UInt8) := fun buffer =>
  if buffer.getReaderPointer < buffer.size then
    match buffer.getBytes[buffer.getReaderPointer]? with
    | some c => .ok (some c, buffer)
    | none => .error .undefined
  else .ok (none, buffer)

/-- The switch of `decode`, given the decoder of one element and the loop over
the children of a compound. -/
def decodeBody (decode : NBTElement → Action NBTElement)
    (decodeEntries : NBTSettings → List NBTElement → Action (List NBTElement))
    (element : NBTElement) : Action NBTElement :=
  match element.type with
  | .list => do
    let code ← readByte
    let length ← readLength element.settings
    let isBigEndian ← isBigEndian
    let settings := { type := ofByte code, isInArray := true,
                      isNetwork := !isBigEndian && element.settings.isNetwork }
    let children ← readArray (decode (.new settings)) (if ofByte code = .endTag then 0 else length)
    pure { element with childElements := element.childElements ++ children }
  | .compound => do
    let isBigEndian ← isBigEndian
    let settings := { type := .endTag, isInArray := false,
                      isNetwork := !isBigEndian && element.settings.isNetwork }
    let childElements ← decodeEntries settings element.childElements
    pure { element with childElements }
  | _ => decodeScalar element

mutual

/-- `NBTElement::decode`. -/
def decode : ℕ → NBTElement → Action NBTElement
  | 0, _ => fail .stuck
  | n + 1, element => do
    let element ← decodeHead (forceType element)
    decodeBody (decode n) (decodeEntries n) element

/-- The loop over the children of a compound. -/
def decodeEntries : ℕ → NBTSettings → List NBTElement → Action (List NBTElement)
  | 0, _, _ => fail .stuck
  | n + 1, settings, children => do
    match ← peek with
    | none => pure children
    | some c =>
      if c = 0 then do
        let _ ← readByte
        pure children
      else do
        let child ← decode n (.new settings)
        decodeEntries n settings (children ++ [child])

end

/-! ### The pair on a buffer -/

/-- The settings of a network message. -/
def networkSettings : NBTSettings := { NBTSettings.new with isNetwork := true }

end NBTElement

open NBTElement

/-- `ByteBuffer::writeNBTElement`. -/
def writeNBTElement (nbtElement : NBTElement) : Action Unit := encodeWith networkSettings nbtElement

/-- `ByteBuffer::readNBTElement`. -/
def readNBTElement (fuel : ℕ) : Action NBTElement := decode fuel (.new networkSettings)

end Zinc.Nbt
