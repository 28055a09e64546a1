import Zinc.Buffer.View

/-! The NBT format as trees and the bytes that stand for them. A tree carries a
tag at every node; its payload is what follows the type and the tag. A list
writes the type of its elements once and then their payloads, a compound writes
its children with types and tags and closes with a zero byte. The byte order is
a parameter. -/

namespace Zinc.Nbt

open Buffer Buffer.ByteBuffer

/-- `NBTElementType`, with the values that a cast from a byte can give beyond
the named ones. -/
inductive NBTElementType where
  | endTag
  | byte
  | short
  | int
  | long
  | float
  | double
  | byteArray
  | string
  | list
  | compound
  | intArray
  | longArray
  | other (code : UInt8)
  deriving DecidableEq

namespace NBTElementType

def toByte : NBTElementType → UInt8
  | endTag => 0
  | byte => 1
  | short => 2
  | int => 3
  | long => 4
  | float => 5
  | double => 6
  | byteArray => 7
  | string => 8
  | list => 9
  | compound => 10
  | intArray => 11
  | longArray => 12
  | other code => code

def ofByte (code : UInt8) : NBTElementType :=
  match code with
  | 0 => endTag
  | 1 => byte
  | 2 => short
  | 3 => int
  | 4 => long
  | 5 => float
  | 6 => double
  | 7 => byteArray
  | 8 => string
  | 9 => list
  | 10 => compound
  | 11 => intArray
  | 12 => longArray
  | _ => other code

/-- A value that a byte is cast to: `other` stands for the codes without a name. -/
def Valid : NBTElementType → Prop
  | other code => ofByte code = other code
  | _ => True

theorem ofByte_toByte {type : NBTElementType} (h : type.Valid) : ofByte type.toByte = type := by
  cases type with
  | other code => exact h
  | _ => rfl

theorem toByte_ofByte (code : UInt8) : (ofByte code).toByte = code := by
  unfold ofByte
  split <;> rfl

theorem valid_ofByte (code : UInt8) : (ofByte code).Valid := by
  cases h : ofByte code with
  | other code' =>
    have hcode : (other code').toByte = code := by rw [← h, toByte_ofByte]
    change ofByte code' = other code'
    rw [← h]
    exact congrArg ofByte hcode
  | _ => trivial

theorem toByte_eq_zero {type : NBTElementType} (h : type.Valid) : type.toByte = 0 ↔ type = endTag := by
  constructor
  · intro hzero
    rw [← ofByte_toByte h, hzero]
    rfl
  · rintro rfl
    rfl

end NBTElementType

open NBTElementType

/-- The value of a node without children; floats and doubles are bit patterns. -/
inductive Scalar where
  | endTag
  | byte (value : UInt8)
  | short (value : BitVec 16)
  | int (value : BitVec 32)
  | long (value : BitVec 64)
  | float (value : BitVec 32)
  | double (value : BitVec 64)
  | byteArray (value : Bytes)
  | string (value : Bytes)
  | intArray (value : List (BitVec 32))
  | longArray (value : List (BitVec 64))
  | other (code : UInt8)

inductive Tree where
  | scalar (tag : Bytes) (value : Scalar)
  | list (tag : Bytes) (children : List Tree)
  | compound (tag : Bytes) (children : List Tree)

namespace Scalar

def type : Scalar → NBTElementType
  | endTag => .endTag
  | byte _ => .byte
  | short _ => .short
  | int _ => .int
  | long _ => .long
  | float _ => .float
  | double _ => .double
  | byteArray _ => .byteArray
  | string _ => .string
  | intArray _ => .intArray
  | longArray _ => .longArray
  | other code => .other code

/-- The values that the format can hold. -/
def WellFormed : Scalar → Prop
  | byteArray value => value.length < 2 ^ 32
  | string value => value.length ≤ 65535
  | intArray value => value.length < 2 ^ 32
  | longArray value => value.length < 2 ^ 32
  | other code => (NBTElementType.other code).Valid
  | _ => True

theorem WellFormed.valid {v : Scalar} (h : v.WellFormed) : v.type.Valid := by
  cases v with
  | other code => exact h
  | _ => trivial

end Scalar

/-- A number of 16 or 32 bits in front of a sequence. -/
def count16 (e : Bool) (n : ℕ) : Bytes := numericBytes e (k := 2) (BitVec.ofNat 16 n)

def count32 (e : Bool) (n : ℕ) : Bytes := numericBytes e (k := 4) (BitVec.ofNat 32 n)

/-- The bytes of a tag or a string. -/
def text (e : Bool) (bytes : Bytes) : Bytes := count16 e bytes.length ++ bytes

def Scalar.payload (e : Bool) : Scalar → Bytes
  | .endTag => []
  | .byte value => [value]
  | .short value => numericBytes e (k := 2) value
  | .int value => numericBytes e (k := 4) value
  | .long value => numericBytes e (k := 8) value
  | .float value => numericBytes e (k := 4) value
  | .double value => numericBytes e (k := 8) value
  | .byteArray value => count32 e value.length ++ value
  | .string value => text e value
  | .intArray value => count32 e value.length ++ value.flatMap fun v => numericBytes e (k := 4) v
  | .longArray value => count32 e value.length ++ value.flatMap fun v => numericBytes e (k := 8) v
  | .other _ => []

/-- `WellFormed` as a test. -/
def Scalar.fits : Scalar → Bool
  | .byteArray value => value.length < 2 ^ 32
  | .string value => value.length ≤ 65535
  | .intArray value => value.length < 2 ^ 32
  | .longArray value => value.length < 2 ^ 32
  | .other code => ofByte code = .other code
  | _ => true

theorem Scalar.wellFormed_of_fits (value : Scalar) (h : value.fits = true) :
    value.WellFormed := by
  cases value <;> simp_all [Scalar.fits, Scalar.WellFormed, Valid]

namespace Tree

def tag : Tree → Bytes
  | scalar tag _ => tag
  | list tag _ => tag
  | compound tag _ => tag

def type : Tree → NBTElementType
  | scalar _ value => value.type
  | list _ _ => .list
  | compound _ _ => .compound

/-- The element type that a list announces. -/
def elementType : List Tree → NBTElementType
  | [] => .endTag
  | t :: _ => t.type

mutual

def payload (e : Bool) : Tree → Bytes
  | scalar _ value => value.payload e
  | list _ children =>
    (elementType children).toByte :: (count32 e children.length ++ payloads e children)
  | compound _ children => entries e children ++ [0]

/-- The payloads of the elements of a list. -/
def payloads (e : Bool) : List Tree → Bytes
  | [] => []
  | t :: ts => payload e t ++ payloads e ts

/-- The children of a compound. -/
def entries (e : Bool) : List Tree → Bytes
  | [] => []
  | t :: ts => t.type.toByte :: (text e t.tag ++ payload e t) ++ entries e ts

end

/-- Lists are homogeneous with untagged elements, nothing of the type End stands
inside a list or a compound, and every length fits its count. -/
inductive WellFormed : Tree → Prop
  | scalar {tag : Bytes} {value : Scalar} (htag : tag.length ≤ 65535) (hvalue : value.WellFormed) :
      WellFormed (.scalar tag value)
  | list {tag : Bytes} {children : List Tree} (htag : tag.length ≤ 65535)
      (hlength : children.length < 2 ^ 32)
      (htype : ∀ t ∈ children, t.type = elementType children ∧ t.type ≠ .endTag ∧ t.tag = [])
      (hchildren : ∀ t ∈ children, WellFormed t) : WellFormed (.list tag children)
  | compound {tag : Bytes} {children : List Tree} (htag : tag.length ≤ 65535)
      (htype : ∀ t ∈ children, t.type ≠ .endTag)
      (hchildren : ∀ t ∈ children, WellFormed t) : WellFormed (.compound tag children)

theorem WellFormed.valid {t : Tree} (h : WellFormed t) : t.type.Valid := by
  cases h with
  | scalar _ hvalue => exact hvalue.valid
  | _ => trivial

/-! ### Deciding well-formedness -/

mutual

/-- `WellFormed` as a test. -/
def fits : Tree → Bool
  | scalar tag value => tag.length ≤ 65535 && value.fits
  | list tag children =>
    tag.length ≤ 65535 && children.length < 2 ^ 32 &&
      children.all (fun t => t.type = elementType children && t.type ≠ .endTag && t.tag = []) &&
      allFit children
  | compound tag children =>
    tag.length ≤ 65535 && children.all (fun t => t.type ≠ .endTag) && allFit children

def allFit : List Tree → Bool
  | [] => true
  | t :: ts => fits t && allFit ts

end

mutual

theorem wellFormed_of_fits : (t : Tree) → t.fits = true → t.WellFormed
  | scalar tag value, h => by
    rw [fits, Bool.and_eq_true, decide_eq_true_eq] at h
    refine .scalar h.1 ?_
    exact Scalar.wellFormed_of_fits value h.2
  | list tag children, h => by
    simp only [fits, Bool.and_eq_true, decide_eq_true_eq, List.all_eq_true] at h
    exact .list h.1.1.1 h.1.1.2 (fun t ht => ⟨(h.1.2 t ht).1.1, (h.1.2 t ht).1.2, (h.1.2 t ht).2⟩)
      (wellFormed_of_allFit children h.2)
  | compound tag children, h => by
    simp only [fits, Bool.and_eq_true, decide_eq_true_eq, List.all_eq_true] at h
    exact .compound h.1.1 (fun t ht => h.1.2 t ht) (wellFormed_of_allFit children h.2)

theorem wellFormed_of_allFit : (ts : List Tree) → allFit ts = true → ∀ t ∈ ts, t.WellFormed
  | [], _ => by simp
  | t :: ts, h => by
    rw [allFit, Bool.and_eq_true] at h
    intro t' ht'
    rcases List.mem_cons.mp ht' with heq | hmem
    · rw [heq]
      exact wellFormed_of_fits t h.1
    · exact wellFormed_of_allFit ts h.2 t' hmem

end

end Tree

end Zinc.Nbt
