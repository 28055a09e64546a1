import Zinc.Nbt.Element

/-! Decoding as parsing of a flat memory. The parser works on the memory ahead of the
reader and gives the tree; of the buffer it sees the byte order, how much of the memory
lies behind the writer, and whether peeking at the end of the memory is undefined. It
reads what `decode` reads, one reader for each of the buffer's. A strict parser also
gives up at an element of a list that has no named type or begins behind the writer. -/

namespace Zinc.Nbt

open Throw Buffer Buffer.ByteBuffer NBTElementType

namespace Flat

/-- What decoding sees of a buffer besides the memory ahead. -/
structure Allocation where
  isBigEndian : Bool
  /-- the memory behind the writer -/
  unwritten : ℕ
  /-- the end of the memory is reached without blocks left, in front of the writer's offset -/
  drains : Bool
  strict : Bool

abbrev Parser (α : Type) := Throw.Action Bytes Fault α

def fail {α : Type} (f : Fault) : Parser α := fun _ => .error f

/-! ### Readers -/

def readBytes (length : ℕ) : Parser Bytes := fun memory =>
  if maxSize < length then .error .lengthError else .ok (memory.take length, memory.drop length)

def readByte : Parser UInt8
  | [] => .error .undefined
  | c :: memory => .ok (c, memory)

def readNumeric (e : Bool) (k : ℕ) : Parser (BitVec (8 * k)) := do
  let bytes ← readBytes k
  pure (numericOfBytes e k bytes)

def readVarNumeric (k : ℕ) : Parser (BitVec (8 * k)) := fun memory =>
  match Base128.decode (varNumericMaxSize k) memory with
  | some n => .ok (BitVec.ofNat (8 * k) n, memory.drop (Base128.span (varNumericMaxSize k) memory))
  | none =>
    if memory.length < varNumericMaxSize k then .error .undefined
    else .ok (0, memory.drop (varNumericMaxSize k))

def readZigZagVarNumeric (k : ℕ) : Parser (BitVec (8 * k)) := do
  let uv ← readVarNumeric k
  pure ((uv >>> 1) ^^^ (-(uv &&& 1)))

def readString : Parser Bytes := do
  let length ← readVarNumeric 4
  readBytes (toSize length)

def readShortString (e : Bool) : Parser Bytes := do
  let length ← readNumeric e 2
  readBytes length.toNat

def readTag (e : Bool) (settings : NBTSettings) : Parser Bytes :=
  if settings.isNetwork = false then readShortString e else if e then pure [] else readString

def readNumber (e : Bool) (k : ℕ) (settings : NBTSettings) : Parser (BitVec (8 * k)) :=
  if e then readNumeric e k
  else if settings.isNetwork then readZigZagVarNumeric k
  else readNumeric e k

def readInt (e : Bool) (settings : NBTSettings) : Parser (BitVec 32) := readNumber e 4 settings

def readLong (e : Bool) (settings : NBTSettings) : Parser (BitVec 64) := readNumber e 8 settings

def readLength (e : Bool) (settings : NBTSettings) : Parser ℕ := do
  let length ← readInt e settings
  pure length.toNat

def readStringValue (e : Bool) (settings : NBTSettings) : Parser Bytes :=
  if e then readShortString e
  else if settings.isNetwork = false then readShortString e
  else readString

/-! ### Elements -/

/-- The settings of the elements of a list. -/
def elementSettings (e : Bool) (settings : NBTSettings) (type : NBTElementType) : NBTSettings :=
  { type, isInArray := true, isNetwork := !e && settings.isNetwork }

/-- The settings of the children of a compound. -/
def entrySettings (e : Bool) (settings : NBTSettings) : NBTSettings :=
  { type := .endTag, isInArray := false, isNetwork := !e && settings.isNetwork }

/-- The type and the tag. -/
def parseHead (e : Bool) (settings : NBTSettings) : Parser (NBTElementType × Bytes) :=
  if settings.isInArray then pure (settings.type, []) else do
    let code ← readByte
    if ofByte code = .endTag then pure (.endTag, []) else do
      let tag ← readTag e settings
      pure (ofByte code, tag)

def parseScalar (e : Bool) (settings : NBTSettings) : NBTElementType → Parser Scalar
  | .byte => do
    let value ← readByte
    pure (.byte value)
  | .short => do
    let value ← readNumeric e 2
    pure (.short value)
  | .int => do
    let value ← readInt e settings
    pure (.int value)
  | .long => do
    let value ← readLong e settings
    pure (.long value)
  | .float => do
    let value ← readNumeric e 4
    pure (.float value)
  | .double => do
    let value ← readNumeric e 8
    pure (.double value)
  | .byteArray => do
    let length ← readLength e settings
    let value ← readBytes length
    pure (.byteArray value)
  | .intArray => do
    let length ← readLength e settings
    let value ← replicate (readNumeric e 4) length
    pure (.intArray value)
  | .longArray => do
    let length ← readLength e settings
    let value ← replicate (readNumeric e 8) length
    pure (.longArray value)
  | .string => do
    let value ← readStringValue e settings
    pure (.string value)
  | .other code => pure (.other code)
  | _ => pure .endTag

/-- The byte at the reader when the reader is in front of the writer. -/
def peek (A : Allocation) : Parser (Option UInt8) := fun memory =>
  if A.unwritten < memory.length then .ok (memory.head?, memory)
  else if memory = [] ∧ A.drains = true then .error .undefined
  else .ok (none, memory)

/-- One of the named types. -/
def isNamed : NBTElementType → Bool
  | .other _ => false
  | _ => true

/-- What a strict parser asks of an element of a list. -/
def check (A : Allocation) (type : NBTElementType) : Parser Unit := fun memory =>
  if A.strict && !(isNamed type && A.unwritten < memory.length) then .error .stuck
  else .ok ((), memory)

/-- What follows the type and the tag, given the parser of one element and the one of
the children of a compound. -/
def parseBody (A : Allocation) (parse : NBTSettings → Parser Tree)
    (parseEntries : NBTSettings → Parser (List Tree)) (settings : NBTSettings)
    (type : NBTElementType) (tag : Bytes) : Parser Tree :=
  match type with
  | .list => do
    let code ← readByte
    let length ← readLength A.isBigEndian settings
    let children ← replicate (do
        check A (ofByte code)
        parse (elementSettings A.isBigEndian settings (ofByte code)))
      (if ofByte code = .endTag then 0 else length)
    pure (.list tag children)
  | .compound => do
    let children ← parseEntries (entrySettings A.isBigEndian settings)
    pure (.compound tag children)
  | type => do
    let value ← parseScalar A.isBigEndian settings type
    pure (.scalar tag value)

mutual

def parse (A : Allocation) : ℕ → NBTSettings → Parser Tree
  | 0, _ => fail .stuck
  | n + 1, settings => do
    let (type, tag) ← parseHead A.isBigEndian settings
    parseBody A (parse A n) (parseEntries A n) settings type tag

def parseEntries (A : Allocation) : ℕ → NBTSettings → Parser (List Tree)
  | 0, _ => fail .stuck
  | n + 1, settings => do
    match ← peek A with
    | none => pure []
    | some c =>
      if c = 0 then do
        let _ ← readByte
        pure []
      else do
        let child ← parse A n settings
        let children ← parseEntries A n settings
        pure (child :: children)

end

/-- How the loop over the children of a compound goes on: the input ends, or the compound, or a
child is followed by others. -/
theorem parseEntries_cases {A : Allocation} {n : ℕ} {settings : NBTSettings} {memory rest : Bytes}
    {ts : List Tree} (h : parseEntries A (n + 1) settings memory = .ok (ts, rest)) :
    (memory.length ≤ A.unwritten ∧ ts = [] ∧ rest = memory) ∨
    (A.unwritten < memory.length ∧ ts = [] ∧ memory = 0 :: rest) ∨
    ∃ child memory₁ children, A.unwritten < memory.length ∧
      parse A n settings memory = .ok (child, memory₁) ∧
      parseEntries A n settings memory₁ = .ok (children, rest) ∧ ts = child :: children := by
  rw [parseEntries] at h
  obtain ⟨⟨c, memory₁⟩, hpeek, h⟩ := bind_eq_ok.mp h
  unfold peek at hpeek
  split at hpeek
  next hfront =>
    cases hpeek
    cases memory with
    | nil => cases hfront
    | cons c memory =>
      rw [List.head?_cons] at h
      by_cases hc : c = 0
      · subst hc
        simp only [if_true] at h
        cases h
        exact .inr (.inl ⟨hfront, rfl, rfl⟩)
      · simp only [if_neg hc] at h
        obtain ⟨⟨child, memory₂⟩, hchild, h⟩ := bind_eq_ok.mp h
        obtain ⟨⟨children, memory₃⟩, hchildren, h⟩ := bind_eq_ok.mp h
        cases h
        exact .inr (.inr ⟨child, memory₂, children, hfront, hchild, hchildren, rfl⟩)
  next hfront =>
    split at hpeek <;> cases hpeek
    cases h
    exact .inl ⟨by omega, rfl, rfl⟩

end Flat

end Zinc.Nbt
