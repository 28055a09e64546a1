import Zinc.Base.WordSet
import Mathlib.Data.Nat.Notation

/-! `BitSet`: words of 64 bits and the cached position of the highest set bit. Positions
and sizes are the numbers that an `unsigned long` holds. Its operations may wrap only
where a position is rounded up to words; no vector has the 2^58 words that it would
take for another product or sum to wrap. -/

namespace Zinc.Bits

/-- The number of values of an `unsigned long`. -/
def longRange : ℕ := 2 ^ 64

/-- `NPOS`. -/
def npos : ℕ := 2 ^ 64 - 1

structure BitSet where
  data : List (BitVec 64)
  highestSet : ℕ
  deriving DecidableEq

namespace BitSet

/-- `BitSet()`. -/
def new : BitSet := ⟨[], npos⟩

/-- `BitSet(unsigned long)`. -/
def ofSize (n : ℕ) : BitSet := ⟨List.replicate ((n + 63) % longRange / 64) 0#64, npos⟩

def findHighestSet (b : BitSet) : ℕ := (WordSet.highest b.data b.data.length).getD npos

/-- `1ULL << (pos % 64)`. -/
def mask (pos : ℕ) : BitVec 64 := 1#64 <<< (pos % 64)

/-- The word of a position. -/
def word (pos : ℕ) (b : BitSet) : BitVec 64 := b.data.getD (pos / 64) 0#64

/-- `m_data.resize` to a size that is not smaller. -/
def resize (size : ℕ) (data : List (BitVec 64)) : List (BitVec 64) :=
  data ++ List.replicate (size - data.length) 0#64

/-- Room for a position. -/
def reserve (pos : ℕ) (b : BitSet) : BitSet :=
  if b.data.length < (pos + 64) % longRange / 64 then
    { b with data := resize ((pos + 64) % longRange / 64) b.data }
  else b

/-- The cache behind a bit that was set. -/
def raise (pos : ℕ) (b : BitSet) : BitSet :=
  if b.highestSet = npos ∨ b.highestSet < pos then { b with highestSet := pos } else b

/-- The cache behind a bit that was cleared. -/
def lower (pos : ℕ) (b : BitSet) : BitSet :=
  if pos = b.highestSet then { b with highestSet := b.findHighestSet } else b

def set (pos : ℕ) (b : BitSet) : BitSet :=
  let b := b.reserve pos
  if b.word pos &&& mask pos = 0#64 then
    raise pos { b with data := b.data.set (pos / 64) (b.word pos ||| mask pos) }
  else b

def clear (pos : ℕ) (b : BitSet) : BitSet :=
  if b.data.length ≤ pos / 64 then b
  else if b.word pos &&& mask pos ≠ 0#64 then
    lower pos { b with data := b.data.set (pos / 64) (b.word pos &&& ~~~mask pos) }
  else b

def flip (pos : ℕ) (b : BitSet) : BitSet :=
  let b := b.reserve pos
  let b := { b with data := b.data.set (pos / 64) (b.word pos ^^^ mask pos) }
  if b.word pos &&& mask pos ≠ 0#64 then raise pos b else lower pos b

def get (pos : ℕ) (b : BitSet) : Bool :=
  if b.data.length ≤ pos / 64 then false else b.word pos &&& mask pos ≠ 0#64

def size (b : BitSet) : ℕ := if b.highestSet = npos then 0 else b.highestSet + 1

def count (b : BitSet) : ℕ := (b.data.map fun block => block.cpop.toNat).sum

def any (b : BitSet) : Bool := b.highestSet ≠ npos

def none (b : BitSet) : Bool := b.highestSet = npos

/-- The end of a mutator that changes many words. -/
def refresh (data : List (BitVec 64)) (b : BitSet) : BitSet :=
  { b with data, highestSet := findHighestSet { b with data } }

def andNot (other b : BitSet) : BitSet :=
  b.refresh (b.data.mapIdx fun i word =>
    if i < min b.data.length other.data.length then word &&& ~~~other.data.getD i 0#64 else word)

/-- The loop of `nextSetBit` from a word on, with the index of that word. -/
def nextSetLoop : List (BitVec 64) → ℕ → ℕ → ℕ
  | [], _, _ => npos
  | word :: words, blockIdx, bitOffset =>
    if word ≠ 0#64 ∧ word >>> bitOffset ≠ 0#64 then
      blockIdx * 64 + bitOffset + (word >>> bitOffset).ctz.toNat
    else nextSetLoop words (blockIdx + 1) 0

def nextSetBit (fromIndex : ℕ) (b : BitSet) : ℕ :=
  if b.highestSet < fromIndex then npos
  else nextSetLoop (b.data.drop (fromIndex / 64)) (fromIndex / 64) (fromIndex % 64)

/-- The loop of `nextClearBit` from a word on, with the index of that word; behind the
last word it gives the number of positions that all the words have. -/
def nextClearLoop (size : ℕ) : List (BitVec 64) → ℕ → ℕ → ℕ
  | [], _, _ => size * 64
  | word :: words, blockIdx, bitOffset =>
    if ~~~word &&& ~~~(1#64 <<< bitOffset - 1#64) ≠ 0#64 then
      blockIdx * 64 + (~~~word &&& ~~~(1#64 <<< bitOffset - 1#64)).ctz.toNat
    else nextClearLoop size words (blockIdx + 1) 0

def nextClearBit (fromIndex : ℕ) (b : BitSet) : ℕ :=
  nextClearLoop b.data.length (b.data.drop (fromIndex / 64)) (fromIndex / 64) (fromIndex % 64)

/-- `operator&=`. -/
def and (other b : BitSet) : BitSet :=
  b.refresh (b.data.mapIdx fun i word =>
    if i < min b.data.length other.data.length then word &&& other.data.getD i 0#64 else 0#64)

/-- The resizing in `operator|=` and `operator^=`. -/
def widen (other b : BitSet) : List (BitVec 64) :=
  if b.data.length < max b.data.length other.data.length then
    resize (max b.data.length other.data.length) b.data
  else b.data

/-- `operator|=`. -/
def or (other b : BitSet) : BitSet :=
  b.refresh ((widen other b).mapIdx fun i word =>
    if i < other.data.length then word ||| other.data.getD i 0#64 else word)

/-- `operator^=`. -/
def xor (other b : BitSet) : BitSet :=
  b.refresh ((widen other b).mapIdx fun i word =>
    if i < other.data.length then word ^^^ other.data.getD i 0#64 else word)

/-- `operator==`. -/
def eq (b other : BitSet) : Bool :=
  (List.range (max b.data.length other.data.length)).all fun i =>
    (if i < b.data.length then b.data.getD i 0#64 else 0#64) =
      if i < other.data.length then other.data.getD i 0#64 else 0#64

def toLongArray (b : BitSet) : List (BitVec 64) :=
  if b.highestSet = npos then [] else b.data.take (b.highestSet / 64 + 1)

/-- The byte of eight positions. -/
def byte (b : BitSet) (i : ℕ) : UInt8 :=
  UInt8.ofBitVec ((List.range 8).foldl (fun byte j =>
    if b.get (i * 8 + j) then byte ||| 1#8 <<< j else byte) 0#8)

def toByteArray (b : BitSet) : List UInt8 :=
  if b.highestSet = npos then []
  else (List.range ((b.highestSet + 7) % longRange / 8)).map b.byte

def fromLongArray (longs : List (BitVec 64)) : BitSet := new.refresh longs

/-- The block of eight bytes, or of as many as are left. -/
def block (bytes : List UInt8) (i : ℕ) : BitVec 64 :=
  (List.range 8).foldl (fun block j =>
    if bytes.length ≤ i * 8 + j then block
    else block ||| (BitVec.ofNat 64 (bytes.getD (i * 8 + j) 0).toNat <<< (j * 8))) 0#64

def fromByteArray (bytes : List UInt8) : BitSet :=
  new.refresh ((List.range ((bytes.length + 7) / 8)).map (block bytes))

end BitSet

end Zinc.Bits
