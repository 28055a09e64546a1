import Zinc.Base.Blocks
import Zinc.Base.Throw

/-! `ByteBuffer::InternalByteBuffer`: a deque of equally sized blocks with a
write cursor and a read cursor, each a block number and an offset. The writer
appends a zeroed block as soon as it fills one, so at least one byte behind the
writer is always allocated. The reader stops at the end of the last block, not
at the writer. With block recycling the reader drops the front block whenever it
finishes a block and renumbers both cursors. Loops run on a bound that no call
exhausts; the bound is part of the model only. -/

namespace Zinc.Buffer

/-- The ways in which a call leaves its normal path: undefined behaviour (an
index outside its container), the exceptions the modelled code can meet, and a
loop bound of the model that ran out. -/
inductive Fault where
  | undefined
  | lengthError
  | badFunctionCall
  | jsonError
  | stuck
  deriving DecidableEq, Repr

abbrev Bytes := List UInt8

/-- `BLOCK_SIZE`. -/
def blockSize : ℕ := 4096

/-- `std::vector<char>::max_size()`; reserving more throws `std::length_error`. -/
def maxSize : ℕ := 2 ^ 63 - 1

theorem le_maxSize {n : ℕ} (h : n < 2 ^ 31) : n ≤ maxSize := by
  unfold maxSize
  omega

def zeros (n : ℕ) : Bytes := List.replicate n 0

@[simp] theorem length_zeros (n : ℕ) : (zeros n).length = n := List.length_replicate

theorem zeros_append (m n : ℕ) : zeros m ++ zeros n = zeros (m + n) :=
  List.replicate_append_replicate

structure InternalByteBuffer where
  blocks : List Bytes
  writeBlock : ℕ
  writeOffset : ℕ
  readBlock : ℕ
  readOffset : ℕ
  enableBlockRecycle : Bool
  deriving DecidableEq

namespace InternalByteBuffer

/-- The constructor. -/
def new : InternalByteBuffer := ⟨[zeros blockSize], 0, 0, 0, 0, false⟩

def clear (b : InternalByteBuffer) : InternalByteBuffer :=
  { b with blocks := [zeros blockSize], writeBlock := 0, readBlock := 0, writeOffset := 0,
           readOffset := 0 }

/-- The end of an iteration of `write`: a full block is followed by a new one. -/
def nextWriteBlock (b : InternalByteBuffer) : InternalByteBuffer :=
  if b.writeOffset = blockSize then
    { b with writeBlock := b.writeBlock + 1, writeOffset := 0, blocks := b.blocks ++ [zeros blockSize] }
  else b

def writeLoop : ℕ → Bytes → InternalByteBuffer → Except Fault InternalByteBuffer
  | _, [], b => .ok b
  | 0, _ :: _, _ => .error .stuck
  | n + 1, x :: xs, b =>
    let spaceLeft := blockSize - b.writeOffset
    let toCopy := min (x :: xs).length spaceLeft
    match b.blocks[b.writeBlock]? with
    | none => .error .undefined
    | some block =>
      writeLoop n ((x :: xs).drop toCopy) (nextWriteBlock
        { b with blocks := b.blocks.set b.writeBlock
                   (Blocks.overwrite block b.writeOffset ((x :: xs).take toCopy))
                 writeOffset := b.writeOffset + toCopy })

def write (data : Bytes) (b : InternalByteBuffer) : Except Fault InternalByteBuffer :=
  writeLoop (data.length + 1) data b

/-- The end of an iteration of `read`: a finished block is left, and with
recycling the front block is dropped and the cursors are renumbered. -/
def nextReadBlock (b : InternalByteBuffer) : InternalByteBuffer :=
  if b.readOffset = blockSize then
    if b.enableBlockRecycle then
      { b with readOffset := 0, writeBlock := b.writeBlock - 1, blocks := b.blocks.tail }
    else { b with readBlock := b.readBlock + 1, readOffset := 0 }
  else b

def readLoop : ℕ → ℕ → Bytes → InternalByteBuffer → Except Fault (Bytes × InternalByteBuffer)
  | _, 0, result, b => .ok (result, b)
  | 0, _ + 1, _, _ => .error .stuck
  | n + 1, r + 1, result, b =>
    match b.blocks[b.readBlock]? with
    | none => .ok (result, b) -- "Not enough data to read"
    | some block =>
      let available := blockSize - b.readOffset
      let toCopy := min (r + 1) available
      readLoop n (r + 1 - toCopy) (result ++ (block.drop b.readOffset).take toCopy)
        (nextReadBlock { b with readOffset := b.readOffset + toCopy })

def read (length : ℕ) (b : InternalByteBuffer) : Except Fault (Bytes × InternalByteBuffer) :=
  if maxSize < length then .error .lengthError else readLoop (b.blocks.length + 1) length [] b

def getReader (b : InternalByteBuffer) : ℕ × ℕ := (b.readBlock, b.readOffset)

def getWriter (b : InternalByteBuffer) : ℕ × ℕ := (b.writeBlock, b.writeOffset)

def toggleBlockRecycle (state : Bool) (b : InternalByteBuffer) : InternalByteBuffer :=
  { b with enableBlockRecycle := state }

/-- `setReader`; its only callers pass a position divided by the block size. -/
def setReader (reader : ℕ × ℕ) (b : InternalByteBuffer) : InternalByteBuffer :=
  { b with readBlock := reader.1, readOffset := reader.2 }

/-- The blocks in front of the writer's block and the written part of that block. -/
def getBytes (b : InternalByteBuffer) : Bytes :=
  (b.blocks.take b.writeBlock).flatten ++ ((b.blocks[b.writeBlock]?).getD []).take b.writeOffset

end InternalByteBuffer

/-- The byte order applies to the numbers of a fixed width only. -/
structure ByteBuffer where
  internalBuffer : InternalByteBuffer
  isBigEndian : Bool
  deriving DecidableEq

namespace ByteBuffer

/-- The default constructor. -/
def new : ByteBuffer := ⟨.new, true⟩

def clear (buffer : ByteBuffer) : ByteBuffer :=
  { buffer with internalBuffer := buffer.internalBuffer.clear }

def getBytes (buffer : ByteBuffer) : Bytes := buffer.internalBuffer.getBytes

def size (buffer : ByteBuffer) : ℕ :=
  let writer := buffer.internalBuffer.getWriter
  writer.1 * blockSize + writer.2

def getReaderPointer (buffer : ByteBuffer) : ℕ :=
  let reader := buffer.internalBuffer.getReader
  reader.1 * blockSize + reader.2

end ByteBuffer

end Zinc.Buffer
