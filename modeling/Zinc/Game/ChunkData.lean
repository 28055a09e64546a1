import Zinc.Text.Codec

/-! Chunk data: height maps, the bytes of the chunk, and block entities, whose position in the
chunk is packed into one byte and which end in an untagged element. The numbers of height maps
and of block entities are read as an `int` that a loop counts up to, so that a negative one
stands for none; the other numbers are those of prefixed arrays. -/

namespace Zinc.Game

open Throw Buffer Buffer.ByteBuffer Nbt Nbt.NBTElement Text

structure ChunkDataHeightMap where
  type : BitVec 32
  data : List (BitVec 64)

structure ChunkDataBlockEntity where
  x : UInt8
  z : UInt8
  y : BitVec 16
  blockEntityTypeInt : BitVec 32
  data : NBTElement

structure ChunkData where
  heightMaps : List ChunkDataHeightMap
  data : Bytes
  blockEntities : List ChunkDataBlockEntity

/-! ### The codec -/

/-- Both positions in the chunk in one byte. -/
def packXZ (x z : UInt8) : UInt8 := UInt8.ofNat (((x.toNat &&& 15) <<< 4) ||| (z.toNat &&& 15))

def writeHeightMap (heightMap : ChunkDataHeightMap) : Action Unit := do
  writeVarInt heightMap.type
  writePrefixedArray heightMap.data (writeNumeric (k := 8))

def writeBlockEntity (blockEntity : ChunkDataBlockEntity) : Action Unit := do
  writeUnsignedByte (packXZ blockEntity.x blockEntity.z)
  writeNumeric (k := 2) blockEntity.y
  writeVarInt blockEntity.blockEntityTypeInt
  writeNBTElement blockEntity.data

def writeChunkData (data : ChunkData) : Action Unit := do
  writeVarInt (toInt data.heightMaps.length)
  forEach writeHeightMap data.heightMaps
  writePrefixedByteArray data.data
  writeVarInt (toInt data.blockEntities.length)
  forEach writeBlockEntity data.blockEntities

def readHeightMap : Action ChunkDataHeightMap := do
  let type ← readVarInt
  let data ← readPrefixedArray (readNumeric 8)
  pure ⟨type, data⟩

def readBlockEntity (n : ℕ) : Action ChunkDataBlockEntity := do
  let packedXZ ← readUnsignedByte
  let y ← readNumeric 2
  let blockEntityTypeInt ← readVarInt
  let data ← readNBTElement n
  pure ⟨packedXZ >>> 4, packedXZ &&& 15, y, blockEntityTypeInt, data⟩

def readChunkData (n : ℕ) : Action ChunkData := do
  let heightMapsLength ← readVarInt
  let heightMaps ← readArray readHeightMap (rounds heightMapsLength)
  let data ← readPrefixedByteArray
  let blockEntitiesLength ← readVarInt
  let blockEntities ← readArray (readBlockEntity n) (rounds blockEntitiesLength)
  pure ⟨heightMaps, data, blockEntities⟩

/-! ### Which values are compared -/

/-- The fields of a block entity; its element is the tree that it stands for. -/
def ChunkDataBlockEntity.Agrees (blockEntity blockEntity' : ChunkDataBlockEntity) : Prop :=
  blockEntity'.x = blockEntity.x ∧ blockEntity'.z = blockEntity.z ∧
    blockEntity'.y = blockEntity.y ∧
    blockEntity'.blockEntityTypeInt = blockEntity.blockEntityTypeInt ∧
    tree blockEntity'.data = tree blockEntity.data

/-- A position in a chunk, and an element that NBT can hold, without a tag. -/
structure ChunkDataBlockEntity.Admitted (blockEntity : ChunkDataBlockEntity) : Prop where
  x : blockEntity.x ≤ 15
  z : blockEntity.z ≤ 15
  data : (tree blockEntity.data).WellFormed
  tag : blockEntity.data.tag = []

namespace ChunkData

def Agrees (chunk chunk' : ChunkData) : Prop :=
  chunk'.heightMaps = chunk.heightMaps ∧ chunk'.data = chunk.data ∧
    List.Forall₂ ChunkDataBlockEntity.Agrees chunk.blockEntities chunk'.blockEntities

def Admitted (chunk : ChunkData) : Prop :=
  ∀ blockEntity ∈ chunk.blockEntities, blockEntity.Admitted

/-- An `int` can announce all numbers. -/
structure Sized (chunk : ChunkData) : Prop where
  heightMaps : chunk.heightMaps.length < 2 ^ 31
  arrays : ∀ heightMap ∈ chunk.heightMaps, Counted heightMap.data.length
  data : chunk.data.length < 2 ^ 31
  blockEntities : chunk.blockEntities.length < 2 ^ 31

end ChunkData

/-! ### Numbers -/

theorem toNat_packXZ {x z : UInt8} (hx : x ≤ 15) (hz : z ≤ 15) :
    (packXZ x z).toNat = 16 * x.toNat + z.toNat := by
  have hx' : x.toNat ≤ 15 := hx
  have hz' : z.toNat ≤ 15 := hz
  have hmask : ∀ n ≤ 15, n &&& 15 = n := by decide
  rw [packXZ, hmask _ hx', hmask _ hz', ← Nat.shiftLeft_add_eq_or_of_lt (by omega), Nat.shiftLeft_eq,
    UInt8.toNat_ofNat_of_lt' (by change _ < 256; omega)]
  omega

theorem packXZ_shiftRight {x z : UInt8} (hx : x ≤ 15) (hz : z ≤ 15) : packXZ x z >>> 4 = x := by
  have hz' : z.toNat ≤ 15 := hz
  apply UInt8.toNat.inj
  rw [UInt8.toNat_shiftRight, toNat_packXZ hx hz, Nat.shiftRight_eq_div_pow]
  change (16 * x.toNat + z.toNat) / 16 = _
  omega

theorem packXZ_and {x z : UInt8} (hx : x ≤ 15) (hz : z ≤ 15) : packXZ x z &&& 15 = z := by
  have hz' : z.toNat ≤ 15 := hz
  apply UInt8.toNat.inj
  rw [UInt8.toNat_and, toNat_packXZ hx hz]
  change (16 * x.toNat + z.toNat) &&& (2 ^ 4 - 1) = _
  rw [Nat.and_two_pow_sub_one_eq_mod]
  omega

/-! ### Words -/

variable {view : ByteBuffer → Bytes → Prop}

/-- The words of an array of `long`. -/
def longsBytes (values : List (BitVec 64)) : Bytes :=
  prefixedBytes (fun value => numericBytes true (k := 8) value) values

namespace ChunkDataHeightMap

def bytes (heightMap : ChunkDataHeightMap) : Bytes :=
  varIntBytes heightMap.type ++ longsBytes heightMap.data

theorem produces (hv : Writable true view) (heightMap : ChunkDataHeightMap) :
    Produces view (writeHeightMap heightMap) heightMap.bytes :=
  (hv.writeVarInt _).bind (hv.writePrefixedArray fun value _ => hv.writeNumeric (k := 8) value)

theorem consumes (hv : Readable true view) {heightMap : ChunkDataHeightMap}
    (h : Counted heightMap.data.length) :
    Consumes view readHeightMap heightMap.bytes heightMap := by
  have harray : Consumes view (readPrefixedArray (readNumeric 8)) (longsBytes heightMap.data)
      (heightMap.data.map id) :=
    hv.readPrefixedArray_map h fun value _ => hv.readNumeric (k := 8) (by decide) value
  rw [List.map_id] at harray
  exact (hv.readVarInt _).bind (harray.bind_pure _)

theorem yields : Yields (fun heightMap : ChunkDataHeightMap => Counted heightMap.data.length)
    readHeightMap := by
  have harray : Yields (fun values : List (BitVec 64) =>
      Counted values.length ∧ ∀ value ∈ values, True) (readPrefixedArray (readNumeric 8)) :=
    yields_readPrefixedArray fun _ _ _ => trivial
  exact Yields.of_bind fun _ => harray.map _ fun _ h => h.1

end ChunkDataHeightMap

namespace ChunkDataBlockEntity

variable {blockEntity : ChunkDataBlockEntity}

def bytes (blockEntity : ChunkDataBlockEntity) : Bytes :=
  [packXZ blockEntity.x blockEntity.z] ++ (numericBytes true (k := 2) blockEntity.y ++
    (varIntBytes blockEntity.blockEntityTypeInt ++ nbtBytes blockEntity.data))

/-- What is read of a block entity. -/
def readBack (blockEntity : ChunkDataBlockEntity) : ChunkDataBlockEntity :=
  { blockEntity with data := decoded networkSettings (tree blockEntity.data) }

theorem agrees_readBack (h : blockEntity.Admitted) : blockEntity.Agrees blockEntity.readBack :=
  ⟨rfl, rfl, rfl, rfl, tree_decoded h.data _⟩

theorem produces (hv : Writable true view) (h : blockEntity.Admitted) :
    Produces view (writeBlockEntity blockEntity) blockEntity.bytes :=
  (hv.writeByte _).bind <| (hv.writeNumeric (k := 2) _).bind <| (hv.writeVarInt _).bind <|
    produces_writeNBTElement hv h.data h.tag

theorem consumes (h : blockEntity.Admitted) {n : ℕ} (hn : fuel (tree blockEntity.data) ≤ n) :
    Consumes (Stored true) (readBlockEntity n) blockEntity.bytes blockEntity.readBack := by
  have hv := readable_stored true
  refine (hv.readByte _).bind <| (hv.readNumeric (k := 2) (by decide) _).bind <|
    (hv.readVarInt _).bind ?_
  rw [packXZ_shiftRight h.x h.z, packXZ_and h.x h.z]
  exact (consumes_readNBTElement h.data h.tag hn).bind_pure _

end ChunkDataBlockEntity

/-! ### Chunk data come back -/

namespace ChunkData

variable {chunk : ChunkData}

def bytes (chunk : ChunkData) : Bytes :=
  varIntBytes (toInt chunk.heightMaps.length) ++
    (chunk.heightMaps.flatMap ChunkDataHeightMap.bytes ++ (stringBytes chunk.data ++
      (varIntBytes (toInt chunk.blockEntities.length) ++
        chunk.blockEntities.flatMap ChunkDataBlockEntity.bytes)))

def readBack (chunk : ChunkData) : ChunkData :=
  { chunk with blockEntities := chunk.blockEntities.map ChunkDataBlockEntity.readBack }

theorem agrees_readBack (h : chunk.Admitted) : chunk.Agrees chunk.readBack := by
  refine ⟨rfl, rfl, ?_⟩
  rw [readBack, List.forall₂_map_right_iff, List.forall₂_same]
  exact fun blockEntity hmem => ChunkDataBlockEntity.agrees_readBack (h blockEntity hmem)

theorem produces (hv : Writable true view) (h : chunk.Admitted) :
    Produces view (writeChunkData chunk) chunk.bytes :=
  (hv.writeVarInt _).bind <|
    (Produces.forEach _ _ fun heightMap _ => heightMap.produces hv).bind <|
      (hv.writeString _).bind <| (hv.writeVarInt _).bind <|
        Produces.forEach _ _ fun blockEntity hmem =>
          ChunkDataBlockEntity.produces hv (h blockEntity hmem)

theorem consumes (h : chunk.Admitted) (hsized : chunk.Sized) : ∃ bound, ∀ n ≥ bound,
    Consumes (Stored true) (readChunkData n) chunk.bytes chunk.readBack := by
  have hv := readable_stored true
  obtain ⟨bound, hbound⟩ := exists_bound (P := fun blockEntity n => fuel (tree blockEntity.data) ≤ n)
    chunk.blockEntities fun blockEntity _ => ⟨_, fun _ => id⟩
  refine ⟨bound, fun n hn => ?_⟩
  have hmaps := Consumes.replicate ChunkDataHeightMap.bytes chunk.heightMaps
    fun heightMap hmem => ChunkDataHeightMap.consumes hv (hsized.arrays heightMap hmem)
  have hentities := Consumes.replicate_map ChunkDataBlockEntity.bytes ChunkDataBlockEntity.readBack
    chunk.blockEntities fun blockEntity hmem =>
      ChunkDataBlockEntity.consumes (h blockEntity hmem) (hbound blockEntity hmem n hn)
  refine (hv.readVarInt _).bind ?_
  rw [rounds_toInt hsized.heightMaps]
  refine hmaps.bind <| (hv.readString hsized.data).bind <| (hv.readVarInt _).bind ?_
  rw [rounds_toInt hsized.blockEntities]
  exact hentities.bind_pure _

/-- What was read was announced by an `int`. -/
theorem yields (n : ℕ) : Yields Sized (readChunkData n) := by
  have hmaps (length : BitVec 32) := ChunkDataHeightMap.yields.replicate (rounds length)
  have hentities (length : BitVec 32) := Yields.replicate (P := fun _ => True)
    (x := readBlockEntity n) (fun _ _ _ => trivial) (rounds length)
  have hdata : Yields (fun value : Bytes => value.length < 2 ^ 31) readPrefixedByteArray :=
    yields_readString
  refine Yields.of_bind fun length => (hmaps length).bind fun heightMaps hfirst =>
    hdata.bind fun data hbytes => Yields.of_bind fun length' => (hentities length').map _ ?_
  intro blockEntities hsecond
  exact ⟨by rw [hfirst.1]; exact rounds_lt length, hfirst.2, hbytes,
    by rw [hsecond.1]; exact rounds_lt length'⟩

theorem Agrees.sized {chunk' : ChunkData} (h : chunk.Agrees chunk') (hsized : chunk'.Sized) :
    chunk.Sized := by
  obtain ⟨hmaps, hdata, hentities⟩ := h
  obtain ⟨hcount, harrays, hbytes, hcount'⟩ := hsized
  rw [hmaps] at hcount harrays
  rw [hdata] at hbytes
  rw [← hentities.length_eq] at hcount'
  exact ⟨hcount, harrays, hbytes, hcount'⟩

/-- Chunk data come back exactly when an `int` can announce all their numbers. -/
theorem restores_chunkData_iff (chunk : ChunkData) (h : chunk.Admitted) :
    Restores true (writeChunkData chunk) readChunkData chunk.Agrees ↔ chunk.Sized := by
  constructor
  · intro hrestores
    obtain ⟨chunk', hagrees, hsized⟩ := hrestores.exists_yields yields
    exact hagrees.sized hsized
  · intro hsized
    obtain ⟨bound, hbound⟩ := consumes h hsized
    exact restores_of_consumes (produces (writable_stored true) h) hbound (agrees_readBack h)

/-- A height map and two block entities, the second of which has an element with children. -/
def sample : ChunkData where
  heightMaps := [⟨4, [-1, 7]⟩]
  data := [1, 2, 3]
  blockEntities := [⟨15, 0, -60, 1, compound [] []⟩, ⟨3, 12, 200, 9, compound [] [byte [97] 1]⟩]

theorem restores_chunkData_iff_sample :
    Restores true (writeChunkData sample) readChunkData sample.Agrees ↔ sample.Sized := by
  apply restores_chunkData_iff
  intro blockEntity hmem
  simp only [sample, List.mem_cons, List.not_mem_nil, or_false] at hmem
  rcases hmem with rfl | rfl
  · exact ⟨by decide, by decide, Tree.wellFormed_of_fits _ rfl, rfl⟩
  · exact ⟨by decide, by decide, Tree.wellFormed_of_fits _ rfl, rfl⟩

/-- More bytes than an `int` can announce. -/
theorem not_restores_long : ¬ ∀ chunk : ChunkData, chunk.Admitted →
    Restores true (writeChunkData chunk) readChunkData chunk.Agrees := by
  intro h
  obtain ⟨chunk', hagrees, hsized⟩ :=
    (h ⟨[], List.replicate (2 ^ 31) 0, []⟩ fun _ hmem => absurd hmem List.not_mem_nil).exists_yields
      yields
  have hdata := (hagrees.sized hsized).data
  rw [List.length_replicate] at hdata
  exact lt_irrefl _ hdata

end ChunkData

end Zinc.Game
