import Zinc.Bits.Longs

/-! Light data: four masks and two lists of light arrays. They are written to a buffer of their
own, which is big-endian, and read from the buffer that its bytes were written to. So a buffer
in the default byte order gives the masks back as sets, and another one only masks whose words
read the same in both orders. The bytes are those of the sets and the arrays alone. -/

namespace Zinc.Game

open Throw Buffer Buffer.ByteBuffer Bits

structure LightData where
  skyLightMask : BitSet
  blockLightMask : BitSet
  emptySkyLightMask : BitSet
  emptyBlockLightMask : BitSet
  skyLightArrays : List Bytes
  blockLightArrays : List Bytes

namespace LightData

/-! ### The codec -/

/-- What `toBytes` writes to a buffer of its own. -/
def encode (data : LightData) : Action Unit := do
  writeBitSet data.skyLightMask
  writeBitSet data.blockLightMask
  writeBitSet data.emptySkyLightMask
  writeBitSet data.emptyBlockLightMask
  writePrefixedArray data.skyLightArrays writePrefixedByteArray
  writePrefixedArray data.blockLightArrays writePrefixedByteArray

def toBytes (data : LightData) : Except Fault Bytes := bytesOf data.encode

end LightData

def writeLightData (data : LightData) : Action Unit := fun buffer => do
  let bytes ← data.toBytes
  writeByteArray bytes buffer

def readLightData : Action LightData := do
  let skyLightMask ← readBitSet
  let blockLightMask ← readBitSet
  let emptySkyLightMask ← readBitSet
  let emptyBlockLightMask ← readBitSet
  let skyLightArrays ← readPrefixedArray readPrefixedByteArray
  let blockLightArrays ← readPrefixedArray readPrefixedByteArray
  pure ⟨skyLightMask, blockLightMask, emptySkyLightMask, emptyBlockLightMask, skyLightArrays,
    blockLightArrays⟩

namespace LightData

variable {view : ByteBuffer → Bytes → Prop} {e : Bool} {data data' : LightData}

/-! ### Which values are compared -/

def masks (data : LightData) : List BitSet :=
  [data.skyLightMask, data.blockLightMask, data.emptySkyLightMask, data.emptyBlockLightMask]

/-- The masks are the same sets, and the arrays are the same. -/
structure Same (data data' : LightData) : Prop where
  skyLightMask : data'.skyLightMask.Same data.skyLightMask
  blockLightMask : data'.blockLightMask.Same data.blockLightMask
  emptySkyLightMask : data'.emptySkyLightMask.Same data.emptySkyLightMask
  emptyBlockLightMask : data'.emptyBlockLightMask.Same data.emptyBlockLightMask
  skyLightArrays : data'.skyLightArrays = data.skyLightArrays
  blockLightArrays : data'.blockLightArrays = data.blockLightArrays

/-- The masks are made by the operations on sets. -/
def Made (data : LightData) : Prop := ∀ mask ∈ data.masks, ∃ s, BitSet.Reachable mask s

/-- An `int` can announce the arrays of a list and their bytes. -/
def ArraysSized (arrays : List Bytes) : Prop :=
  Counted arrays.length ∧ ∀ bytes ∈ arrays, bytes.length < 2 ^ 31

/-- An `int` can announce all numbers. -/
structure Sized (data : LightData) : Prop where
  masks : ∀ mask ∈ data.masks, Counted mask.toLongArray.length
  skyLightArrays : ArraysSized data.skyLightArrays
  blockLightArrays : ArraysSized data.blockLightArrays

/-! ### Words -/

def bytes (data : LightData) : Bytes :=
  maskBytes data.skyLightMask ++ (maskBytes data.blockLightMask ++
    (maskBytes data.emptySkyLightMask ++ (maskBytes data.emptyBlockLightMask ++
      (prefixedBytes stringBytes data.skyLightArrays ++
        prefixedBytes stringBytes data.blockLightArrays))))

/-- What a buffer reads of the word of light data. -/
def readBack (e : Bool) (data : LightData) : LightData :=
  { data with
    skyLightMask := readMask e data.skyLightMask
    blockLightMask := readMask e data.blockLightMask
    emptySkyLightMask := readMask e data.emptySkyLightMask
    emptyBlockLightMask := readMask e data.emptyBlockLightMask }

theorem produces_encode (hv : Writable true view) (data : LightData) :
    Produces view data.encode data.bytes := by
  have harrays (arrays : List Bytes) : Produces view
      (writePrefixedArray arrays writePrefixedByteArray) (prefixedBytes stringBytes arrays) :=
    hv.writePrefixedArray fun bytes _ => hv.writeString bytes
  exact (produces_writeBitSet hv _).bind <| (produces_writeBitSet hv _).bind <|
    (produces_writeBitSet hv _).bind <| (produces_writeBitSet hv _).bind <|
      (harrays _).bind (harrays _)

theorem toBytes_eq (data : LightData) : data.toBytes = .ok data.bytes :=
  bytesOf_eq (produces_encode (writable_fresh true) data)

theorem produces_writeLightData (hv : Writable e view) (data : LightData) :
    Produces view (writeLightData data) data.bytes :=
  hv.writeBytesOf (produces_encode (writable_fresh true) data)

theorem consumes_arrays (hv : Readable e view) {arrays : List Bytes} (h : ArraysSized arrays) :
    Consumes view (readPrefixedArray readPrefixedByteArray) (prefixedBytes stringBytes arrays)
      arrays := by
  have harray : Consumes view (readPrefixedArray readPrefixedByteArray)
      (prefixedBytes stringBytes arrays) (arrays.map id) :=
    hv.readPrefixedArray_map h.1 fun bytes hmem => hv.readString (h.2 bytes hmem)
  rwa [List.map_id] at harray

theorem consumes_readLightData (hv : Readable e view) (h : data.Sized) :
    Consumes view readLightData data.bytes (data.readBack e) := by
  obtain ⟨hmasks, hsky, hblock⟩ := h
  simp only [masks, List.forall_mem_cons] at hmasks
  obtain ⟨hfirst, hsecond, hthird, hfourth, -⟩ := hmasks
  exact (consumes_readBitSet hv hfirst).bind <| (consumes_readBitSet hv hsecond).bind <|
    (consumes_readBitSet hv hthird).bind <| (consumes_readBitSet hv hfourth).bind <|
      (consumes_arrays hv hsky).bind <| (consumes_arrays hv hblock).bind_pure _

/-! ### Light data come back -/

/-- What was read are the same masks if all words read the same. -/
theorem same_readBack_iff (h : data.Made) :
    data.Same (data.readBack e) ↔ ∀ mask ∈ data.masks, Uncrossed e mask := by
  simp only [Made, masks, List.forall_mem_cons] at h ⊢
  obtain ⟨⟨_, hfirst⟩, ⟨_, hsecond⟩, ⟨_, hthird⟩, ⟨_, hfourth⟩, -⟩ := h
  rw [← hfirst.holds.same_readMask_iff, ← hsecond.holds.same_readMask_iff,
    ← hthird.holds.same_readMask_iff, ← hfourth.holds.same_readMask_iff]
  constructor
  · intro hsame
    exact ⟨hsame.skyLightMask, hsame.blockLightMask, hsame.emptySkyLightMask,
      hsame.emptyBlockLightMask, fun _ hmem => absurd hmem List.not_mem_nil⟩
  · rintro ⟨hsky, hblock, hemptySky, hemptyBlock, -⟩
    exact ⟨hsky, hblock, hemptySky, hemptyBlock, rfl, rfl⟩

/-- The same masks have the same words. -/
theorem bytes_of_same (h : data.Made) (h' : data'.Made) (hsame : data.Same data') :
    data.bytes = data'.bytes := by
  have hmask {b b' : BitSet} (hb : ∃ s, BitSet.Reachable b s) (hb' : ∃ s, BitSet.Reachable b' s)
      (hsame : b'.Same b) : maskBytes b = maskBytes b' := by
    obtain ⟨s, hb⟩ := hb
    obtain ⟨t, hb'⟩ := hb'
    have hset := (hb'.holds.same_iff hb.holds).mp hsame
    rw [maskBytes, maskBytes, (hb.holds.toLongArray_eq_iff hb'.holds).mpr hset.symm]
  simp only [Made, masks, List.forall_mem_cons] at h h'
  obtain ⟨hfirst, hsecond, hthird, hfourth, -⟩ := h
  obtain ⟨hfirst', hsecond', hthird', hfourth', -⟩ := h'
  rw [bytes, bytes, hmask hfirst hfirst' hsame.skyLightMask,
    hmask hsecond hsecond' hsame.blockLightMask, hmask hthird hthird' hsame.emptySkyLightMask,
    hmask hfourth hfourth' hsame.emptyBlockLightMask, hsame.skyLightArrays, hsame.blockLightArrays]

theorem Same.trans {data'' : LightData} (h : data.Same data') (h' : data''.Same data') :
    data.Same data'' where
  skyLightMask p := (h'.skyLightMask p).symm.trans (h.skyLightMask p)
  blockLightMask p := (h'.blockLightMask p).symm.trans (h.blockLightMask p)
  emptySkyLightMask p := (h'.emptySkyLightMask p).symm.trans (h.emptySkyLightMask p)
  emptyBlockLightMask p := (h'.emptyBlockLightMask p).symm.trans (h.emptyBlockLightMask p)
  skyLightArrays := h'.skyLightArrays.symm.trans h.skyLightArrays
  blockLightArrays := h'.blockLightArrays.symm.trans h.blockLightArrays

theorem same_readBack (h : data.Made) : data.Same (data.readBack true) :=
  (same_readBack_iff h).mpr fun mask _ => uncrossed_true mask

/-- The same words are read in one way. -/
theorem same_of_bytes (h : data.Made) (h' : data'.Made) (hsized : data.Sized)
    (hsized' : data'.Sized) (hbytes : data.bytes = data'.bytes) : data.Same data' := by
  have hread := consumes_readLightData (readable_stored true) hsized
  rw [hbytes] at hread
  have hback := unique_of_consumes hread (consumes_readLightData (readable_stored true) hsized')
  have hsame := same_readBack h
  rw [hback] at hsame
  exact hsame.trans (same_readBack h')

/-- A buffer of any byte order gives back the light data whose words read the same. -/
theorem restores_iff_uncrossed (h : data.Made) (hsized : data.Sized) :
    Restores e (writeLightData data) (fun _ => readLightData) data.Same ↔
      ∀ mask ∈ data.masks, Uncrossed e mask := by
  have hwrite := produces_writeLightData (writable_stored e) data
  rw [restores_iff (v := []) (m := 0) (by rwa [List.append_nil]) fun _ _ =>
    consumes_readLightData (readable_stored e) hsized, and_iff_right rfl, same_readBack_iff h]

/-- Light data that an `int` can announce come back, and their bytes tell them apart from others
with other sets or arrays only. -/
theorem lightData_codec (data : LightData) (h : data.Made) (hsized : data.Sized) :
    Restores true (writeLightData data) (fun _ => readLightData) data.Same ∧
    ∀ data' : LightData, data'.Made → data'.Sized →
      (data.toBytes = data'.toBytes ↔ data.Same data') := by
  refine ⟨(restores_iff_uncrossed h hsized).mpr fun mask _ => uncrossed_true mask,
    fun data' h' hsized' => ?_⟩
  rw [toBytes_eq, toBytes_eq, Except.ok.injEq]
  exact ⟨same_of_bytes h h' hsized hsized', bytes_of_same h h'⟩

/-- A mask whose last words were cleared. -/
def sample : LightData where
  skyLightMask := ((BitSet.new.set 300).set 3).clear 300
  blockLightMask := .new
  emptySkyLightMask := .ofSize 100
  emptyBlockLightMask := BitSet.new.set 64
  skyLightArrays := [[1, 2], []]
  blockLightArrays := []

theorem lightData_codec_sample :
    Restores true (writeLightData sample) (fun _ => readLightData) sample.Same ∧
    ∀ data' : LightData, data'.Made → data'.Sized →
      (sample.toBytes = data'.toBytes ↔ sample.Same data') := by
  apply lightData_codec sample
  · simp only [Made, sample, masks, List.forall_mem_cons]
    exact ⟨⟨_, ((BitSet.Reachable.new.set (by decide)).set (by decide)).clear 300⟩,
      ⟨_, BitSet.Reachable.new⟩, ⟨_, BitSet.Reachable.ofSize 100⟩,
      ⟨_, BitSet.Reachable.new.set (by decide)⟩, fun _ hmem => absurd hmem List.not_mem_nil⟩
  · have hlength : ∀ mask ∈ sample.masks, mask.toLongArray.length < 2 ^ 31 := by decide
    have hbytes : ∀ bytes ∈ sample.skyLightArrays, bytes.length < 2 ^ 31 := by decide
    exact ⟨fun mask hmem => counted_of_lt (hlength mask hmem), ⟨counted_of_lt (by decide), hbytes⟩,
      ⟨counted_of_lt (by decide), fun _ hmem => absurd hmem List.not_mem_nil⟩⟩

/-! ### Numbers that an `int` cannot announce -/

/-- Light data without masks. -/
def arraysOnly (skyLightArrays blockLightArrays : List Bytes) : LightData :=
  ⟨.new, .new, .new, .new, skyLightArrays, blockLightArrays⟩

theorem made_arraysOnly (skyLightArrays blockLightArrays : List Bytes) :
    (arraysOnly skyLightArrays blockLightArrays).Made := by
  have hnew : ∃ s, BitSet.Reachable BitSet.new s := ⟨_, BitSet.Reachable.new⟩
  simp only [Made, arraysOnly, masks, List.forall_mem_cons]
  exact ⟨hnew, hnew, hnew, hnew, fun _ hmem => absurd hmem List.not_mem_nil⟩

/-- No array that was read is longer than what an `int` can announce. -/
theorem yields_readLightData : Yields (fun data : LightData => ∀ bytes ∈ data.blockLightArrays,
    bytes.length < 2 ^ 31) readLightData := by
  have hbytes : Yields (fun value : Bytes => value.length < 2 ^ 31) readPrefixedByteArray :=
    yields_readString
  refine Yields.of_bind fun _ => Yields.of_bind fun _ => Yields.of_bind fun _ =>
    Yields.of_bind fun _ => Yields.of_bind fun _ => ?_
  exact (yields_readPrefixedArray hbytes).map _ fun arrays harrays => harrays.2

/-- Empty arrays, as many as an `int` takes for none. -/
theorem bytes_empty {n : ℕ} (hn : toInt n = 0) :
    prefixedBytes stringBytes (List.replicate n []) = List.replicate (n + 1) 0 := by
  have hzero : varIntBytes 0 = [0] := by decide
  have hempty : stringBytes [] = [0] := by decide
  rw [prefixedBytes, List.length_replicate, hn, hzero, List.flatMap_replicate, hempty,
    List.flatten_replicate_singleton, List.replicate_succ, List.singleton_append]

theorem not_lightData_codec :
    (¬ ∀ data : LightData, data.Made →
      Restores true (writeLightData data) (fun _ => readLightData) data.Same) ∧
    ¬ ∀ data data' : LightData, data.Made → data'.Made →
      (data.toBytes = data'.toBytes ↔ data.Same data') := by
  constructor
  · intro h
    obtain ⟨data', hsame, hyields⟩ := (h (arraysOnly [] [List.replicate (2 ^ 31) 0])
      (made_arraysOnly _ _)).exists_yields fun _ => yields_readLightData
    rw [hsame.blockLightArrays] at hyields
    have hlength := hyields _ List.mem_cons_self
    rw [List.length_replicate] at hlength
    exact lt_irrefl _ hlength
  · intro h
    obtain ⟨n, hpos, hn⟩ : ∃ n, 0 < n ∧ toInt n = 0 := ⟨2 ^ 32, by decide, by decide⟩
    have hnone := bytes_empty (n := 0) rfl
    have hbytes : (arraysOnly (List.replicate n []) []).bytes =
        (arraysOnly [] (List.replicate n [])).bytes := by
      unfold bytes arraysOnly
      rw [bytes_empty hn, ← List.replicate_zero (a := []), hnone, List.replicate_append_replicate,
        List.replicate_append_replicate, Nat.add_comm]
    have hsame := h _ _ (made_arraysOnly (List.replicate n []) [])
      (made_arraysOnly [] (List.replicate n []))
    rw [toBytes_eq, toBytes_eq, hbytes] at hsame
    have hlength := congrArg List.length (hsame.mp rfl).blockLightArrays
    rw [arraysOnly, List.length_replicate] at hlength
    exact absurd hlength hpos.ne'

end LightData

end Zinc.Game
