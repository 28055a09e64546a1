import Zinc.Base.ShiftRegister
import Zinc.Buffer.Internal

/-! The checksum of hashed slots. The table holds what each byte becomes in eight shifts of the
register, and is filled by the first call of `initCRC32` only. A checksum looks up one word for
each byte; its definition clocks the register once for each bit. -/

namespace Zinc.Util

open Buffer

/-! ### The table -/

/-- The globals of the unit. -/
structure CRC32 where
  crc32Table : Vector (BitVec 32) 256
  isCRC32Init : Bool

namespace CRC32

def polynomial : BitVec 32 := 0xEDB88320

/-- The globals when the program starts. -/
def new : CRC32 := ⟨Vector.replicate 256 0, false⟩

/-- One turn of the inner loop of `initCRC32`. -/
def step (c : BitVec 32) : BitVec 32 :=
  if c &&& 1 ≠ 0 then (c >>> 1) ^^^ polynomial else c >>> 1

/-- The inner loop. -/
def entry (i : Fin 256) : BitVec 32 := (List.range 8).foldl (fun c _ => step c) (BitVec.ofNat 32 i)

/-- The outer loop. -/
def fill (table : Vector (BitVec 32) 256) : Vector (BitVec 32) 256 :=
  (List.finRange 256).foldl (fun table i => table.set i.val (entry i) i.isLt) table

def initCRC32 (state : CRC32) : CRC32 :=
  if state.isCRC32Init then state else ⟨fill state.crc32Table, true⟩

/-- The loop of `crc32`, from any value of `crc`; the table is not read outside. -/
def crc32Loop (state : CRC32) : BitVec 32 → Bytes → Option (BitVec 32)
  | crc, [] => some crc
  | crc, d :: data => do
    let word ← state.crc32Table[((crc &&& 0xFF) ^^^ d.toBitVec.setWidth 32).toNat]?
    crc32Loop state ((crc >>> 8) ^^^ word) data

def crc32 (state : CRC32) (data : Bytes) : Option (BitVec 32) :=
  (state.crc32Loop 0xFFFFFFFF data).map (· ^^^ 0xFFFFFFFF)

/-! ### The definition -/

/-- The bits of the data in the order in which they are sent. -/
def dataBits (data : Bytes) : List Bool :=
  data.flatMap fun d => ShiftRegister.bits 8 (d.toBitVec.setWidth 32)

/-- The register after data, clocked once for each bit. -/
def register (crc : BitVec 32) (data : Bytes) : BitVec 32 :=
  ShiftRegister.feed polynomial crc (dataBits data)

/-- The reflected CRC-32. -/
def checksum (data : Bytes) : BitVec 32 := register 0xFFFFFFFF data ^^^ 0xFFFFFFFF

theorem register_append (crc : BitVec 32) (a b : Bytes) :
    register crc (a ++ b) = register (register crc a) b := by
  rw [register, dataBits, List.flatMap_append, ShiftRegister.feed_append]
  rfl

theorem register_cons (crc : BitVec 32) (d : UInt8) (data : Bytes) :
    register crc (d :: data) = register (register crc [d]) data :=
  register_append crc [d] data

/-! ### What the table holds -/

theorem step_eq : step = ShiftRegister.shift polynomial := by
  funext c
  have hlow : c &&& 1 ≠ 0 ↔ c.getLsbD 0 = true := by
    have hone : c &&& 1 = (BitVec.ofBool (c.getLsbD 0)).setWidth 32 :=
      BitVec.and_one_eq_setWidth_ofBool_getLsbD
    rw [hone]
    cases c.getLsbD 0 <;> decide
  simp only [step, ShiftRegister.shift, hlow]

theorem entry_eq (i : Fin 256) :
    entry i = (ShiftRegister.shift polynomial)^[8] (BitVec.ofNat 32 i) := by
  rw [entry, List.foldl_const, List.length_range, step_eq]

/-- Some slots of a vector set one after the other. -/
theorem getElem_foldl_set {α : Type} {n : ℕ} (f : Fin n → α) (slots : List (Fin n))
    (table : Vector α n) (i : Fin n) :
    (slots.foldl (fun table j => table.set j.val (f j) j.isLt) table)[i.val] =
      if i ∈ slots then f i else table[i.val] := by
  induction slots generalizing table with
  | nil => rfl
  | cons j slots ih =>
    rw [List.foldl_cons, ih]
    by_cases hmem : i ∈ slots
    · simp [hmem]
    · by_cases hij : i = j
      · subst hij
        simp [hmem]
      · have hne : j.val ≠ i.val := fun h => hij (Fin.ext h.symm)
        simp [hmem, hij, Vector.getElem_set_ne, hne]

/-- The globals after the table was filled. -/
structure Ready (state : CRC32) : Prop where
  isCRC32Init : state.isCRC32Init = true
  crc32Table : ∀ i : Fin 256, state.crc32Table[i.val] = entry i

theorem ready_initCRC32 {state : CRC32} (h : state.isCRC32Init = false) :
    Ready state.initCRC32 := by
  have hfill : state.initCRC32 = ⟨fill state.crc32Table, true⟩ := by simp [initCRC32, h]
  rw [hfill]
  refine ⟨rfl, fun i => ?_⟩
  simp only [fill, getElem_foldl_set, List.mem_finRange, if_true]

/-- A further call returns at once. -/
theorem Ready.initCRC32 {state : CRC32} (h : Ready state) : state.initCRC32 = state :=
  if_pos h.isCRC32Init

theorem ready_iterate (n : ℕ) : Ready (initCRC32^[n + 1] new) := by
  induction n with
  | zero =>
    have hnew : new.isCRC32Init = false := rfl
    rw [zero_add, Function.iterate_one]
    exact ready_initCRC32 hnew
  | succ n ih =>
    rw [Function.iterate_succ_apply', ih.initCRC32]
    exact ih

/-! ### A byte at a time -/

theorem getLsbD_mask (i : ℕ) : (0xFF : BitVec 32).getLsbD i = decide (i < 8) := by
  change (BitVec.ofNat 32 (2 ^ 8 - 1)).getLsbD i = _
  rw [BitVec.getLsbD_ofNat, Nat.testBit_two_pow_sub_one]
  by_cases hi : i < 8
  · simp [hi, show i < 32 by omega]
  · simp [hi]

/-- A byte has nothing above its eight bits. -/
theorem symbol_high (d : UInt8) : d.toBitVec.setWidth 32 >>> 8 = 0#32 := by
  apply BitVec.eq_of_getLsbD_eq
  intro i hi
  rw [BitVec.getLsbD_ushiftRight, BitVec.getLsbD_setWidth, BitVec.getLsbD_of_ge _ _ (by omega)]
  simp

/-- Neither has what the table is indexed with. -/
theorem index_high (crc : BitVec 32) (d : UInt8) :
    ((crc &&& 0xFF) ^^^ d.toBitVec.setWidth 32) >>> 8 = 0#32 := by
  rw [BitVec.ushiftRight_xor_distrib, symbol_high, BitVec.xor_zero]
  apply BitVec.eq_of_getLsbD_eq
  intro i hi
  rw [BitVec.getLsbD_ushiftRight, BitVec.getLsbD_and, getLsbD_mask]
  simp

theorem index_lt (crc : BitVec 32) (d : UInt8) :
    ((crc &&& 0xFF) ^^^ d.toBitVec.setWidth 32).toNat < 256 := by
  have hshift := congrArg BitVec.toNat (index_high crc d)
  rw [BitVec.toNat_ushiftRight, Nat.shiftRight_eq_div_pow] at hshift
  exact (Nat.div_eq_zero_iff.mp hshift).resolve_left (by decide)

/-- The register after one byte, by the word of the table. -/
theorem register_singleton (crc : BitVec 32) (d : UInt8) :
    register crc [d] = (crc >>> 8) ^^^ entry ⟨_, index_lt crc d⟩ := by
  have hbits : ∀ i < 8, ((crc &&& 0xFF) ^^^ d.toBitVec.setWidth 32).getLsbD i =
      (crc ^^^ d.toBitVec.setWidth 32).getLsbD i := by
    intro i hi
    rw [BitVec.getLsbD_xor, BitVec.getLsbD_xor, BitVec.getLsbD_and, getLsbD_mask,
      decide_eq_true hi, Bool.and_true]
  rw [entry_eq, BitVec.ofNat_toNat, BitVec.setWidth_eq, register, dataBits, List.flatMap_singleton,
    ShiftRegister.feed_bits polynomial (by decide) 8 crc _ (symbol_high d),
    ShiftRegister.iterate_shift_eq polynomial 8 _ _ hbits (index_high crc d),
    BitVec.ushiftRight_xor_distrib, symbol_high, BitVec.xor_zero]

/-- The loop stays inside the table and computes the register of the definition. -/
theorem Ready.crc32Loop {state : CRC32} (h : Ready state) (crc : BitVec 32) (data : Bytes) :
    state.crc32Loop crc data = some (register crc data) := by
  induction data generalizing crc with
  | nil => rfl
  | cons d data ih =>
    have hword := h.crc32Table ⟨_, index_lt crc d⟩
    rw [CRC32.crc32Loop, Vector.getElem?_eq_getElem (index_lt crc d), Option.bind_eq_bind,
      Option.bind_some, hword, ← register_singleton, ih, ← register_cons]

/-- After any number of initialisations the checksum is the one of the definition, and the
register can be continued from where earlier data left it. -/
theorem crc32_eq (n : ℕ) (data a b : Bytes) (crc : BitVec 32) :
    (initCRC32^[n + 1] new).crc32 data = some (checksum data) ∧
      (initCRC32^[n + 1] new).crc32Loop crc (a ++ b) =
        ((initCRC32^[n + 1] new).crc32Loop crc a).bind fun crc' =>
          (initCRC32^[n + 1] new).crc32Loop crc' b := by
  have hready := ready_iterate n
  constructor
  · rw [crc32, hready.crc32Loop]
    rfl
  · rw [hready.crc32Loop, hready.crc32Loop, Option.bind_some, hready.crc32Loop, register_append]

example : checksum [49, 50, 51, 52, 53, 54, 55, 56, 57] = 0xCBF43926 := by decide +kernel

end CRC32

end Zinc.Util
