import Zinc.Base.Arguments
import Zinc.Buffer.View

/-! Vectors and player locations in a buffer. The readers pass calls of other readers as the
arguments of a constructor, and the order in which these are evaluated is open; here it is a
parameter. A float is its bit pattern, and the two conversions between an angle and its byte are
parameters as well. -/

namespace Zinc.Buffer

open Throw ByteBuffer

structure Vector2 (α : Type) where
  x : α
  y : α
  deriving DecidableEq

structure Vector3 (α : Type) where
  x : α
  y : α
  z : α
  deriving DecidableEq, Inhabited

structure PlayerLocation where
  position : Vector3 (BitVec 32)
  pitch : BitVec 32
  headYaw : BitVec 32
  yaw : BitVec 32
  deriving DecidableEq

namespace ByteBuffer

/-! ### Readers and writers -/

def writeVector3 (vector : Vector3 (BitVec 32)) : Action Unit := do
  writeNumeric (k := 4) vector.x
  writeNumeric (k := 4) vector.y
  writeNumeric (k := 4) vector.z

def readVector3 (order : EvalOrder (Fin 3)) : Action (Vector3 (BitVec 32)) := do
  let argument ← evaluate order fun _ => readNumeric 4
  return ⟨argument 0, argument 1, argument 2⟩

def writeVector2 (vector : Vector2 (BitVec 32)) : Action Unit := do
  writeNumeric (k := 4) vector.x
  writeNumeric (k := 4) vector.y

def readVector2 (order : EvalOrder (Fin 2)) : Action (Vector2 (BitVec 32)) := do
  let argument ← evaluate order fun _ => readNumeric 4
  return ⟨argument 0, argument 1⟩

def writeBlockCoordinates (blockCoordinates : Vector3 (BitVec 32)) : Action Unit := do
  writeVarInt blockCoordinates.x
  writeVarInt blockCoordinates.y
  writeVarInt blockCoordinates.z

def readBlockCoordinates (order : EvalOrder (Fin 3)) : Action (Vector3 (BitVec 32)) := do
  let argument ← evaluate order fun _ => readVarInt
  return ⟨argument 0, argument 1, argument 2⟩

/-- `toByte` multiplies with 0.71 and casts to a `char`. -/
def writePlayerLocation (toByte : BitVec 32 → UInt8) (playerLocation : PlayerLocation) :
    Action Unit := do
  writeVector3 playerLocation.position
  writeByte (toByte playerLocation.pitch)
  writeByte (toByte playerLocation.headYaw)
  writeByte (toByte playerLocation.yaw)

/-- The arguments of `PlayerLocation(const Vector3f&, const float&, const float&, const float&)`. -/
inductive LocationArgument where
  | position
  | pitch
  | headYaw
  | yaw
  deriving DecidableEq

abbrev LocationArgument.Value : LocationArgument → Type
  | .position => Vector3 (BitVec 32)
  | .pitch | .headYaw | .yaw => BitVec 32

instance : (argument : LocationArgument) → Inhabited argument.Value
  | .position => inferInstanceAs (Inhabited (Vector3 (BitVec 32)))
  | .pitch | .headYaw | .yaw => inferInstanceAs (Inhabited (BitVec 32))

/-- `toAngle` divides by 0.71 and casts to a `float`. -/
def readAngle (toAngle : UInt8 → BitVec 32) : Action (BitVec 32) := do
  return toAngle (← readByte)

def readLocationArgument (toAngle : UInt8 → BitVec 32) (order : EvalOrder (Fin 3)) :
    (argument : LocationArgument) → Action argument.Value
  | .position => readVector3 order
  | .pitch | .headYaw | .yaw => readAngle toAngle

/-- The arguments are evaluated in an order, and those of the position in one of their own. -/
def readPlayerLocation (toAngle : UInt8 → BitVec 32) (order : EvalOrder LocationArgument)
    (position : EvalOrder (Fin 3)) : Action PlayerLocation := do
  let argument ← evaluate order (readLocationArgument toAngle position)
  return ⟨argument .position, argument .pitch, argument .headYaw, argument .yaw⟩

end ByteBuffer

/-! ### Components -/

def Vector2.components {α : Type} (vector : Vector2 α) : Fin 2 → α
  | 0 => vector.x
  | 1 => vector.y

def Vector3.components {α : Type} (vector : Vector3 α) : Fin 3 → α
  | 0 => vector.x
  | 1 => vector.y
  | 2 => vector.z

/-- A location with the bytes of its angles. -/
structure RawLocation where
  position : Vector3 (BitVec 32)
  pitch : UInt8
  headYaw : UInt8
  yaw : UInt8

namespace RawLocation

/-- The location with the angles of the bytes. -/
def location (toAngle : UInt8 → BitVec 32) (raw : RawLocation) : PlayerLocation :=
  ⟨raw.position, toAngle raw.pitch, toAngle raw.headYaw, toAngle raw.yaw⟩

/-- The bytes that the arguments are read from. -/
def bytes (isBigEndian : Bool) (position : EvalOrder (Fin 3)) (raw : RawLocation) :
    LocationArgument → Bytes
  | .position => position.list.flatMap fun i =>
      numericBytes (k := 4) isBigEndian (raw.position.components i)
  | .pitch => [raw.pitch]
  | .headYaw => [raw.headYaw]
  | .yaw => [raw.yaw]

/-- The bytes in the order in which they are written. -/
def written (isBigEndian : Bool) (raw : RawLocation) : Bytes :=
  [raw.position.x, raw.position.y, raw.position.z].flatMap (numericBytes (k := 4) isBigEndian) ++
    [raw.pitch, raw.headYaw, raw.yaw]

end RawLocation

/-- What is written of a location. -/
def PlayerLocation.raw (toByte : BitVec 32 → UInt8) (location : PlayerLocation) : RawLocation :=
  ⟨location.position, toByte location.pitch, toByte location.headYaw, toByte location.yaw⟩

/-- What is written to a buffer without unread bytes is read as a value. -/
def ReadsBack {α : Type} (isBigEndian : Bool) (write : Action Unit) (read : Action α) (value : α) :
    Prop :=
  ∀ buffer, Stored isBigEndian buffer [] → ∃ written rest,
    write buffer = .ok ((), written) ∧ read written = .ok (value, rest)

section

variable {e : Bool} {view : ByteBuffer → Bytes → Prop}

/-- What is read of the bytes written is read back, and nothing else is. -/
theorem readsBack_iff_eq {α : Type} {write : Action Unit} {read : Action α} {bytes : Bytes}
    {value value' : α} (hwrite : Produces (Stored e) write bytes)
    (hread : Consumes (Stored e) read bytes value') :
    ReadsBack e write read value ↔ value' = value := by
  have hrun : ∀ buffer, Stored e buffer [] → ∃ written rest,
      write buffer = .ok ((), written) ∧ read written = .ok (value', rest) := by
    intro buffer hbuffer
    obtain ⟨written, hw, hstored⟩ := hwrite buffer [] hbuffer
    obtain ⟨rest, hr, -⟩ := hread written [] (by simpa using hstored)
    exact ⟨written, rest, hw, hr⟩
  constructor
  · intro h
    have hnew : Stored e ⟨.new, e⟩ [] := ⟨InternalByteBuffer.holds_new, rfl⟩
    obtain ⟨written, rest, hw, hr⟩ := h _ hnew
    obtain ⟨written', rest', hw', hr'⟩ := hrun _ hnew
    obtain ⟨-, rfl⟩ := Prod.mk.inj (Except.ok.inj (hw.symm.trans hw'))
    exact (Prod.mk.inj (Except.ok.inj (hr'.symm.trans hr))).1
  · rintro rfl
    exact hrun

/-- A constructor whose arguments are the same call. -/
theorem readsBack_same_iff {n : ℕ} {α β : Type} [Inhabited β] {write : Action Unit}
    {read : Action β} {enc : β → Bytes} {values : List β} (hlen : values.length = n)
    (hwrite : Produces (Stored e) write (values.flatMap enc))
    (hread : ∀ value, Consumes (Stored e) read (enc value) value) (order : EvalOrder (Fin n))
    (make : (Fin n → β) → α) (hmake : Function.Injective make) (own : Fin n → β) :
    ReadsBack e write (do return make (← evaluate order fun _ => read)) (make own) ↔
      order.list.map own = values := by
  obtain ⟨argument, rfl⟩ := exists_map_eq order.nodup (hlen.trans order.length_list.symm)
  have hall : Consumes (Stored e) (evaluate order fun _ : Fin n => read)
      (order.list.flatMap fun i => enc (argument i)) argument :=
    consumes_evaluate order fun i => hread (argument i)
  rw [← List.flatMap_map] at hall
  rw [readsBack_iff_eq hwrite (hall.bind_pure make), hmake.eq_iff]
  constructor
  · rintro rfl
    rfl
  · intro h
    funext i
    exact (List.map_inj_left.mp h i (order.complete i)).symm

theorem vector3_injective {α : Type} :
    Function.Injective fun argument : Fin 3 → α =>
      Vector3.mk (argument 0) (argument 1) (argument 2) := by
  intro f g h
  obtain ⟨hx, hy, hz⟩ := Vector3.mk.inj h
  funext i
  match i with
  | 0 => exact hx
  | 1 => exact hy
  | 2 => exact hz

theorem vector2_injective {α : Type} :
    Function.Injective fun argument : Fin 2 → α => Vector2.mk (argument 0) (argument 1) := by
  intro f g h
  obtain ⟨hx, hy⟩ := Vector2.mk.inj h
  funext i
  match i with
  | 0 => exact hx
  | 1 => exact hy

theorem produces_writeVector3 (vector : Vector3 (BitVec 32)) :
    Produces (Stored e) (writeVector3 vector)
      ([vector.x, vector.y, vector.z].flatMap (numericBytes (k := 4) e)) := by
  have hv := writable_stored e
  rw [List.flatMap_cons, List.flatMap_cons, List.flatMap_singleton]
  exact (hv.writeNumeric (k := 4) vector.x).bind ((hv.writeNumeric (k := 4) vector.y).bind
    (hv.writeNumeric (k := 4) vector.z))

theorem consumes_readFloat (value : BitVec 32) :
    Consumes (Stored e) (readNumeric 4) (numericBytes (k := 4) e value) value :=
  (readable_stored e).readNumeric (k := 4) (le_maxSize (by omega)) value

theorem readsBack_vector3_iff (vector : Vector3 (BitVec 32)) (order : EvalOrder (Fin 3)) :
    ReadsBack e (writeVector3 vector) (readVector3 order) vector ↔
      order.list.map vector.components = [vector.x, vector.y, vector.z] :=
  readsBack_same_iff rfl (produces_writeVector3 vector) consumes_readFloat order _ vector3_injective
    vector.components

theorem readsBack_vector2_iff (vector : Vector2 (BitVec 32)) (order : EvalOrder (Fin 2)) :
    ReadsBack e (writeVector2 vector) (readVector2 order) vector ↔
      order.list.map vector.components = [vector.x, vector.y] := by
  have hv := writable_stored e
  have hwrite : Produces (Stored e) (writeVector2 vector)
      ([vector.x, vector.y].flatMap (numericBytes (k := 4) e)) := by
    rw [List.flatMap_cons, List.flatMap_singleton]
    exact (hv.writeNumeric (k := 4) vector.x).bind (hv.writeNumeric (k := 4) vector.y)
  exact readsBack_same_iff rfl hwrite consumes_readFloat order _ vector2_injective vector.components

theorem readsBack_blockCoordinates_iff (vector : Vector3 (BitVec 32)) (order : EvalOrder (Fin 3)) :
    ReadsBack e (writeBlockCoordinates vector) (readBlockCoordinates order) vector ↔
      order.list.map vector.components = [vector.x, vector.y, vector.z] := by
  have hv := writable_stored e
  have hwrite : Produces (Stored e) (writeBlockCoordinates vector)
      ([vector.x, vector.y, vector.z].flatMap (varNumericBytes (varNumericMaxSize 4))) := by
    rw [List.flatMap_cons, List.flatMap_cons, List.flatMap_singleton]
    exact (hv.writeVarNumeric (k := 4) vector.x).bind ((hv.writeVarNumeric (k := 4) vector.y).bind
      (hv.writeVarNumeric (k := 4) vector.z))
  have hread (value : BitVec 32) : Consumes (Stored e) readVarInt
      (varNumericBytes (varNumericMaxSize 4) value) value :=
    (readable_stored e).readVarNumeric_varNumericBytes true (k := 4) (by decide) value
  exact readsBack_same_iff rfl hwrite hread order _ vector3_injective vector.components

/-! ### Locations -/

theorem produces_writePlayerLocation (toByte : BitVec 32 → UInt8) (location : PlayerLocation) :
    Produces (Stored e) (writePlayerLocation toByte location) ((location.raw toByte).written e) := by
  have hv := writable_stored e
  exact (produces_writeVector3 location.position).bind ((hv.writeByte (toByte location.pitch)).bind
    ((hv.writeByte (toByte location.headYaw)).bind (hv.writeByte (toByte location.yaw))))

theorem consumes_readVector3 (vector : Vector3 (BitVec 32)) (order : EvalOrder (Fin 3)) :
    Consumes (Stored e) (readVector3 order)
      (order.list.flatMap fun i => numericBytes (k := 4) e (vector.components i)) vector := by
  have hall : Consumes (Stored e) (evaluate order fun _ : Fin 3 => readNumeric 4)
      (order.list.flatMap fun i => numericBytes (k := 4) e (vector.components i)) vector.components :=
    consumes_evaluate order fun i => consumes_readFloat (vector.components i)
  exact hall.bind_pure fun argument => Vector3.mk (argument 0) (argument 1) (argument 2)

theorem consumes_readAngle (toAngle : UInt8 → BitVec 32) (c : UInt8) :
    Consumes (Stored e) (readAngle toAngle) [c] (toAngle c) :=
  ((readable_stored e).readByte c).bind_pure toAngle

/-- The bytes of the arguments in the order of their evaluation. -/
theorem consumes_readPlayerLocation (toAngle : UInt8 → BitVec 32) (raw : RawLocation)
    (order : EvalOrder LocationArgument) (position : EvalOrder (Fin 3)) :
    Consumes (Stored e) (readPlayerLocation toAngle order position)
      (order.list.flatMap (raw.bytes e position)) (raw.location toAngle) := by
  let argument : (a : LocationArgument) → a.Value
    | .position => raw.position
    | .pitch => toAngle raw.pitch
    | .headYaw => toAngle raw.headYaw
    | .yaw => toAngle raw.yaw
  have hargs : ∀ a, Consumes (Stored e) (readLocationArgument toAngle position a)
      (raw.bytes e position a) (argument a)
    | .position => consumes_readVector3 raw.position position
    | .pitch => consumes_readAngle toAngle raw.pitch
    | .headYaw => consumes_readAngle toAngle raw.headYaw
    | .yaw => consumes_readAngle toAngle raw.yaw
  exact (consumes_evaluate order hargs).bind_pure fun argument =>
    PlayerLocation.mk (argument .position) (argument .pitch) (argument .headYaw) (argument .yaw)

/-- The arguments from left to right. -/
def LocationArgument.leftToRight : EvalOrder LocationArgument :=
  ⟨[.position, .pitch, .headYaw, .yaw], by decide, fun a => by cases a <;> decide⟩

def LocationArgument.rightToLeft : EvalOrder LocationArgument :=
  ⟨[.yaw, .headYaw, .pitch, .position], by decide, fun a => by cases a <;> decide⟩

/-- The bytes of a vector, in any order. -/
theorem exists_components (order : EvalOrder (Fin 3)) {w : Bytes} (h : w.length = 12) :
    ∃ vector : Vector3 (BitVec 32),
      (order.list.flatMap fun i => numericBytes (k := 4) e (vector.components i)) = w := by
  have hsum : (order.list.map fun _ => 4).sum = 12 :=
    ((order.perm (.leftToRight 3)).map _).sum_eq.trans (by decide)
  obtain ⟨word, hwidth, rfl⟩ := exists_flatMap_eq order.nodup (fun _ => 4) (h.trans hsum.symm)
  refine ⟨⟨numericOfBytes e 4 (word 0), numericOfBytes e 4 (word 1), numericOfBytes e 4 (word 2)⟩, ?_⟩
  refine List.flatMap_congr fun i hi => ?_
  have hnumber := numericBytes_numericOfBytes e (hwidth i hi)
  match i with
  | 0 => exact hnumber
  | 1 => exact hnumber
  | 2 => exact hnumber

/-- Fifteen bytes are those of a location, in any order. -/
theorem exists_raw (order : EvalOrder LocationArgument) (position : EvalOrder (Fin 3)) {w : Bytes}
    (h : w.length = 15) : ∃ raw : RawLocation, order.list.flatMap (raw.bytes e position) = w := by
  let width : LocationArgument → ℕ
    | .position => 12
    | .pitch | .headYaw | .yaw => 1
  have hsum : (order.list.map width).sum = 15 :=
    ((order.perm LocationArgument.leftToRight).map width).sum_eq.trans (by decide)
  obtain ⟨word, hwidth, rfl⟩ := exists_flatMap_eq order.nodup width (h.trans hsum.symm)
  obtain ⟨vector, hvector⟩ := @exists_components e position _ (hwidth _ (order.complete .position))
  obtain ⟨pitch, hpitch⟩ := List.length_eq_one_iff.mp (hwidth _ (order.complete .pitch))
  obtain ⟨headYaw, hheadYaw⟩ := List.length_eq_one_iff.mp (hwidth _ (order.complete .headYaw))
  obtain ⟨yaw, hyaw⟩ := List.length_eq_one_iff.mp (hwidth _ (order.complete .yaw))
  refine ⟨⟨vector, pitch, headYaw, yaw⟩, List.flatMap_congr fun a _ => ?_⟩
  cases a with
  | position => exact hvector
  | pitch => exact hpitch.symm
  | headYaw => exact hheadYaw.symm
  | yaw => exact hyaw.symm

theorem length_written (raw : RawLocation) : (raw.written e).length = 15 := by
  simp [RawLocation.written]

/-- The angles of different bytes can differ. -/
theorem raw_eq_of_location {raw raw' : RawLocation}
    (h : ∀ toAngle, raw.location toAngle = raw'.location toAngle) : raw = raw' := by
  have hbyte : Function.Injective fun c : UInt8 => c.toBitVec.setWidth 32 := by
    intro c d hcd
    have hval := congrArg BitVec.toNat hcd
    simp only [BitVec.toNat_setWidth] at hval
    have hc := c.toBitVec.isLt
    have hd := d.toBitVec.isLt
    exact UInt8.toBitVec_inj.mp (BitVec.eq_of_toNat_eq (by omega))
  obtain ⟨position, pitch, headYaw, yaw⟩ := raw
  have hfields := h fun c => c.toBitVec.setWidth 32
  obtain ⟨hposition, hpitch, hheadYaw, hyaw⟩ := PlayerLocation.mk.inj hfields
  cases hposition
  cases hbyte hpitch
  cases hbyte hheadYaw
  cases hbyte hyaw
  rfl

theorem readsBack_playerLocation_iff (toByte : BitVec 32 → UInt8) (location : PlayerLocation)
    (order : EvalOrder LocationArgument) (position : EvalOrder (Fin 3)) :
    (∀ toAngle, ReadsBack e (writePlayerLocation toByte location)
      (readPlayerLocation toAngle order position) ((location.raw toByte).location toAngle)) ↔
      order.list.flatMap ((location.raw toByte).bytes e position) =
        (location.raw toByte).written e := by
  have hwrite := @produces_writePlayerLocation e toByte location
  obtain ⟨raw, hraw⟩ := @exists_raw e order position _ (length_written (location.raw toByte))
  constructor
  · intro h
    have hsame : raw = location.raw toByte := by
      refine raw_eq_of_location fun toAngle => ?_
      have hread := @consumes_readPlayerLocation e toAngle raw order position
      rw [hraw] at hread
      exact (readsBack_iff_eq hwrite hread).mp (h toAngle)
    rw [← hsame, hraw]
    exact congrArg _ hsame.symm
  · intro h toAngle
    have hread := @consumes_readPlayerLocation e toAngle (location.raw toByte) order position
    rw [h] at hread
    exact (readsBack_iff_eq hwrite hread).mpr rfl

end

/-! ### All orders -/

/-- The values that are read back with a given order are those whose components or bytes, listed in
this order, are in the order in which they were written. -/
theorem readsBack_vectors_iff (isBigEndian : Bool) :
    (∀ (vector : Vector3 (BitVec 32)) (order : EvalOrder (Fin 3)),
      ReadsBack isBigEndian (writeVector3 vector) (readVector3 order) vector ↔
        order.list.map vector.components = [vector.x, vector.y, vector.z]) ∧
    (∀ (vector : Vector2 (BitVec 32)) (order : EvalOrder (Fin 2)),
      ReadsBack isBigEndian (writeVector2 vector) (readVector2 order) vector ↔
        order.list.map vector.components = [vector.x, vector.y]) ∧
    (∀ (vector : Vector3 (BitVec 32)) (order : EvalOrder (Fin 3)),
      ReadsBack isBigEndian (writeBlockCoordinates vector) (readBlockCoordinates order) vector ↔
        order.list.map vector.components = [vector.x, vector.y, vector.z]) ∧
    ∀ (toByte : BitVec 32 → UInt8) (location : PlayerLocation) (order : EvalOrder LocationArgument)
      (position : EvalOrder (Fin 3)),
      (∀ toAngle, ReadsBack isBigEndian (writePlayerLocation toByte location)
        (readPlayerLocation toAngle order position) ((location.raw toByte).location toAngle)) ↔
        order.list.flatMap ((location.raw toByte).bytes isBigEndian position) =
          (location.raw toByte).written isBigEndian :=
  ⟨readsBack_vector3_iff, readsBack_vector2_iff, readsBack_blockCoordinates_iff,
    readsBack_playerLocation_iff⟩

/-- From left to right, all values are read back. -/
theorem readsBack_leftToRight (isBigEndian : Bool) (vector : Vector3 (BitVec 32))
    (vector2 : Vector2 (BitVec 32)) (toByte : BitVec 32 → UInt8) (toAngle : UInt8 → BitVec 32)
    (location : PlayerLocation) :
    ReadsBack isBigEndian (writeVector3 vector) (readVector3 (.leftToRight 3)) vector ∧
      ReadsBack isBigEndian (writeVector2 vector2) (readVector2 (.leftToRight 2)) vector2 ∧
      ReadsBack isBigEndian (writeBlockCoordinates vector) (readBlockCoordinates (.leftToRight 3))
        vector ∧
      ReadsBack isBigEndian (writePlayerLocation toByte location)
        (readPlayerLocation toAngle LocationArgument.leftToRight (.leftToRight 3))
        ((location.raw toByte).location toAngle) :=
  ⟨(readsBack_vector3_iff ..).mpr rfl, (readsBack_vector2_iff ..).mpr rfl,
    (readsBack_blockCoordinates_iff ..).mpr rfl, (readsBack_playerLocation_iff ..).mpr rfl toAngle⟩

/-- From right to left, the components of a vector are exchanged, and a location is read from the
end of its bytes. -/
theorem not_readsBack_rightToLeft :
    ¬ ReadsBack true (writeVector3 ⟨0, 0, 0x3f800000⟩) (readVector3 (.rightToLeft 3))
      ⟨0, 0, 0x3f800000⟩ ∧
    ¬ ReadsBack true (writeVector2 ⟨0, 0x3f800000⟩) (readVector2 (.rightToLeft 2)) ⟨0, 0x3f800000⟩ ∧
    ¬ ReadsBack true (writeBlockCoordinates ⟨1, 2, 3⟩) (readBlockCoordinates (.rightToLeft 3))
      ⟨1, 2, 3⟩ ∧
    ¬ ∀ toAngle, ReadsBack true (writePlayerLocation (fun _ => 1) ⟨⟨0, 0, 0⟩, 0, 0, 0⟩)
      (readPlayerLocation toAngle LocationArgument.rightToLeft (.rightToLeft 3))
      ⟨⟨0, 0, 0⟩, toAngle 1, toAngle 1, toAngle 1⟩ := by
  refine ⟨?_, ?_, ?_, fun h => ?_⟩
  · rw [readsBack_vector3_iff]
    decide
  · rw [readsBack_vector2_iff]
    decide
  · rw [readsBack_blockCoordinates_iff]
    decide
  · have hbytes := (readsBack_playerLocation_iff (fun _ => 1) ⟨⟨0, 0, 0⟩, 0, 0, 0⟩ _ _).mp h
    exact absurd hbytes (by decide)

end Zinc.Buffer
