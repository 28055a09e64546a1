import Zinc.Base.Equality
import Zinc.Buffer.Table
import Zinc.Game.LightData
import Zinc.Game.Sound
import Zinc.Nbt.Equality
import Zinc.Network.Send

/-! The equalities that were written by hand. Sound events without a range are compared by the
value of an optional that has none; alternatives that are both missing differ from themselves;
light data has one body for both operators; and a packet is compared with a copy of the other
one, which has read nothing. -/

namespace Zinc

open Throw Equality Buffer Buffer.ByteBuffer Nbt

/-! ### Optionals -/

/-- `std::bad_optional_access`. -/
structure BadOptionalAccess where

/-- `std::optional::value`. -/
def optionalValue {α : Type} : Option α → Except BadOptionalAccess α
  | some value => .ok value
  | none => .error ⟨⟩

/-- The number is no NaN. -/
def NotNaN (value : BitVec 32) : Prop := value.toNat % 2 ^ 31 ≤ 2 ^ 31 - 2 ^ 23

instance (value : BitVec 32) : Decidable (NotNaN value) := inferInstanceAs (Decidable (_ ≤ _))

theorem floatEqual_self {value : BitVec 32} (h : NotNaN value) : floatEqual 23 value value = true := by
  simpa [floatEqual, NotNaN] using h

theorem floatEqual_symm {a b : BitVec 32} (h : floatEqual 23 a b = true) :
    floatEqual 23 b a = true := by
  simp only [floatEqual, decide_eq_true_eq] at h ⊢
  exact ⟨h.2.1, h.1, h.2.2.imp Eq.symm And.symm⟩

theorem floatEqual_trans {a b c : BitVec 32} (hab : floatEqual 23 a b = true)
    (hbc : floatEqual 23 b c = true) : floatEqual 23 a c = true := by
  simp only [floatEqual, decide_eq_true_eq] at hab hbc ⊢
  refine ⟨hab.1, hbc.2.1, ?_⟩
  rcases hab.2.2 with rfl | hab
  · exact hbc.2.2
  · rcases hbc.2.2 with rfl | hbc
    · exact .inr hab
    · exact .inr ⟨hab.1, hbc.2⟩

/-! ### Sound events -/

namespace Game.SoundEvent

def equal (soundEvent soundEvent' : SoundEvent) : Except BadOptionalAccess Bool := do
  let doesFixedRangeMatch ←
    if soundEvent.hasFixedRange = soundEvent'.hasFixedRange then do
      let fixedRange ← optionalValue soundEvent.fixedRange
      pure (floatEqual 23 fixedRange soundEvent'.getFixedRange)
    else pure false
  return doesFixedRangeMatch && soundEvent.identifier.toString = soundEvent'.identifier.toString

def notEqual : SoundEvent → SoundEvent → Except BadOptionalAccess Bool := negation equal

variable {S : Set SoundEvent} {soundEvent soundEvent' : SoundEvent}

theorem equal_of_hasFixedRange (h : soundEvent.hasFixedRange) (h' : soundEvent'.hasFixedRange) :
    equal soundEvent soundEvent' = .ok (floatEqual 23 soundEvent.getFixedRange
      soundEvent'.getFixedRange && soundEvent.identifier.toString = soundEvent'.identifier.toString) := by
  obtain ⟨identifier, _ | fixedRange⟩ := soundEvent
  · cases h
  · rw [equal, h', if_pos (by exact h)]
    rfl

/-- Two events without a range. -/
theorem equal_self_of_not_hasFixedRange (h : ¬ soundEvent.hasFixedRange) :
    equal soundEvent soundEvent = .error ⟨⟩ := by
  obtain ⟨identifier, _ | fixedRange⟩ := soundEvent
  · rfl
  · exact absurd rfl h

/-- Lawful among events with a range, and only there. -/
theorem lawfulOn_iff (hnan : ∀ soundEvent ∈ S, NotNaN soundEvent.getFixedRange) :
    LawfulOn S equal notEqual ↔ ∀ soundEvent ∈ S, soundEvent.hasFixedRange := by
  constructor
  · intro hlawful soundEvent hmem
    by_contra h
    have hrefl := hlawful.refl soundEvent hmem
    rw [equal_self_of_not_hasFixedRange h] at hrefl
    cases hrefl
  · intro h
    refine (EquivalenceOn.of_eq (fun a ha b hb => equal_of_hasFixedRange (h a ha) (h b hb))
      ?_ ?_ ?_).lawfulOn
    · intro a ha
      simp [floatEqual_self (hnan a ha)]
    · intro a b hab
      rw [Bool.and_eq_true, decide_eq_true_eq] at hab ⊢
      exact ⟨floatEqual_symm hab.1, hab.2.symm⟩
    · intro a b c hab hbc
      rw [Bool.and_eq_true, decide_eq_true_eq] at hab hbc ⊢
      exact ⟨floatEqual_trans hab.1 hbc.1, hab.2.trans hbc.2⟩

end Game.SoundEvent

/-! ### Alternatives -/

namespace Buffer.XorY

variable {α β : Type} [BEq α] [BEq β]

def equal (xOrY xOrY' : XorY α β) : Except BadOptionalAccess Bool :=
  if xOrY.x.isSome ≠ xOrY'.x.isSome then .ok false
  else if xOrY.y.isSome ≠ xOrY'.y.isSome then .ok false
  else if xOrY.x.isSome then do
    let x ← optionalValue xOrY.x
    let x' ← optionalValue xOrY'.x
    return x == x'
  else if xOrY.y.isSome then do
    let y ← optionalValue xOrY.y
    let y' ← optionalValue xOrY'.y
    return y == y'
  else .ok false

def notEqual : XorY α β → XorY α β → Except BadOptionalAccess Bool := negation equal

/-- One alternative is there, or both. -/
def Present (xOrY : XorY α β) : Prop := xOrY.x.isSome ∨ xOrY.y.isSome

/-- What `equal` compares: the second alternatives only where there is no first one. -/
def compared (xOrY xOrY' : XorY α β) : Bool :=
  match xOrY, xOrY' with
  | ⟨some x, y⟩, ⟨some x', y'⟩ => y.isSome = y'.isSome && x == x'
  | ⟨none, some y⟩, ⟨none, some y'⟩ => y == y'
  | _, _ => false

theorem equal_eq (xOrY xOrY' : XorY α β) : equal xOrY xOrY' = .ok (compared xOrY xOrY') := by
  obtain ⟨_ | x, _ | y⟩ := xOrY <;> obtain ⟨_ | x', _ | y'⟩ := xOrY' <;> rfl

variable [EquivBEq α] [EquivBEq β]

theorem compared_self {xOrY : XorY α β} (h : xOrY.Present) : compared xOrY xOrY = true := by
  obtain ⟨_ | x, _ | y⟩ := xOrY
  · simp [Present] at h
  all_goals simp [compared]

theorem compared_symm (a b : XorY α β) (h : compared a b = true) : compared b a = true := by
  obtain ⟨_ | x, _ | y⟩ := a <;> obtain ⟨_ | x', _ | y'⟩ := b <;>
    simp_all [compared, BEq.comm]

theorem compared_trans (a b c : XorY α β) (hab : compared a b = true) (hbc : compared b c = true) :
    compared a c = true := by
  obtain ⟨_ | x, _ | y⟩ := a <;> obtain ⟨_ | x', _ | y'⟩ := b <;>
    obtain ⟨_ | x'', _ | y''⟩ := c <;> simp_all [compared] <;> exact BEq.trans hab hbc

/-- Lawful among values with an alternative, and only there. -/
theorem lawfulOn_iff (S : Set (XorY α β)) :
    LawfulOn S equal notEqual ↔ ∀ xOrY ∈ S, xOrY.Present := by
  constructor
  · intro hlawful xOrY hmem
    have hrefl := hlawful.refl xOrY hmem
    rw [equal_eq, Except.ok.injEq] at hrefl
    obtain ⟨_ | x, _ | y⟩ := xOrY
    · cases hrefl
    all_goals simp [Present]
  · intro h
    exact (EquivalenceOn.of_eq (fun a _ b _ => equal_eq a b) (fun a ha => compared_self (h a ha))
      compared_symm compared_trans).lawfulOn

end Buffer.XorY

/-! ### Light data -/

namespace Game.LightData

def equal (data data' : LightData) : Except Fault Bool := do
  let bytes' ← data'.toBytes
  let bytes ← data.toBytes
  return bytes' = bytes

/-- `operator!=`, whose body is that of `operator==`. -/
def notEqual (data data' : LightData) : Except Fault Bool := do
  let bytes' ← data'.toBytes
  let bytes ← data.toBytes
  return bytes' = bytes

theorem equivalenceOn_equal (S : Set LightData) : EquivalenceOn S equal := by
  refine .of_key bytes fun a _ b _ => ?_
  rw [equal, toBytes_eq, toBytes_eq, ok_bind, ok_bind]
  simp [eq_comm]

theorem lawfulOn_iff (S : Set LightData) : LawfulOn S equal notEqual ↔ S = ∅ := lawfulOn_self_iff

end Game.LightData

/-! ### Packets -/

namespace Buffer

def InternalByteBuffer.equal (b b' : InternalByteBuffer) : Bool :=
  b.getReader = b'.getReader && b.getWriter = b'.getWriter && b.getBytes = b'.getBytes &&
    b.enableBlockRecycle = b'.enableBlockRecycle

def ByteBuffer.equal (buffer buffer' : ByteBuffer) : Bool :=
  buffer.isBigEndian = buffer'.isBigEndian && buffer.internalBuffer.equal buffer'.internalBuffer

end Buffer

namespace Network.ZincPacket

/-- `getData() const` with the number of bytes that the writer counts; more than there are lie
behind the end of a vector. -/
def constData (packet : ZincPacket) : Except Fault ByteBuffer :=
  if packet.data.size ≤ packet.data.getBytes.length then do
    let ((), written) ← writeBytes (packet.data.getBytes.take packet.data.size)
      ⟨.new, packet.data.isBigEndian⟩
    let recycled := packet.data.internalBuffer.enableBlockRecycle
    return { written with internalBuffer := written.internalBuffer.toggleBlockRecycle recycled }
  else .error .undefined

def equal (packet packet' : ZincPacket) : Except Fault Bool := do
  let data ← packet'.constData
  return packet.data.equal data && packet.id = packet'.id

def notEqual : ZincPacket → ZincPacket → Except Fault Bool := negation equal

/-- Any reads and writes, from a packet that has just been made. -/
def Reachable (packet : ZincPacket) : Prop :=
  ∃ past, Table.CommandRun past packet.data.internalBuffer

theorem reachable_ofId (id : BitVec 32) : (ofId id).Reachable := ⟨[], .start rfl⟩

theorem Reachable.setData {packet packet' : ZincPacket} {data : ByteBuffer} (h : packet.Reachable)
    (hset : packet.setData data = .ok packet') : packet'.Reachable := by
  obtain ⟨past, hrun⟩ := h
  obtain ⟨⟨_, written⟩, hwrite, hset⟩ := bind_eq_ok.mp hset
  obtain ⟨b, hb, hrest⟩ := bind_eq_ok.mp hwrite
  cases hrest
  cases hset
  exact ⟨_, (hrun.next (Table.CommandStep.write hb)).next (Table.CommandStep.toggleBlockRecycle _)⟩

/-- The reader is at the start, and the bytes that the writer counts are there. -/
structure Unread (packet : ZincPacket) : Prop where
  reader : packet.data.internalBuffer.getReader = (0, 0)
  size_eq : packet.data.size = packet.data.getBytes.length

/-- Where the bytes are there, the copy is that of `getData`. -/
theorem constData_eq {packet : ZincPacket} (h : packet.data.size = packet.data.getBytes.length) :
    packet.constData = packet.getData := by
  rw [constData, if_pos h.le, h, List.take_length]
  rfl

/-- A position is a block and an offset in one way only. -/
theorem position_inj {w w' : ℕ × ℕ} (h : w.2 < blockSize) (h' : w'.2 < blockSize)
    (heq : w.1 * blockSize + w.2 = w'.1 * blockSize + w'.2) : w = w' := by
  simp only [blockSize] at *
  exact Prod.ext (by omega) (by omega)

/-- What counts in a comparison. -/
def key (packet : ZincPacket) : BitVec 32 × Bool × (ℕ × ℕ) × Bytes × Bool :=
  (packet.id, packet.data.isBigEndian, packet.data.internalBuffer.getWriter, packet.data.getBytes,
    packet.data.internalBuffer.enableBlockRecycle)

variable {packet packet' : ZincPacket} {S : Set ZincPacket}

/-- The bytes of a packet in a buffer that has read nothing. -/
structure Copied (packet : ZincPacket) (data : ByteBuffer) : Prop where
  reader : data.internalBuffer.getReader = (0, 0)
  endian : data.isBigEndian = packet.data.isBigEndian
  getBytes_eq : data.getBytes = packet.data.getBytes
  recycle_eq : data.internalBuffer.enableBlockRecycle = packet.data.internalBuffer.enableBlockRecycle
  size_eq : data.size = packet.data.size
  writeOffset_lt : data.internalBuffer.writeOffset < blockSize

theorem constData_copied (h : packet.data.size = packet.data.getBytes.length) :
    ∃ data, packet.constData = .ok data ∧ packet.Copied data := by
  have hnew : Fresh packet.data.isBigEndian ⟨.new, packet.data.isBigEndian⟩ [] :=
    ⟨⟨InternalByteBuffer.holds_new, rfl⟩, rfl, rfl, rfl⟩
  obtain ⟨buffer, hwrite, hfresh⟩ :=
    (writable_fresh _).writeBytes packet.data.getBytes _ [] hnew
  rw [List.nil_append] at hfresh
  have hreader : buffer.internalBuffer.getReader = (0, 0) :=
    Prod.ext hfresh.2.readBlock_eq.symm hfresh.2.readOffset_eq.symm
  rw [constData_eq h, getData, hwrite]
  exact ⟨_, rfl, hreader, hfresh.1.2, hfresh.getBytes, rfl, hfresh.size.trans h.symm,
    hfresh.1.1.writeOffset_lt⟩

/-- The writer counts the bytes, unless it counts more than there are. -/
theorem Reachable.size_eq_of_le (hreach : packet.Reachable)
    (h : packet.data.size ≤ packet.data.getBytes.length) :
    packet.data.size = packet.data.getBytes.length ∧
      packet.data.internalBuffer.writeOffset < blockSize := by
  obtain ⟨past, hrun⟩ := hreach
  obtain hregular | hdrained := Table.regular_or_drained hrun
  · exact ⟨hregular.length_getBytes.symm, hregular.writeOffset_lt⟩
  · -- without blocks there are no bytes
    have hbytes : packet.data.getBytes = [] := by
      simp [getBytes, InternalByteBuffer.getBytes, hdrained.blocks_eq]
    rw [hbytes, List.length_nil, Nat.le_zero] at h
    refine ⟨by rw [h, hbytes, List.length_nil], ?_⟩
    have hoffset : packet.data.internalBuffer.writeOffset = 0 := (Nat.add_eq_zero_iff.mp h).2
    rw [hoffset]
    exact InternalByteBuffer.blockSize_pos

/-- What counts of a copy. -/
theorem Copied.key_eq {data : ByteBuffer} (h : packet.Copied data)
    (hoffset : packet.data.internalBuffer.writeOffset < blockSize) :
    (ZincPacket.mk packet.id data).key = packet.key := by
  have hwriter : data.internalBuffer.getWriter = packet.data.internalBuffer.getWriter :=
    position_inj h.writeOffset_lt hoffset h.size_eq
  simp only [key, h.endian, hwriter, h.getBytes_eq, h.recycle_eq]

theorem equal_of_unread (h : packet.Unread) (h' : packet'.Unread) (hreach' : packet'.Reachable) :
    equal packet packet' = .ok (decide (packet.key = packet'.key)) := by
  obtain ⟨data, hdata, hcopied⟩ := constData_copied h'.size_eq
  have hkey := hcopied.key_eq (hreach'.size_eq_of_le h'.size_eq.le).2
  rw [equal, hdata, ok_bind, ← hkey]
  simp only [key, ByteBuffer.equal, InternalByteBuffer.equal, h.reader, hcopied.reader,
    Prod.mk.injEq, Bool.decide_and, getBytes]
  simp [Bool.and_comm, Bool.and_assoc, Bool.and_left_comm]

/-- A packet that is equal to itself. -/
theorem unread_of_equal_self (hreach : packet.Reachable) (h : equal packet packet = .ok true) :
    packet.Unread := by
  obtain ⟨data, hdata, h⟩ := bind_eq_ok.mp h
  have hsize : packet.data.size = packet.data.getBytes.length := by
    by_cases hle : packet.data.size ≤ packet.data.getBytes.length
    · exact (hreach.size_eq_of_le hle).1
    · rw [constData, if_neg hle] at hdata
      cases hdata
  obtain ⟨data', hdata', hcopied⟩ := constData_copied hsize
  cases hdata.symm.trans hdata'
  simp only [pure_eq, Except.ok.injEq, ByteBuffer.equal, InternalByteBuffer.equal, Bool.and_eq_true,
    decide_eq_true_eq] at h
  exact ⟨h.1.2.1.1.1.trans hcopied.reader, hsize⟩

/-- Lawful among packets of which nothing has been read, and only there. -/
theorem lawfulOn_iff (hreach : ∀ packet ∈ S, packet.Reachable) :
    LawfulOn S equal notEqual ↔ ∀ packet ∈ S, packet.Unread := by
  constructor
  · intro hlawful packet hmem
    exact unread_of_equal_self (hreach packet hmem) (hlawful.refl packet hmem)
  · intro h
    exact (EquivalenceOn.of_key key fun a ha b hb =>
      equal_of_unread (h a ha) (h b hb) (hreach b hb)).lawfulOn

/-- A byte is written and read. -/
theorem exists_read : ∃ packet : ZincPacket, packet.Reachable ∧ ¬ packet.Unread := by
  obtain ⟨b, hwrite, hb, hsame⟩ := InternalByteBuffer.holds_new.write [1]
  obtain ⟨b', hread, hadv⟩ := hb.shape.read (show 1 ≤ maxSize by decide)
  have hrun : Table.CommandRun [] .new := .start rfl
  have hrun' := (hrun.next (Table.CommandStep.write hwrite)).next (Table.CommandStep.read hread)
  refine ⟨⟨0, ⟨b', true⟩⟩, ⟨_, hrun'⟩, fun hunread => ?_⟩
  have hposition := hb.position
  have hposition' := (hb.advance le_rfl hadv).position
  obtain ⟨hreadBlock, hreadOffset⟩ := Prod.mk.inj hunread.reader
  simp only at hreadBlock hreadOffset
  rw [hsame.readBlock_eq, hsame.readOffset_eq] at hposition
  rw [hreadBlock, hreadOffset, hadv.writeOffset_eq] at hposition'
  simp only [InternalByteBuffer.new, blockSize, List.nil_append, List.length_singleton,
    List.length_drop] at hposition hposition'
  omega

end Network.ZincPacket

/-! ### All of them -/

open Game Network

/-- On which values the equalities are lawful; that of light data always is an equivalence. -/
theorem equalities_lawful_iff {α β : Type} [BEq α] [BEq β] [EquivBEq α] [EquivBEq β]
    (soundEvents : Set SoundEvent) (alternatives : Set (XorY α β)) (lights : Set LightData)
    (packets : Set ZincPacket) (hnan : ∀ soundEvent ∈ soundEvents, NotNaN soundEvent.getFixedRange)
    (hreach : ∀ packet ∈ packets, packet.Reachable) :
    (LawfulOn soundEvents SoundEvent.equal SoundEvent.notEqual ↔
      ∀ soundEvent ∈ soundEvents, soundEvent.hasFixedRange) ∧
    (LawfulOn alternatives XorY.equal XorY.notEqual ↔ ∀ xOrY ∈ alternatives, xOrY.Present) ∧
    EquivalenceOn lights LightData.equal ∧
    (LawfulOn lights LightData.equal LightData.notEqual ↔ lights = ∅) ∧
    (LawfulOn packets ZincPacket.equal ZincPacket.notEqual ↔ ∀ packet ∈ packets, packet.Unread) :=
  ⟨SoundEvent.lawfulOn_iff hnan, XorY.lawfulOn_iff alternatives, LightData.equivalenceOn_equal lights,
    LightData.lawfulOn_iff lights, ZincPacket.lawfulOn_iff hreach⟩

/-- An event with a range, an alternative, and packets that nothing has happened to. -/
theorem equalities_lawful_samples :
    LawfulOn {(SoundEvent.ofIdentifier .new).setFixedRange 0x3f800000#32} SoundEvent.equal
      SoundEvent.notEqual ∧
    LawfulOn {(XorY.ofY true : XorY ℕ Bool)} XorY.equal XorY.notEqual ∧
    ¬ LawfulOn {LightData.sample} LightData.equal LightData.notEqual ∧
    LawfulOn {ZincPacket.ofId 0, ZincPacket.ofId 1} ZincPacket.equal ZincPacket.notEqual := by
  have hreach : ∀ packet ∈ ({ZincPacket.ofId 0, ZincPacket.ofId 1} : Set ZincPacket),
      packet.Reachable := by
    rintro _ (rfl | rfl) <;> exact ZincPacket.reachable_ofId _
  obtain ⟨hsound, halternative, -, hlight, hpacket⟩ :=
    equalities_lawful_iff {(SoundEvent.ofIdentifier .new).setFixedRange 0x3f800000#32}
      {(XorY.ofY true : XorY ℕ Bool)} {LightData.sample} {ZincPacket.ofId 0, ZincPacket.ofId 1}
      (by rintro _ rfl; decide) hreach
  refine ⟨hsound.mpr ?_, halternative.mpr ?_, fun h => Set.singleton_ne_empty _ (hlight.mp h),
    hpacket.mpr ?_⟩
  · rintro _ rfl
    rfl
  · rintro _ rfl
    exact .inr rfl
  · rintro _ (rfl | rfl) <;> exact ⟨rfl, rfl⟩

/-- Each of them fails: on an event without a range, on a value without an alternative, on all
light data, and on a packet that has been read from. -/
theorem not_equalities_lawful :
    ¬ LawfulOn {soundEvent | NotNaN soundEvent.getFixedRange} SoundEvent.equal SoundEvent.notEqual ∧
    ¬ LawfulOn (Set.univ : Set (XorY Bool Bool)) XorY.equal XorY.notEqual ∧
    ¬ LawfulOn (Set.univ : Set LightData) LightData.equal LightData.notEqual ∧
    ¬ LawfulOn {packet | packet.Reachable} ZincPacket.equal ZincPacket.notEqual := by
  refine ⟨fun h => ?_, fun h => ?_, fun h => ?_, fun h => ?_⟩
  · have hrange := (SoundEvent.lawfulOn_iff fun _ hnan => hnan).mp h (.ofIdentifier .new)
      (show NotNaN 0 by decide)
    cases hrange
  · have hpresent := (XorY.lawfulOn_iff _).mp h ⟨none, none⟩ trivial
    simp [XorY.Present] at hpresent
  · have hempty := (LightData.lawfulOn_iff _).mp h
    exact Set.notMem_empty LightData.sample (hempty ▸ Set.mem_univ _)
  · obtain ⟨packet, hreach, hread⟩ := ZincPacket.exists_read
    exact hread ((ZincPacket.lawfulOn_iff fun _ hreach => hreach).mp h packet hreach)

end Zinc
