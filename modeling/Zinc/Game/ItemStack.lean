import Zinc.Base.PrefixCode
import Zinc.Game.SlotDisplay
import Zinc.Text.Codec
import Zinc.Util.CRC32

/-! What the bytes of an item stack say. A stack is written with its components as they
are, or with a checksum for each. The components of `DefaultComponents` begin with
their types and tell where they end, so a stack is told apart by its bytes; the
checksums say what the table makes of the data, and an empty table makes nothing of
them but their length. -/

namespace Zinc.Game

open Throw Buffer Buffer.ByteBuffer Nbt Nbt.NBTElement Text PrefixCode Util

/-! ### Words that are read -/

variable {α β : Type} {C : α → Prop} {enc : α → Bytes} {f : α → β}

/-- A word that is read tells what is read of it. -/
theorem tells_of_consumes {e : Bool} {read : ℕ → Action β}
    (h : ∀ a, C a → ∃ bound, ∀ n ≥ bound, Consumes (Stored e) (read n) (enc a) (f a)) :
    Tells C enc f := by
  intro a b v w ha hb heq
  rcases h a ha with ⟨m, hm⟩
  rcases h b hb with ⟨n, hn⟩
  rcases (writable_stored e).writeBytes (enc a ++ v) _ [] (stored_new e) with ⟨buffer, -, hstored⟩
  rw [List.nil_append] at hstored
  rcases hm (max m n) (le_max_left m n) buffer v hstored with ⟨buffer₁, hread₁, hrest₁⟩
  rw [heq] at hstored
  rcases hn (max m n) (le_max_right m n) buffer w hstored with ⟨buffer₂, hread₂, hrest₂⟩
  obtain ⟨hf, rfl⟩ := Prod.mk.inj (Except.ok.inj (hread₁.symm.trans hread₂))
  exact ⟨hf, hrest₁.unique hrest₂⟩

theorem tells_varInt : Tells (fun _ => True) varIntBytes id :=
  tells_of_consumes fun value _ => ⟨0, fun _ _ => (readable_stored true).readVarInt value⟩

theorem tells_string : Tells (fun value : Bytes => value.length < 2 ^ 31) stringBytes id :=
  tells_of_consumes fun _ h => ⟨0, fun _ _ => (readable_stored true).readString h⟩

theorem tells_numeric {k : ℕ} (hk : k ≤ maxSize) :
    Tells (fun _ => True) (numericBytes (k := k) true) id :=
  tells_of_consumes fun value _ => ⟨0, fun _ _ => (readable_stored true).readNumeric hk value⟩

/-- An element that stands without a tag. -/
def Untagged (element : NBTElement) : Prop := (tree element).WellFormed ∧ element.tag = []

theorem tells_tree : Tells Untagged nbtBytes tree := by
  have hread : Tells Untagged nbtBytes fun element => decoded networkSettings (tree element) :=
    tells_of_consumes fun element h => ⟨_, fun n hn => consumes_readNBTElement h.1 h.2 hn⟩
  apply hread.congr
  intro a b ha hb heq
  rw [← tree_decoded ha.1 networkSettings, heq, tree_decoded hb.1]

theorem tells_nbt : Tells Untagged nbtBytes nbtBytes := by
  apply tells_tree.congr
  intro a b _ _ htree
  rw [nbtBytes, nbtBytes, htree]

/-- The length of a list behind its number. -/
theorem toInt_inj {m n : ℕ} (hm : m < 2 ^ 32) (hn : n < 2 ^ 32) (h : toInt m = toInt n) : m = n := by
  have hnat := congrArg BitVec.toNat h
  rwa [toInt, toInt, BitVec.toNat_ofNat, BitVec.toNat_ofNat, Nat.mod_eq_of_lt hm,
    Nat.mod_eq_of_lt hn] at hnat

/-! ### Components -/

/-- The components of `DefaultComponents`, with their members. -/
inductive Component where
  | customData (data : NBTElement)
  | maxStackSize (maxStackSize : BitVec 32)
  | maxDamage (maxDamage : BitVec 32)
  | damage (damage : BitVec 32)
  | unbreakable
  | customName (name : TextComponent)
  | itemName (name : TextComponent)
  | itemModel (model : Identifier)

namespace Component

/-- `ComponentTypes`. -/
def type : Component → BitVec 32
  | customData _ => 0
  | maxStackSize _ => 1
  | maxDamage _ => 2
  | damage _ => 3
  | unbreakable => 4
  | customName _ => 5
  | itemName _ => 6
  | itemModel _ => 7

def encode (component : Component) : Except Fault Bytes := bytesOf do
  writeVarInt component.type
  match component with
  | customData data => writeNBTElement data
  | maxStackSize n | maxDamage n | damage n => writeVarInt n
  | unbreakable => pure ()
  | customName name | itemName name => writeTextComponent name
  | itemModel model => writeIdentifier model

/-- The members that NBT and strings can hold. -/
def Fits : Component → Prop
  | customData data => Untagged data
  | customName name | itemName name => (tree name.encode).WellFormed
  | itemModel model => model.toString.length < 2 ^ 31
  | _ => True

def payload : Component → Bytes
  | customData data => nbtBytes data
  | maxStackSize n | maxDamage n | damage n => varIntBytes n
  | unbreakable => []
  | customName name | itemName name => textBytes name
  | itemModel model => stringBytes model.toString

def bytes (component : Component) : Bytes := varIntBytes component.type ++ component.payload

variable {component : Component}

theorem encode_eq (h : component.Fits) : component.encode = .ok component.bytes := by
  have hv := writable_fresh true
  refine bytesOf_eq ((hv.writeVarInt _).bind ?_)
  cases component with
  | customData data => exact produces_writeNBTElement hv h.1 h.2
  | maxStackSize n | maxDamage n | damage n => exact hv.writeVarInt n
  | unbreakable => exact Produces.pure
  | customName name | itemName name => exact produces_writeNBTElement hv h (encode_tag name)
  | itemModel model => exact hv.writeIdentifier model

theorem tells_text : Tells (fun name : TextComponent => (tree name.encode).WellFormed) textBytes
    textBytes :=
  (tells_nbt.comp TextComponent.encode).mono fun name h => ⟨h, encode_tag name⟩

/-- Of components of one type the payload tells itself. -/
theorem tells_payload (k : BitVec 32) :
    Tells (fun component => component.Fits ∧ component.type = k) payload payload := by
  have hnumber := tells_varInt.map varIntBytes
  rintro a b v w ⟨ha, rfl⟩ ⟨hb, htype⟩ heq
  cases a <;> cases b <;> first | (simp only [type] at htype; exact absurd htype (by decide)) | skip
  case customData.customData => exact tells_nbt ha hb heq
  case maxStackSize.maxStackSize => exact hnumber trivial trivial heq
  case maxDamage.maxDamage => exact hnumber trivial trivial heq
  case damage.damage => exact hnumber trivial trivial heq
  case unbreakable.unbreakable => exact ⟨rfl, heq⟩
  case customName.customName => exact tells_text ha hb heq
  case itemName.itemName => exact tells_text ha hb heq
  case itemModel.itemModel => exact (tells_string.map stringBytes) ha hb heq

theorem tells_bytes : Tells Fits bytes fun component => (component.type, component.bytes) := by
  have htype := (tells_varInt.comp type).mono (D := Fits) fun _ _ => trivial
  apply (htype.append tells_payload).congr
  intro a b _ _ heq
  obtain ⟨htypes, hpayload⟩ := Prod.mk.inj heq
  rw [bytes, bytes, show a.type = b.type from htypes, hpayload]

end Component

deriving instance DecidableEq for ComponentWrapper, Slot

/-! ### Checksums -/

/-- What the table makes of some bytes. -/
def checksumOf (state : CRC32) (data : Bytes) : BitVec 32 := (state.crc32 data).getD 0

theorem crc32Loop_isSome (state : CRC32) (crc : BitVec 32) (data : Bytes) :
    (state.crc32Loop crc data).isSome := by
  induction data generalizing crc with
  | nil => rfl
  | cons d data ih =>
    rw [CRC32.crc32Loop, Vector.getElem?_eq_getElem (CRC32.index_lt crc d)]
    exact ih _

theorem crc32_eq_some (state : CRC32) (data : Bytes) :
    state.crc32 data = some (checksumOf state data) := by
  have hsome : (state.crc32 data).isSome := by
    rw [CRC32.crc32, Option.isSome_map]
    exact crc32Loop_isSome state _ data
  rcases Option.isSome_iff_exists.mp hsome with ⟨crc, hcrc⟩
  rw [checksumOf, hcrc, Option.getD_some]

/-- A filled table gives the checksum. -/
theorem checksumOf_ready (n : ℕ) (data : Bytes) :
    checksumOf (CRC32.initCRC32^[n + 1] CRC32.new) data = CRC32.checksum data := by
  rw [checksumOf, (CRC32.crc32_eq n data [] [] 0).1, Option.getD_some]

/-- What is left of the register behind as many bytes. -/
def emptySum (data : Bytes) : BitVec 32 :=
  ((0xFFFFFFFF : BitVec 32) >>> (8 * data.length)) ^^^ 0xFFFFFFFF

theorem crc32Loop_new (crc : BitVec 32) (data : Bytes) :
    CRC32.new.crc32Loop crc data = some (crc >>> (8 * data.length)) := by
  induction data generalizing crc with
  | nil => rfl
  | cons d data ih =>
    rw [CRC32.crc32Loop, Vector.getElem?_eq_getElem (CRC32.index_lt crc d)]
    have hzero : ∀ i (hi : i < 256), CRC32.new.crc32Table[i] = 0 := fun i hi =>
      Vector.getElem_replicate hi
    have hcrc : crc >>> 8 ^^^ (0 : BitVec 32) = crc >>> 8 := BitVec.xor_zero
    rw [hzero, Option.bind_eq_bind, Option.bind_some, hcrc, ih, List.length_cons,
      ← BitVec.shiftRight_add, Nat.mul_succ, Nat.add_comm]

/-- An empty table looks at the length only. -/
theorem checksumOf_new (data : Bytes) : checksumOf CRC32.new data = emptySum data := by
  rw [checksumOf, CRC32.crc32, crc32Loop_new]
  rfl

/-- Four bytes push everything out of the register. -/
theorem emptySum_eq (data : Bytes) :
    emptySum data = ((0xFFFFFFFF : BitVec 32) >>> (8 * min data.length 4)) ^^^ 0xFFFFFFFF := by
  rcases Nat.le_total data.length 4 with hle | hle
  · rw [Nat.min_eq_left hle, emptySum]
  · rw [Nat.min_eq_right hle, emptySum, BitVec.ushiftRight_eq_zero (by omega)]
    rfl

theorem emptySum_eq_iff {v w : Bytes} :
    emptySum v = emptySum w ↔ min v.length 4 = min w.length 4 := by
  have hshift : ∀ i < 5, ∀ j < 5, ((0xFFFFFFFF : BitVec 32) >>> (8 * i)) ^^^ 0xFFFFFFFF =
      ((0xFFFFFFFF : BitVec 32) >>> (8 * j)) ^^^ 0xFFFFFFFF → i = j := by decide
  rw [emptySum_eq, emptySum_eq]
  exact ⟨hshift _ (by omega) _ (by omega), fun h => by rw [h]⟩

namespace Slot

/-- `operator==`; wrappers are compared by their type and data. -/
def equal (stack slot : Slot) : Bool :=
  slot.itemId = stack.itemId && slot.itemCount = stack.itemCount &&
    slot.componentsToAdd = stack.componentsToAdd && slot.componentsToRemove = stack.componentsToRemove

theorem equal_iff {a b : Slot} : a.equal b = true ↔ a = b := by
  cases a
  cases b
  simp only [equal, Bool.and_eq_true, decide_eq_true_eq, Slot.mk.injEq, and_assoc]
  simp only [eq_comm]

def toBytesHashed (state : CRC32) (slot : Slot) : Except Fault Bytes := bytesOf do
  writeByte (if 0 < slot.itemCount.toInt then 1 else 0)
  if 0 < slot.itemCount.toInt then do
    writeVarInt slot.itemId
    writeVarInt slot.itemCount
    writeVarInt (toInt slot.componentsToAdd.length)
    forEach (fun component => do
      writeVarInt component.type
      match state.crc32 component.dataAndType with
      | some crc => writeNumeric (k := 4) crc
      | none => fail .undefined) slot.componentsToAdd
    writeVarInt (toInt slot.componentsToRemove.length)
    forEach writeVarInt slot.componentsToRemove
  else pure ()

/-- The type and the checksum of a component. -/
def hashedComponent (state : CRC32) (component : ComponentWrapper) : Bytes :=
  varIntBytes component.type ++ numericBytes (k := 4) true (checksumOf state component.dataAndType)

def hashedBytes (state : CRC32) (slot : Slot) : Bytes :=
  [if 0 < slot.itemCount.toInt then 1 else 0] ++
    if 0 < slot.itemCount.toInt then
      varIntBytes slot.itemId ++ (varIntBytes slot.itemCount ++
        (varIntBytes (toInt slot.componentsToAdd.length) ++
          (slot.componentsToAdd.flatMap (hashedComponent state) ++
            (varIntBytes (toInt slot.componentsToRemove.length) ++
              slot.componentsToRemove.flatMap varIntBytes))))
    else []

theorem toBytesHashed_eq (state : CRC32) (slot : Slot) :
    slot.toBytesHashed state = .ok (slot.hashedBytes state) := by
  have hv := writable_fresh true
  refine bytesOf_eq ((hv.writeByte _).bind ?_)
  split
  · refine (hv.writeVarInt _).bind <| (hv.writeVarInt _).bind <| (hv.writeVarInt _).bind <|
      (Produces.forEach _ _ fun component _ => ?_).bind <| (hv.writeVarInt _).bind <|
        Produces.forEach _ _ fun component _ => hv.writeVarInt component
    rw [crc32_eq_some]
    exact (hv.writeVarInt component.type).bind (hv.writeNumeric _)
  · exact Produces.pure

/-! ### What the bytes tell -/

/-- The numbers of components fit an `int`. -/
structure Small (slot : Slot) : Prop where
  added : slot.componentsToAdd.length < 2 ^ 32
  removed : slot.componentsToRemove.length < 2 ^ 32

/-- A stack of components of `DefaultComponents`. -/
structure Made (slot : Slot) : Prop extends Small slot where
  wraps : ∀ wrapper ∈ slot.componentsToAdd, ∃ component : Component, component.Fits ∧
    wrapper = ⟨component.type, component.bytes⟩

theorem tells_items (h : Tells C enc f) (k : BitVec 32) :
    Tells (fun as : List α => as.length < 2 ^ 32 ∧ (∀ a ∈ as, C a) ∧ toInt as.length = k)
      (fun as => as.flatMap enc) (fun as => as.map f) := by
  rintro as bs v w ⟨has, has', rfl⟩ ⟨hbs, hbs', hlength⟩ heq
  exact h.repeated bs.length ⟨(toInt_inj hbs has hlength).symm, has'⟩ ⟨rfl, hbs'⟩ heq

theorem tells_wrapper :
    Tells (fun wrapper : ComponentWrapper => ∃ component : Component, component.Fits ∧
      wrapper = ⟨component.type, component.bytes⟩) ComponentWrapper.dataAndType id := by
  rintro _ _ v w ⟨a, ha, rfl⟩ ⟨b, hb, rfl⟩ heq
  rcases Component.tells_bytes ha hb heq with ⟨hboth, hrest⟩
  obtain ⟨htype, hbytes⟩ := Prod.mk.inj hboth
  exact ⟨by rw [htype, hbytes], hrest⟩

theorem tells_numbers (k : BitVec 32) :
    Tells (fun as : List (BitVec 32) => as.length < 2 ^ 32 ∧ toInt as.length = k)
      (fun as => as.flatMap varIntBytes) id := by
  apply ((tells_items tells_varInt k).mono fun as h => ⟨h.1, fun _ _ => trivial, h.2⟩).congr
  intro a b _ _ heq
  simpa using heq

theorem tells_componentBytes : Tells Made componentBytes fun slot =>
    (slot.itemId, slot.componentsToAdd, slot.componentsToRemove) := by
  intro a b v w ha hb heq
  simp only [componentBytes, List.append_assoc] at heq
  rcases tells_varInt trivial trivial heq with ⟨hid, heq⟩
  rcases tells_varInt trivial trivial heq with ⟨hadded, heq⟩
  rcases tells_varInt trivial trivial heq with ⟨hremoved, heq⟩
  rcases tells_items tells_wrapper _ ⟨ha.added, ha.wraps, rfl⟩ ⟨hb.added, hb.wraps, hadded.symm⟩ heq
    with ⟨hcomponents, heq⟩
  rcases tells_numbers _ ⟨ha.removed, rfl⟩ ⟨hb.removed, hremoved.symm⟩ heq with ⟨hnumbers, hrest⟩
  simp only [List.map_id, id] at hid hcomponents hnumbers
  exact ⟨Prod.ext hid (Prod.ext hcomponents hnumbers), hrest⟩

/-- A stack without items is written as its number, whatever else it holds. -/
theorem toBytes_agrees {a b : Slot} (ha : a.Made) (hb : b.Made) :
    a.toBytes = b.toBytes ↔
      a.equal b = true ∨ a.itemCount = b.itemCount ∧ a.itemCount.toInt ≤ 0 := by
  rw [toBytes_eq, toBytes_eq, Except.ok.injEq, equal_iff]
  constructor
  · intro heq
    rcases tells_varInt trivial trivial heq with ⟨hcount, heq⟩
    by_cases hpos : 0 < a.itemCount.toInt
    · have hpos' : 0 < b.itemCount.toInt := by rwa [← show a.itemCount = b.itemCount from hcount]
      rw [if_pos hpos, if_pos hpos'] at heq
      have hcontents := tells_componentBytes.eq ha hb heq
      simp only [Prod.mk.injEq] at hcontents
      cases a
      cases b
      exact .inl (Slot.mk.injEq .. ▸ ⟨hcontents.1, hcount, hcontents.2⟩)
    · exact .inr ⟨hcount, not_lt.mp hpos⟩
  · rintro (rfl | ⟨hcount, hempty⟩)
    · rfl
    · rw [bytes, bytes, ← hcount, if_neg (not_lt.mpr hempty), if_neg (not_lt.mpr hempty)]

/-- One item with a limit for the size of its stack. -/
def limited (n : BitVec 32) : Slot :=
  ⟨1, 1, [⟨(Component.maxStackSize n).type, (Component.maxStackSize n).bytes⟩], []⟩

theorem made_limited (n : BitVec 32) : (limited n).Made where
  added := by simp [limited]
  removed := by simp [limited]
  wraps wrapper hwrapper := by
    rw [List.mem_singleton.mp hwrapper]
    exact ⟨.maxStackSize n, trivial, rfl⟩

theorem toBytes_agrees_limited : (limited 16).toBytes ≠ (limited 64).toBytes := by
  rw [ne_eq, toBytes_agrees (made_limited 16) (made_limited 64)]
  decide

/-- The items and what a function makes of the data of their components agree. -/
def HashedAs {β : Type} (sum : Bytes → β) (a b : Slot) : Prop :=
  a.itemId = b.itemId ∧ a.itemCount = b.itemCount ∧
    (a.componentsToAdd.map fun component => (component.type, sum component.dataAndType)) =
      (b.componentsToAdd.map fun component => (component.type, sum component.dataAndType)) ∧
    a.componentsToRemove = b.componentsToRemove

theorem HashedAs.congr {β γ : Type} {sum : Bytes → β} {sum' : Bytes → γ}
    (h : ∀ v w, sum v = sum w ↔ sum' v = sum' w) {a b : Slot} :
    HashedAs sum a b ↔ HashedAs sum' a b := by
  unfold HashedAs
  simp only [← List.forall₂_eq_eq_eq, List.forall₂_map_left_iff, List.forall₂_map_right_iff,
    Prod.mk.injEq, h]

theorem tells_hashedComponent (state : CRC32) :
    Tells (fun _ => True) (hashedComponent state) fun component =>
      (component.type, checksumOf state component.dataAndType) := by
  intro a b v w _ _ heq
  simp only [hashedComponent, List.append_assoc] at heq
  rcases tells_varInt trivial trivial heq with ⟨htype, heq⟩
  rcases tells_numeric (k := 4) (by decide) trivial trivial heq with ⟨hsum, hrest⟩
  exact ⟨Prod.ext htype hsum, hrest⟩

theorem hashedBytes_agrees (state : CRC32) {a b : Slot} (ha : a.Small) (hb : b.Small) :
    a.toBytesHashed state = b.toBytesHashed state ↔
      (a.itemCount.toInt ≤ 0 ∧ b.itemCount.toInt ≤ 0) ∨
        0 < a.itemCount.toInt ∧ HashedAs (checksumOf state) a b := by
  rw [toBytesHashed_eq, toBytesHashed_eq, Except.ok.injEq]
  constructor
  · intro heq
    obtain ⟨hflag, heq⟩ := List.cons.inj heq
    by_cases hpos : 0 < a.itemCount.toInt <;> by_cases hpos' : 0 < b.itemCount.toInt
    · have heq := (List.nil_append _).symm.trans (heq.trans (List.nil_append _))
      rw [if_pos hpos, if_pos hpos'] at heq
      rcases tells_varInt trivial trivial heq with ⟨hid, heq⟩
      rcases tells_varInt trivial trivial heq with ⟨hcount, heq⟩
      rcases tells_varInt trivial trivial heq with ⟨hadded, heq⟩
      rcases tells_items (tells_hashedComponent state) _ ⟨ha.added, fun _ _ => trivial, rfl⟩
        ⟨hb.added, fun _ _ => trivial, hadded.symm⟩ heq with ⟨hcomponents, heq⟩
      rcases tells_varInt trivial trivial heq with ⟨hremoved, heq⟩
      have hnumbers := (tells_numbers _).eq ⟨ha.removed, rfl⟩ ⟨hb.removed, hremoved.symm⟩ heq
      exact .inr ⟨hpos, hid, hcount, hcomponents, hnumbers⟩
    · rw [if_pos hpos, if_neg hpos'] at hflag
      exact absurd hflag (by decide)
    · rw [if_neg hpos, if_pos hpos'] at hflag
      exact absurd hflag (by decide)
    · exact .inl ⟨not_lt.mp hpos, not_lt.mp hpos'⟩
  · rintro (⟨hempty, hempty'⟩ | ⟨hpos, hid, hcount, hcomponents, hremoved⟩)
    · rw [hashedBytes, hashedBytes, if_neg (not_lt.mpr hempty), if_neg (not_lt.mpr hempty'),
        if_neg (not_lt.mpr hempty), if_neg (not_lt.mpr hempty')]
    · have hlength := congrArg List.length hcomponents
      have hword := congrArg (List.flatMap fun x : BitVec 32 × BitVec 32 =>
        varIntBytes x.1 ++ numericBytes (k := 4) true x.2) hcomponents
      rw [List.length_map, List.length_map] at hlength
      rw [List.flatMap_map, List.flatMap_map] at hword
      have hcomponents' : a.componentsToAdd.flatMap (hashedComponent state) =
          b.componentsToAdd.flatMap (hashedComponent state) := hword
      rw [hashedBytes, hashedBytes, ← hcount, ← hid, ← hremoved, ← hlength, hcomponents']

/-- With the table that `main` has filled, stacks are told apart by the checksums of their
components; with an empty one, as before that call of `initCRC32`, by the lengths of these up to
four bytes. -/
theorem toBytesHashed_agrees {a b : Slot} (ha : a.Small) (hb : b.Small) (n : ℕ) :
    (a.toBytesHashed (CRC32.initCRC32^[n + 1] CRC32.new) =
        b.toBytesHashed (CRC32.initCRC32^[n + 1] CRC32.new) ↔
      (a.itemCount.toInt ≤ 0 ∧ b.itemCount.toInt ≤ 0) ∨
        0 < a.itemCount.toInt ∧ HashedAs CRC32.checksum a b) ∧
    (a.toBytesHashed CRC32.new = b.toBytesHashed CRC32.new ↔
      (a.itemCount.toInt ≤ 0 ∧ b.itemCount.toInt ≤ 0) ∨
        0 < a.itemCount.toInt ∧ HashedAs (fun data => min data.length 4) a b) := by
  have hready : checksumOf (CRC32.initCRC32^[n + 1] CRC32.new) = CRC32.checksum := by
    funext data
    exact checksumOf_ready n data
  have hnew : checksumOf CRC32.new = emptySum := by
    funext data
    exact checksumOf_new data
  rw [hashedBytes_agrees _ ha hb, hashedBytes_agrees _ ha hb, hready, hnew,
    HashedAs.congr fun _ _ => emptySum_eq_iff]
  exact ⟨Iff.rfl, Iff.rfl⟩

/-- Two limits of one length. -/
theorem toBytesHashed_agrees_limited :
    (limited 16).toBytesHashed CRC32.new = (limited 64).toBytesHashed CRC32.new := by
  apply (toBytesHashed_agrees (made_limited 16).toSmall (made_limited 64).toSmall 0).2.mpr
  exact .inr ⟨by decide, rfl, rfl, by decide, rfl⟩

end Slot

end Zinc.Game
