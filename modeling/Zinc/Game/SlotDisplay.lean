import Zinc.Game.Registry

/-! Slot displays. A display is a tree: three of the eight registered types have displays as
children, and their writers and readers call those of displays again. Each type is judged by
itself, and an induction over the tree puts the words together. The reader of an item stack
reads nothing of it. No tree with one comes back: the word of what comes back would have as many
last digits of numbers as the word that was written, and the stack has one more. -/

namespace Zinc.Game

open Throw Buffer Buffer.ByteBuffer Base128

/-! ### Slots -/

structure ComponentWrapper where
  type : BitVec 32
  dataAndType : Bytes

structure Slot where
  itemId : BitVec 32
  itemCount : BitVec 32
  componentsToAdd : List ComponentWrapper
  componentsToRemove : List (BitVec 32)

namespace Slot

/-- `Slot()`. -/
def new : Slot := ⟨-1, 0, [], []⟩

def toBytes (slot : Slot) : Except Fault Bytes := bytesOf do
  writeVarInt slot.itemCount
  if 0 < slot.itemCount.toInt then do
    writeVarInt slot.itemId
    writeVarInt (toInt slot.componentsToAdd.length)
    writeVarInt (toInt slot.componentsToRemove.length)
    forEach (fun component => writeByteArray component.dataAndType) slot.componentsToAdd
    forEach writeVarInt slot.componentsToRemove
  else pure ()

/-- The components of a slot that has items. -/
def componentBytes (slot : Slot) : Bytes :=
  varIntBytes slot.itemId ++ (varIntBytes (toInt slot.componentsToAdd.length) ++
    (varIntBytes (toInt slot.componentsToRemove.length) ++
      (slot.componentsToAdd.flatMap ComponentWrapper.dataAndType ++
        slot.componentsToRemove.flatMap varIntBytes)))

def bytes (slot : Slot) : Bytes :=
  varIntBytes slot.itemCount ++ if 0 < slot.itemCount.toInt then slot.componentBytes else []

theorem toBytes_eq (slot : Slot) : slot.toBytes = .ok slot.bytes := by
  have hv := writable_fresh true
  refine bytesOf_eq ((hv.writeVarInt _).bind ?_)
  split
  · exact (hv.writeVarInt _).bind <| (hv.writeVarInt _).bind <| (hv.writeVarInt _).bind <|
      (Produces.forEach _ _ fun component _ => hv.writeBytes component.dataAndType).bind <|
        Produces.forEach _ _ fun component _ => hv.writeVarInt component
  · exact Produces.pure

/-- The number of items ends with its last digit. -/
theorem stops_bytes_pos (slot : Slot) : 0 < stops slot.bytes := by
  rw [bytes, stops_append, stops_varIntBytes]
  omega

end Slot

def writeSlot (slot : Slot) : Action Unit := fun buffer => do
  let bytes ← slot.toBytes
  writeByteArray bytes buffer

/-! ### Displays -/

structure SlotDisplay where
  type : Identifier
  itemType : BitVec 32
  itemStack : Slot
  tag : Identifier
  children : List SlotDisplay
  customData : Bytes

/-- `SlotDisplay()`; the item type, which has no initial value, is 0 here. -/
def SlotDisplay.new : SlotDisplay := ⟨⟨utf8 "minecraft", utf8 "empty"⟩, 0, .new, .new, [], []⟩

instance : Inhabited SlotDisplay := ⟨.new⟩

structure SlotDisplayData where
  itemType : BitVec 32
  itemStack : Slot
  tag : Identifier
  children : List SlotDisplay
  customData : Bytes

/-- `SlotDisplayData()`. -/
def SlotDisplayData.new : SlotDisplayData := ⟨0, .new, .new, [], []⟩

/-- The data that `toBytes` gives to a writer. -/
def SlotDisplay.data (display : SlotDisplay) : SlotDisplayData :=
  ⟨display.itemType, display.itemStack, display.tag, display.children, display.customData⟩

/-- The display that `readSlotDisplay` makes of the data. -/
def SlotDisplay.ofData (type : Identifier) (data : SlotDisplayData) : SlotDisplay :=
  ⟨type, data.itemType, data.itemStack, data.tag, data.children, data.customData⟩

/-- The bytes of a display in a buffer. -/
def writeDisplay (toBytes : SlotDisplay → Except Fault Bytes) (display : SlotDisplay) :
    Action Unit := fun buffer => do
  let bytes ← toBytes display
  writeByteArray bytes buffer

/-- Displays of a fixed number: if there is another number of them, that many empty ones. -/
def writeDisplays (toBytes : SlotDisplay → Except Fault Bytes) (n : ℕ)
    (displays : List SlotDisplay) : Action Unit :=
  forEach (writeDisplay toBytes)
    (if displays.length ≠ n then List.replicate n .new else displays)

inductive SlotDisplayType where
  | empty
  | anyFuel
  | item
  | itemStack
  | tag
  | smithingTrim
  | withRemainder
  | composite
  deriving DecidableEq

namespace SlotDisplayType

def name : SlotDisplayType → String
  | empty => "minecraft:empty"
  | anyFuel => "minecraft:any_fuel"
  | item => "minecraft:item"
  | itemStack => "minecraft:item_stack"
  | tag => "minecraft:tag"
  | smithingTrim => "minecraft:smithing_trim"
  | withRemainder => "minecraft:with_remainder"
  | composite => "minecraft:composite"

def number : SlotDisplayType → BitVec 32
  | empty => 0
  | anyFuel => 1
  | item => 2
  | itemStack => 3
  | tag => 4
  | smithingTrim => 5
  | withRemainder => 6
  | composite => 7

theorem colon (type : SlotDisplayType) : 58 ∈ utf8 type.name := by
  cases type <;> decide +kernel

/-- What the writer of a type writes to its buffer. -/
def write (toBytes : SlotDisplay → Except Fault Bytes) (data : SlotDisplayData) :
    SlotDisplayType → Action Unit
  | empty | anyFuel => pure ()
  | item => writeVarInt data.itemType
  | itemStack => writeSlot data.itemStack
  | tag => writeIdentifier data.tag
  | smithingTrim => writeDisplays toBytes 3 data.children
  | withRemainder => writeDisplays toBytes 2 data.children
  | composite => writePrefixedArray data.children (writeDisplay toBytes)

def read (readDisplay : Action SlotDisplay) : SlotDisplayType → Action SlotDisplayData
  | empty | anyFuel | itemStack => pure .new
  | item => do
    let itemType ← readVarInt
    pure { SlotDisplayData.new with itemType }
  | tag => do
    let tag ← readIdentifier
    pure { SlotDisplayData.new with tag }
  | smithingTrim => do
    let children ← readArray readDisplay 3
    pure { SlotDisplayData.new with children }
  | withRemainder => do
    let children ← readArray readDisplay 2
    pure { SlotDisplayData.new with children }
  | composite => do
    let children ← readPrefixedArray readDisplay
    pure { SlotDisplayData.new with children }

end SlotDisplayType

/-- `g_slotDisplayRegistry`, over the writer and the reader of displays. -/
def slotDisplayRegistry (toBytes : SlotDisplay → Except Fault Bytes)
    (readDisplay : Action SlotDisplay) : Registry SlotDisplayData where
  registryData := [("minecraft:empty", 0), ("minecraft:any_fuel", 1), ("minecraft:item", 2),
    ("minecraft:item_stack", 3), ("minecraft:tag", 4), ("minecraft:smithing_trim", 5),
    ("minecraft:with_remainder", 6), ("minecraft:composite", 7)]
  writers := [
    ("minecraft:empty", fun data => bytesOf (SlotDisplayType.empty.write toBytes data)),
    ("minecraft:any_fuel", fun data => bytesOf (SlotDisplayType.anyFuel.write toBytes data)),
    ("minecraft:item", fun data => bytesOf (SlotDisplayType.item.write toBytes data)),
    ("minecraft:item_stack", fun data => bytesOf (SlotDisplayType.itemStack.write toBytes data)),
    ("minecraft:tag", fun data => bytesOf (SlotDisplayType.tag.write toBytes data)),
    ("minecraft:smithing_trim",
      fun data => bytesOf (SlotDisplayType.smithingTrim.write toBytes data)),
    ("minecraft:with_remainder",
      fun data => bytesOf (SlotDisplayType.withRemainder.write toBytes data)),
    ("minecraft:composite", fun data => bytesOf (SlotDisplayType.composite.write toBytes data))]
  readers := [
    ("minecraft:empty", SlotDisplayType.empty.read readDisplay),
    ("minecraft:any_fuel", SlotDisplayType.anyFuel.read readDisplay),
    ("minecraft:item", SlotDisplayType.item.read readDisplay),
    ("minecraft:item_stack", SlotDisplayType.itemStack.read readDisplay),
    ("minecraft:tag", SlotDisplayType.tag.read readDisplay),
    ("minecraft:smithing_trim", SlotDisplayType.smithingTrim.read readDisplay),
    ("minecraft:with_remainder", SlotDisplayType.withRemainder.read readDisplay),
    ("minecraft:composite", SlotDisplayType.composite.read readDisplay)]
  defaultIdentifier := ⟨utf8 "minecraft", utf8 "empty"⟩

/-- The fuel bounds the recursion. -/
def SlotDisplay.toBytes : ℕ → SlotDisplay → Except Fault Bytes
  | 0, _ => .error .stuck
  | n + 1, display =>
    (slotDisplayRegistry (toBytes n) (fail .stuck)).toBytes display.type display.data

def writeSlotDisplay (n : ℕ) (display : SlotDisplay) : Action Unit :=
  writeDisplay (SlotDisplay.toBytes n) display

def readSlotDisplay : ℕ → Action SlotDisplay
  | 0 => fail .stuck
  | n + 1 => do
    let typed ← (slotDisplayRegistry (fun _ => .error .stuck) (readSlotDisplay n)).readTyped
    pure (.ofData typed.1 typed.2)

/-! ### Trees -/

namespace SlotDisplayType

/-- The children that a type uses. -/
def used (data : SlotDisplayData) : SlotDisplayType → List SlotDisplay
  | smithingTrim | withRemainder | composite => data.children
  | _ => []

/-- The number of children that a type has to have. -/
def Arity (data : SlotDisplayData) : SlotDisplayType → Prop
  | smithingTrim => data.children.length = 3
  | withRemainder => data.children.length = 2
  | _ => True

/-- An `int` can announce the tag or the children. -/
def Sizes (data : SlotDisplayData) : SlotDisplayType → Prop
  | tag => data.tag.toString.length < 2 ^ 31
  | composite => Counted data.children.length
  | _ => True

/-- When the fields of a type come back: never for an item stack. -/
def Keeps (data : SlotDisplayData) (type : SlotDisplayType) : Prop :=
  type ≠ itemStack ∧ type.Sizes data

/-- The fields that a type uses, apart from children; `operator==` compares the texts of tags. -/
def Agrees (data data' : SlotDisplayData) : SlotDisplayType → Prop
  | item => data'.itemType = data.itemType
  | itemStack => data'.itemStack = data.itemStack
  | tag => data'.tag.toString = data.tag.toString
  | _ => True

theorem name_injective : Function.Injective name := by
  intro type type' h
  cases type <;> cases type' <;> first | rfl | exact absurd h (by decide)

end SlotDisplayType

namespace SlotDisplay

variable {P Q : SlotDisplayType → SlotDisplayData → Prop} {display display' : SlotDisplay}

/-- Every node has a registered type and the property, down the children that are used. -/
inductive Each (P : SlotDisplayType → SlotDisplayData → Prop) : SlotDisplay → Prop
  | node {display : SlotDisplay} {type : SlotDisplayType}
      (htype : display.type.toString = utf8 type.name) (h : P type display.data)
      (hused : ∀ child ∈ type.used display.data, Each P child) : Each P display

/-- The registered types, with the number of children that each has to have. -/
def Valid : SlotDisplay → Prop := Each fun type data => type.Arity data

/-- Moreover the fields of every node come back. -/
def Sound : SlotDisplay → Prop := Each fun type data => type.Arity data ∧ type.Keeps data

/-- An `int` can announce the tags and the children of all nodes. -/
def Sized : SlotDisplay → Prop := Each fun type data => type.Sizes data

/-- Node by node the same registered type, and the fields that it uses. -/
inductive Agrees : SlotDisplay → SlotDisplay → Prop
  | node {display display' : SlotDisplay} {type : SlotDisplayType}
      (htype : display.type.toString = utf8 type.name)
      (htype' : display'.type.toString = utf8 type.name)
      (h : type.Agrees display.data display'.data)
      (hused : List.Forall₂ Agrees (type.used display.data) (type.used display'.data)) :
      Agrees display display'

theorem Each.imp (h : Each P display) (himp : ∀ type data, P type data → Q type data) :
    Each Q display := by
  induction h with
  | node htype h _ ih => exact .node htype (himp _ _ h) ih

theorem Each.and (h : Each P display) (h' : Each Q display) :
    Each (fun type data => P type data ∧ Q type data) display := by
  induction h with
  | node htype h hused ih =>
    cases h' with
    | node htype' h' hused' =>
      obtain rfl := Registry.unique_of_name SlotDisplayType.name_injective htype htype'
      exact .node htype ⟨h, h'⟩ fun child hchild => ih child hchild (hused' child hchild)

/-- What holds for the displays that agree with the displays of a list. -/
theorem forall_of_agrees {displays displays' : List SlotDisplay} {R : SlotDisplay → Prop}
    (h : List.Forall₂ Agrees displays displays')
    (hR : ∀ child' ∈ displays', ∀ child : SlotDisplay, child.Agrees child' → R child) :
    ∀ child ∈ displays, R child := by
  induction h with
  | nil => exact fun child hchild => absurd hchild List.not_mem_nil
  | cons hagrees _ ih =>
    rw [List.forall_mem_cons] at hR ⊢
    exact ⟨hR.1 _ hagrees, ih hR.2⟩

/-- The sizes of a display that agrees with another one. -/
theorem Agrees.sized (hsized : display'.Sized) :
    ∀ {display : SlotDisplay}, display.Agrees display' → display.Sized := by
  induction hsized with
  | @node display' type htype' hsizes hused ih =>
    rintro display ⟨htype, htype'', hagrees, hforall⟩
    obtain rfl := Registry.unique_of_name SlotDisplayType.name_injective htype' htype''
    refine .node htype ?_ (forall_of_agrees hforall fun child' hchild' _ => ih child' hchild')
    cases type with
    | tag => exact (congrArg List.length hagrees).symm.trans_lt hsizes
    | composite =>
      have hlength : display.data.children.length = display'.data.children.length :=
        hforall.length_eq
      unfold SlotDisplayType.Sizes
      rwa [hlength]
    | _ => trivial

end SlotDisplay

/-! ### Words -/

namespace SlotDisplayType

/-- The word of the fields of a type, around the words of the children. -/
def payload (stack : Slot → Bytes) (data : SlotDisplayData) (words : List Bytes) :
    SlotDisplayType → Bytes
  | empty | anyFuel => []
  | item => varIntBytes data.itemType
  | itemStack => stack data.itemStack
  | tag => stringBytes data.tag.toString
  | smithingTrim | withRemainder => words.flatten
  | composite => varIntBytes (toInt words.length) ++ words.flatten

def all : List SlotDisplayType :=
  [empty, anyFuel, item, itemStack, tag, smithingTrim, withRemainder, composite]

def ofText (text : Bytes) : Option SlotDisplayType := all.find? fun type => utf8 type.name = text

theorem ofText_name (type : SlotDisplayType) : ofText (utf8 type.name) = some type := by
  cases type <;> decide +kernel

end SlotDisplayType

mutual

/-- The word of a tree, with a given word for item stacks. -/
def SlotDisplay.bytes (stack : Slot → Bytes) : SlotDisplay → Bytes
  | ⟨type, itemType, itemStack, tag, children, customData⟩ =>
    match SlotDisplayType.ofText type.toString with
    | some type => varIntBytes type.number ++ type.payload stack
        ⟨itemType, itemStack, tag, children, customData⟩ (displayWords stack children)
    | none => []

def displayWords (stack : Slot → Bytes) : List SlotDisplay → List Bytes
  | [] => []
  | display :: displays => display.bytes stack :: displayWords stack displays

end

theorem displayWords_eq (stack : Slot → Bytes) (displays : List SlotDisplay) :
    displayWords stack displays = displays.map (SlotDisplay.bytes stack) := by
  induction displays with
  | nil => rfl
  | cons display displays ih => rw [displayWords, ih, List.map_cons]

namespace SlotDisplay

variable {P : SlotDisplayType → SlotDisplayData → Prop} {display display' : SlotDisplay}
  {type : SlotDisplayType} {stack : Slot → Bytes}

theorem bytes_eq (htype : display.type.toString = utf8 type.name) : display.bytes stack =
    varIntBytes type.number ++ type.payload stack display.data
      ((type.used display.data).map (SlotDisplay.bytes stack)) := by
  obtain ⟨type', itemType, itemStack, tag, children, customData⟩ := display
  have hname : SlotDisplayType.ofText type'.toString = some type := by
    rw [show type'.toString = utf8 type.name from htype]
    exact SlotDisplayType.ofText_name type
  rw [bytes, hname, displayWords_eq]
  cases type <;> rfl

/-- Displays that agree one by one have the same words if each has. -/
theorem map_bytes_of_agrees {displays displays' : List SlotDisplay}
    (h : List.Forall₂ Agrees displays displays')
    (hwords : ∀ child ∈ displays, ∀ child' : SlotDisplay, child.Agrees child' →
      child'.bytes stack = child.bytes stack) :
    displays'.map (SlotDisplay.bytes stack) = displays.map (SlotDisplay.bytes stack) := by
  induction h with
  | nil => rfl
  | cons hagrees _ ih =>
    rw [List.forall_mem_cons] at hwords
    rw [List.map_cons, List.map_cons, hwords.1 _ hagrees, ih hwords.2]

/-- Displays that agree have one word. -/
theorem Agrees.bytes_eq (hvalid : Each P display) : ∀ {display' : SlotDisplay},
    display.Agrees display' → display'.bytes stack = display.bytes stack := by
  induction hvalid with
  | @node display type htype _ _ ih =>
    rintro display' ⟨htype', htype'', hagrees, hforall⟩
    obtain rfl := Registry.unique_of_name SlotDisplayType.name_injective htype htype'
    rw [SlotDisplay.bytes_eq htype, SlotDisplay.bytes_eq htype'',
      map_bytes_of_agrees hforall fun child hchild _ => ih child hchild]
    congr 1
    cases type with
    | item => exact congrArg varIntBytes hagrees
    | itemStack => exact congrArg stack hagrees
    | tag => exact congrArg stringBytes hagrees
    | _ => rfl

end SlotDisplay

/-! ### Writing and reading -/

section

variable {e : Bool} {view : ByteBuffer → Bytes → Prop} {type : SlotDisplayType}
  {toBytes : SlotDisplay → Except Fault Bytes} {readDisplay : Action SlotDisplay}
  {enc : SlotDisplay → Bytes}

theorem SlotDisplayType.entry (type : SlotDisplayType) :
    (slotDisplayRegistry toBytes readDisplay).Entry type.name type.number
      (fun data => bytesOf (type.write toBytes data)) (type.read readDisplay) := by
  cases type <;> constructor <;> first | decide +kernel |
    simp [Registry.find, slotDisplayRegistry, name, number]

theorem produces_writeDisplay (hv : Writable e view) {display : SlotDisplay} {w : Bytes}
    (h : toBytes display = .ok w) : Produces view (writeDisplay toBytes display) w := by
  unfold writeDisplay
  rw [h]
  exact hv.writeBytes w

theorem produces_writeDisplays (hv : Writable e view) {n : ℕ} {displays : List SlotDisplay}
    (hlength : displays.length = n)
    (h : ∀ display ∈ displays, toBytes display = .ok (enc display)) :
    Produces view (writeDisplays toBytes n displays) (displays.flatMap enc) := by
  rw [writeDisplays, if_neg (not_not.mpr hlength)]
  exact Produces.forEach _ _ fun display hdisplay => produces_writeDisplay hv (h display hdisplay)

theorem SlotDisplayType.produces_write (hv : Writable e view) {data : SlotDisplayData}
    (harity : type.Arity data) (h : ∀ child ∈ type.used data, toBytes child = .ok (enc child)) :
    Produces view (type.write toBytes data)
      (type.payload Slot.bytes data ((type.used data).map enc)) := by
  cases type with
  | empty | anyFuel => exact Produces.pure
  | item => exact hv.writeVarInt _
  | itemStack =>
    unfold write writeSlot
    rw [Slot.toBytes_eq]
    exact hv.writeBytes _
  | tag => exact hv.writeIdentifier _
  | smithingTrim | withRemainder =>
    rw [payload, ← List.flatMap_def]
    exact produces_writeDisplays hv harity h
  | composite =>
    rw [payload, List.length_map, ← List.flatMap_def]
    exact hv.writePrefixedArray fun child hchild => produces_writeDisplay hv (h child hchild)

/-- With enough fuel a tree is written as its word. -/
theorem SlotDisplay.exists_toBytes {display : SlotDisplay} (h : display.Valid) :
    ∃ bound, ∀ n ≥ bound, display.toBytes n = .ok (display.bytes Slot.bytes) := by
  induction h with
  | @node display type htype harity _ ih =>
    obtain ⟨bound, hbound⟩ := exists_bound _ ih
    refine ⟨bound + 1, fun n hn => ?_⟩
    obtain ⟨m, rfl⟩ : ∃ m, n = m + 1 := ⟨n - 1, by omega⟩
    rw [SlotDisplay.bytes_eq htype]
    have hwrite := type.produces_write (writable_fresh true) harity fun child hchild =>
      hbound child hchild m (by omega)
    exact type.entry.toBytes_eq htype (bytesOf_eq hwrite)

/-- The data that is read of the fields of a type, with what is read of the children. -/
theorem SlotDisplayType.exists_consumes (hv : Readable e view) {data : SlotDisplayData}
    (harity : type.Arity data) (hkeeps : type.Keeps data) (enc : SlotDisplay → Bytes)
    (dec : SlotDisplay → SlotDisplay) :
    ∃ data', type.Agrees data data' ∧ type.used data' = (type.used data).map dec ∧
      ∀ readDisplay : Action SlotDisplay,
        (∀ child ∈ type.used data, Consumes view readDisplay (enc child) (dec child)) →
        Consumes view (type.read readDisplay)
          (type.payload Slot.bytes data ((type.used data).map enc)) data' := by
  obtain ⟨hstack, hsizes⟩ := hkeeps
  cases type with
  | empty | anyFuel => exact ⟨.new, trivial, rfl, fun _ _ => Consumes.pure _⟩
  | item =>
    exact ⟨{ SlotDisplayData.new with itemType := data.itemType }, rfl, rfl,
      fun _ _ => (hv.readVarInt data.itemType).bind_pure _⟩
  | itemStack => exact absurd rfl hstack
  | tag =>
    obtain ⟨tag, htag, hread⟩ := hv.readIdentifier hsizes
    exact ⟨{ SlotDisplayData.new with tag }, htag, rfl, fun _ _ => hread.bind_pure _⟩
  | smithingTrim | withRemainder =>
    refine ⟨{ SlotDisplayData.new with children := data.children.map dec }, trivial, rfl,
      fun readDisplay h => ?_⟩
    have hread := Consumes.replicate_map enc dec data.children h
    rw [show data.children.length = _ from harity] at hread
    rw [payload, ← List.flatMap_def]
    exact hread.bind_pure _
  | composite =>
    refine ⟨{ SlotDisplayData.new with children := data.children.map dec }, trivial, rfl,
      fun readDisplay h => ?_⟩
    rw [payload, List.length_map, ← List.flatMap_def]
    exact (hv.readPrefixedArray_map hsizes h).bind_pure _

/-- With enough fuel a sound tree is read from its word. -/
theorem SlotDisplay.exists_consumes (hv : Readable e view) {display : SlotDisplay}
    (h : display.Sound) : ∃ display', display.Agrees display' ∧ ∃ bound, ∀ n ≥ bound,
      Consumes view (readSlotDisplay n) (display.bytes Slot.bytes) display' := by
  induction h with
  | @node display type htype hP _ ih =>
    choose! dec hagrees hdec using ih
    obtain ⟨bound, hbound⟩ := exists_bound _ hdec
    obtain ⟨data', hdata, hused, hread⟩ :=
      type.exists_consumes hv hP.1 hP.2 (SlotDisplay.bytes Slot.bytes) dec
    obtain ⟨identifier, hparsed, htext⟩ := Identifier.toString_ofString type.colon
    refine ⟨.ofData identifier data', .node htype htext hdata ?_, bound + 1, fun n hn => ?_⟩
    · change List.Forall₂ Agrees _ (type.used data')
      rw [hused, List.forall₂_map_right_iff, List.forall₂_same]
      exact hagrees
    · obtain ⟨m, rfl⟩ : ∃ m, n = m + 1 := ⟨n - 1, by omega⟩
      rw [SlotDisplay.bytes_eq htype]
      have hchildren := hread (readSlotDisplay m) fun child hchild =>
        hbound child hchild m (by omega)
      exact (type.entry.consumes_of_parsed hv hparsed htext hchildren).bind_pure _

/-! ### What comes back -/

theorem enumerates_slotDisplayRegistry : (slotDisplayRegistry toBytes readDisplay).Enumerates
    SlotDisplayType.name fun type => type.read readDisplay :=
  .of_map SlotDisplayType.all rfl

/-- The sizes of what was read of the fields of a type. -/
theorem SlotDisplayType.yields_read (type : SlotDisplayType) {R : SlotDisplay → Prop}
    (h : Yields R readDisplay) : Yields (fun data => type.Sizes data ∧
      ∀ child ∈ type.used data, R child) (type.read readDisplay) := by
  cases type with
  | empty | anyFuel | itemStack =>
    exact Yields.pure ⟨trivial, fun child hchild => absurd hchild List.not_mem_nil⟩
  | item =>
    exact Yields.of_bind fun _ =>
      Yields.pure ⟨trivial, fun child hchild => absurd hchild List.not_mem_nil⟩
  | tag =>
    exact yields_readIdentifier.map _ fun tag htag =>
      ⟨htag, fun child hchild => absurd hchild List.not_mem_nil⟩
  | smithingTrim | withRemainder =>
    exact (h.replicate _).map _ fun children hchildren => ⟨trivial, hchildren.2⟩
  | composite => exact (yields_readPrefixedArray h).map _ fun _ hchildren => hchildren

theorem yields_readSlotDisplay (n : ℕ) : Yields SlotDisplay.Sized (readSlotDisplay n) := by
  induction n with
  | zero => exact fun _ _ h => by cases h
  | succ n ih =>
    refine (enumerates_slotDisplayRegistry.yields_readTyped fun type =>
      type.yields_read ih).map _ ?_
    rintro ⟨identifier, data⟩ ⟨type, htext, hsizes, hused⟩
    exact .node htext hsizes hused

/-- Nothing of an item stack is read. -/
def Slot.noBytes : Slot → Bytes := fun _ => []

/-- The reader of a type takes no more stops than the fields of its result have. -/
theorem SlotDisplayType.spares_read {b : InternalByteBuffer} (type : SlotDisplayType)
    (h : Spares b e 0 readDisplay enc) : Spares b e 0 (type.read readDisplay) fun data =>
      type.payload Slot.noBytes data ((type.used data).map enc) := by
  cases type with
  | empty | anyFuel | itemStack => exact Spares.pure (Nat.zero_le _)
  | item => exact spares_readVarInt.map _ fun _ => (Nat.zero_add _).le
  | tag => exact spares_readIdentifier.map _ fun _ => (Nat.zero_add _).le
  | smithingTrim | withRemainder =>
    refine (h.readArray _).map _ fun children => ?_
    rw [Nat.zero_add, List.flatMap_def]
    exact le_rfl
  | composite =>
    refine h.readPrefixedArray.map _ fun children => ?_
    rw [Nat.zero_add, prefixedBytes, List.flatMap_def]
    change _ ≤ stops (varIntBytes (toInt (children.map enc).length) ++ _)
    rw [List.length_map]
    exact le_rfl

theorem spares_readSlotDisplay (b : InternalByteBuffer) (e : Bool) (n : ℕ) :
    Spares b e 0 (readSlotDisplay n) (SlotDisplay.bytes Slot.noBytes) := by
  induction n with
  | zero => exact fun _ _ _ _ _ h => by cases h
  | succ n ih =>
    refine (enumerates_slotDisplayRegistry.takes_readTyped fun type =>
      type.spares_read ih).map _ ?_
    rintro w ⟨identifier, data⟩ ⟨type, u, v, htext, rfl, hu, hv⟩
    have htype : (SlotDisplay.ofData identifier data).type.toString = utf8 type.name := htext
    rw [SlotDisplay.bytes_eq htype, stops_append, stops_append, stops_varIntBytes, Nat.add_zero]
    exact Nat.add_le_add hu hv

/-! ### Item stacks -/

/-- No node is an item stack. -/
def SlotDisplay.Plain : SlotDisplay → Prop := SlotDisplay.Each fun type _ => type ≠ .itemStack

theorem SlotDisplayType.within_payload {data : SlotDisplayData} {R : SlotDisplay → Prop}
    {enc enc' : SlotDisplay → Bytes}
    (h : ∀ child ∈ type.used data, Within (R child) (enc child) (enc' child)) :
    Within (type ≠ itemStack ∧ ∀ child ∈ type.used data, R child)
      (type.payload Slot.noBytes data ((type.used data).map enc))
      (type.payload Slot.bytes data ((type.used data).map enc')) := by
  cases type with
  | empty | anyFuel | item | tag =>
    exact Within.refl ⟨by decide, fun child hchild => absurd hchild List.not_mem_nil⟩ _
  | itemStack =>
    exact ⟨Nat.zero_le _, fun hle => absurd hle (Nat.not_le.mpr data.itemStack.stops_bytes_pos)⟩
  | smithingTrim | withRemainder =>
    rw [payload, payload, ← List.flatMap_def, ← List.flatMap_def]
    exact (Within.flatMap h).mono fun hall => ⟨by decide, hall⟩
  | composite =>
    rw [payload, payload, List.length_map, List.length_map, ← List.flatMap_def,
      ← List.flatMap_def]
    exact (Within.prefixedBytes h).mono fun hall => ⟨by decide, hall⟩

/-- A tree with an item stack has more stops than what is read of it. -/
theorem SlotDisplay.within_bytes {display : SlotDisplay} (h : display.Valid) :
    Within display.Plain (display.bytes Slot.noBytes) (display.bytes Slot.bytes) := by
  induction h with
  | @node display type htype _ _ ih =>
    rw [SlotDisplay.bytes_eq htype, SlotDisplay.bytes_eq htype]
    exact ((Within.refl trivial _).append (SlotDisplayType.within_payload ih)).mono
      fun hplain => .node htype hplain.2.1 hplain.2.2

theorem SlotDisplay.sound_of_plain {display : SlotDisplay} (h : display.Valid)
    (hplain : display.Plain) (hsized : display.Sized) : display.Sound :=
  (h.and (hplain.and hsized)).imp fun _ _ hP => hP

theorem produces_writeSlotDisplay {display : SlotDisplay} (h : display.Valid) :
    ∃ bound, ∀ n ≥ bound,
      Produces (Stored e) (writeSlotDisplay n display) (display.bytes Slot.bytes) := by
  obtain ⟨bound, hbound⟩ := SlotDisplay.exists_toBytes h
  exact ⟨bound, fun n hn => produces_writeDisplay (writable_stored e) (hbound n hn)⟩

/-- With enough fuel what is written of a tree is read as a tree that agrees with it. -/
def SlotDisplay.ComesBack (e : Bool) (display : SlotDisplay) : Prop := ∃ bound, ∀ n ≥ bound,
  Restores e (writeSlotDisplay n display) readSlotDisplay display.Agrees

/-- A tree of registered types comes back exactly when it is sound. -/
theorem SlotDisplay.comesBack_iff_sound (e : Bool) {display : SlotDisplay} (h : display.Valid) :
    display.ComesBack e ↔ display.Sound := by
  obtain ⟨bound, hwrite⟩ := produces_writeSlotDisplay (e := e) h
  constructor
  · rintro ⟨bound', hbound'⟩
    have hrestores := hbound' (max bound bound') (le_max_right _ _)
    obtain ⟨display', hagrees, hstops⟩ := hrestores.exists_takes
      (hwrite (max bound bound') (le_max_left _ _)) fun b n => spares_readSlotDisplay b e n
    rw [hagrees.bytes_eq h] at hstops
    obtain ⟨display'', hagrees', hsized⟩ := hrestores.exists_yields yields_readSlotDisplay
    exact SlotDisplay.sound_of_plain h ((SlotDisplay.within_bytes h).2 hstops)
      (SlotDisplay.Agrees.sized hsized hagrees')
  · intro hsound
    obtain ⟨display', hagrees, bound', hread⟩ :=
      SlotDisplay.exists_consumes (readable_stored e) hsound
    exact ⟨bound, fun n hn => restores_of_consumes (hwrite n hn) hread hagrees⟩

end

end Zinc.Game
