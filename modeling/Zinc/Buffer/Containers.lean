import Mathlib.Data.List.Forall2
import Mathlib.Data.Option.Basic
import Zinc.Buffer.RoundTrip

/-! Containers of elements: arrays and optional values behind a prefix, an id that stands for a
value when it is 0, and one of two alternatives behind a byte. A codec is lawful on some values
when each of them is written as a word from which the reader takes a value related to it, and the
prefixes lift a lawful codec. Each writer has two overloads: a member of `ByteBuffer` writes an
element, a `std::function` writes a container. That of `writeIDorX` calls its function with one
argument of two, so a nesting has a writer when each id or value stands around an element. -/

namespace Zinc.Buffer

open Throw ByteBuffer

variable {α β : Type} {e : Bool}

/-! ### Ids and values -/

structure IDorX (α : Type) where
  id : BitVec 32
  value : Option α

namespace IDorX

/-- The default constructor. -/
def new : IDorX α := ⟨-1, none⟩

/-- `IDorX(const int&)`. -/
def ofId (id : BitVec 32) : IDorX α := ⟨id, none⟩

/-- `IDorX(const T&)`. -/
def ofValue (value : α) : IDorX α := ⟨0, some value⟩

def setId (id : BitVec 32) (idOrX : IDorX α) : IDorX α :=
  { id, value := if id ≠ 0 then none else idOrX.value }

def setValue (value : α) (_ : IDorX α) : IDorX α := ⟨0, some value⟩

/-- `getValue() const`: a missing value is read as `T{}`. -/
def getValue [Inhabited α] (idOrX : IDorX α) : α := idOrX.value.getD default

/-- `operator==`, over the one of the values. -/
def Equal [Inhabited α] (R : α → α → Prop) (idOrX idOrX' : IDorX α) : Prop :=
  idOrX.id = idOrX'.id ∧ R idOrX.getValue idOrX'.getValue

/-- What the constructors and the setters make. -/
inductive Built : IDorX α → Prop
  | new : Built new
  | ofId (id : BitVec 32) : Built (ofId id)
  | ofValue (value : α) : Built (ofValue value)
  | setId {idOrX : IDorX α} (h : Built idOrX) (id : BitVec 32) : Built (idOrX.setId id)
  | setValue {idOrX : IDorX α} (h : Built idOrX) (value : α) : Built (idOrX.setValue value)

/-- An id other than 0 stands alone. -/
theorem Built.value_eq_none {idOrX : IDorX α} (h : Built idOrX) (hid : idOrX.id ≠ 0) :
    idOrX.value = none := by
  cases h with
  | new | ofId => rfl
  | ofValue | setValue => exact absurd rfl hid
  | setId _ id => exact if_pos hid

end IDorX

namespace ByteBuffer

/-- `writeIDorX` with a member of `ByteBuffer`. -/
def writeIDorX [Inhabited α] (value : IDorX α) (func : α → Action Unit) : Action Unit := do
  writeVarInt value.id
  if value.id = 0 then func value.getValue else pure ()

/-- Both overloads of `readIDorX`. -/
def readIDorX (func : Action α) : Action (IDorX α) := do
  let id ← readVarInt
  let result := IDorX.new.setId id
  if result.id = 0 then do
    let value ← func
    pure (result.setValue value)
  else pure result

end ByteBuffer

/-! ### Lawful codecs -/

/-- What is written of a value is read as a value related to it. -/
def Lawful (e : Bool) (write : α → Action Unit) (read : Action α) (P : α → Prop)
    (R : α → α → Prop) : Prop :=
  ∀ a, P a → ∃ w b, Produces (Stored e) (write a) w ∧ Consumes (Stored e) read w b ∧ R a b

section

variable {write : α → Action Unit} {read : Action α} {P : α → Prop} {R : α → α → Prop}

theorem Lawful.restores (h : Lawful e write read P R) {a : α} (ha : P a) :
    Restores e (write a) (fun _ => read) (R a) := by
  obtain ⟨w, b, hwrite, hread, hR⟩ := h a ha
  exact restores_of_consumes (m := 0) hwrite (fun _ _ => hread) hR

theorem Lawful.prefixedArray (h : Lawful e write read P R) :
    Lawful e (writePrefixedArray · write) (readPrefixedArray read)
      (fun as => as.length < 2 ^ 31 ∧ ∀ a ∈ as, P a) (List.Forall₂ R) := by
  rintro as ⟨hlength, hall⟩
  choose! enc dec hwrite hread hR using h
  refine ⟨prefixedBytes enc as, as.map dec, ?_, ?_, ?_⟩
  · exact (writable_stored e).writePrefixedArray fun a ha => hwrite a (hall a ha)
  · exact (readable_stored e).readPrefixedArray_map (counted_of_lt hlength)
      fun a ha => hread a (hall a ha)
  · exact List.forall₂_map_right_iff.mpr (List.forall₂_same.mpr fun a ha => hR a (hall a ha))

theorem Lawful.prefixedOptional (h : Lawful e write read P R) :
    Lawful e (writePrefixedOptional · write) (readPrefixedOptional read) (fun a => ∀ b ∈ a, P b)
      (Option.Rel R) := by
  rintro (- | a) ha
  · refine ⟨[0], none, ?_, ?_, .none⟩
    · exact ((writable_stored e).writeByte 0).bind Produces.pure
    · exact ((readable_stored e).readByte 0).bind (w := []) (Consumes.pure none)
  · obtain ⟨w, b, hwrite, hread, hR⟩ := h a (ha a rfl)
    refine ⟨1 :: w, some b, ?_, ?_, .some hR⟩
    · exact ((writable_stored e).writeByte 1).bind hwrite
    · exact ((readable_stored e).readByte 1).bind (hread.bind_pure some)

/-- The id 0 without a value is written with the default value. -/
theorem Lawful.idOrX [Inhabited α] (h : Lawful e write read P R) (hdefault : P default)
    (hrefl : R default default) :
    Lawful e (writeIDorX · write) (readIDorX read) (fun x => x.Built ∧ ∀ b ∈ x.value, P b)
      (IDorX.Equal R) := by
  rintro x ⟨hbuilt, hvalue⟩
  have hid := (readable_stored e).readVarInt x.id
  by_cases hzero : x.id = 0
  · have hP : P x.getValue := by
      unfold IDorX.getValue
      cases hx : x.value with
      | none => exact hdefault
      | some a => exact hvalue a hx
    obtain ⟨w, b, hwrite, hread, hR⟩ := h x.getValue hP
    refine ⟨varIntBytes x.id ++ w, .ofValue b, ?_, ?_, hzero, hR⟩
    · apply ((writable_stored e).writeVarInt x.id).bind
      rwa [if_pos hzero]
    · apply hid.bind
      rw [if_pos (show (IDorX.new.setId x.id : IDorX α).id = 0 from hzero)]
      exact hread.bind_pure _
  · refine ⟨varIntBytes x.id ++ [], .ofId x.id, ?_, ?_, rfl, ?_⟩
    · apply ((writable_stored e).writeVarInt x.id).bind
      rw [if_neg hzero]
      exact Produces.pure
    · apply hid.bind
      rw [if_neg (show ¬ (IDorX.new.setId x.id : IDorX α).id = 0 from hzero)]
      have hresult : (IDorX.new.setId x.id : IDorX α) = .ofId x.id := by
        simp [IDorX.setId, IDorX.ofId, IDorX.new]
      rw [hresult]
      exact Consumes.pure _
    · rw [IDorX.getValue, hbuilt.value_eq_none hzero]
      exact hrefl

end

/-! ### Overloads -/

/-- The arguments that the writers pass to a `std::function`. -/
inductive Argument where
  | value
  | buffer
deriving DecidableEq

/-- A call of a `std::function<void(const T&, ByteBuffer&)>`. It compiles with both of its
arguments only. -/
def callFunction (func : α → Action Unit) (arguments : List Argument) :
    Option (α → Action Unit) :=
  if arguments = [.value, .buffer] then some func else none

/-- `writePrefixedArray` with a `std::function`. -/
def writePrefixedArrayFunction (func : α → Action Unit) : Option (List α → Action Unit) :=
  (callFunction func [.value, .buffer]).map fun call values => writePrefixedArray values call

/-- `writePrefixedOptional` with a `std::function`. -/
def writePrefixedOptionalFunction (func : α → Action Unit) : Option (Option α → Action Unit) :=
  (callFunction func [.value, .buffer]).map fun call value => writePrefixedOptional value call

/-- `writeIDorX` with a `std::function`: the call is `func(value.getValue())`. -/
def writeIDorXFunction [Inhabited α] (func : α → Action Unit) : Option (IDorX α → Action Unit) :=
  (callFunction func [.value]).map fun call value => writeIDorX value call

/-- What the writers take. -/
inductive Writer (α : Type) where
  | member (func : α → Action Unit)
  | function (func : α → Action Unit)

namespace Writer

/-- What the writer writes. -/
def run : Writer α → α → Action Unit
  | member func => func
  | function func => func

/-- The overload of `writePrefixedArray` for the writer. -/
def prefixedArray : Writer α → Option (List α → Action Unit)
  | member func => some (writePrefixedArray · func)
  | function func => writePrefixedArrayFunction func

/-- The overload of `writePrefixedOptional` for the writer. -/
def prefixedOptional : Writer α → Option (Option α → Action Unit)
  | member func => some (writePrefixedOptional · func)
  | function func => writePrefixedOptionalFunction func

/-- The overload of `writeIDorX` for the writer. -/
def idOrX [Inhabited α] : Writer α → Option (IDorX α → Action Unit)
  | member func => some (writeIDorX · func)
  | function func => writeIDorXFunction func

theorem prefixedArray_eq (writer : Writer α) :
    writer.prefixedArray = some (writePrefixedArray · writer.run) := by
  cases writer <;> rfl

theorem prefixedOptional_eq (writer : Writer α) :
    writer.prefixedOptional = some (writePrefixedOptional · writer.run) := by
  cases writer <;> rfl

end Writer

/-! ### Nested containers -/

/-- Containers in one another, around an element. -/
inductive Container where
  | element
  | prefixedArray (inner : Container)
  | prefixedOptional (inner : Container)
  | idOrX (inner : Container)

namespace Container

variable {T : Type}

abbrev Carrier (T : Type) : Container → Type
  | element => T
  | prefixedArray inner => List (inner.Carrier T)
  | prefixedOptional inner => Option (inner.Carrier T)
  | idOrX inner => IDorX (inner.Carrier T)

variable [Inhabited T]

/-- `T{}` of a container. -/
instance instInhabitedCarrier : (c : Container) → Inhabited (c.Carrier T)
  | element => inferInstanceAs (Inhabited T)
  | prefixedArray _ => ⟨[]⟩
  | prefixedOptional _ => ⟨none⟩
  | idOrX _ => ⟨.new⟩

/-- The writer of a container, when it compiles: the member of `ByteBuffer` for the element, and for
a container a function that calls the overload for the writer of what is inside. -/
def writer (func : T → Action Unit) : (c : Container) → Option (Writer (c.Carrier T))
  | element => some (.member func)
  | prefixedArray inner => (inner.writer func).bind fun w => w.prefixedArray.map .function
  | prefixedOptional inner => (inner.writer func).bind fun w => w.prefixedOptional.map .function
  | idOrX inner => (inner.writer func).bind fun w => w.idOrX.map .function

/-- Each id or value stands around an element. -/
def Direct : Container → Prop
  | element => True
  | prefixedArray inner => inner.Direct
  | prefixedOptional inner => inner.Direct
  | idOrX inner => inner = element

/-- What a writer of the container writes. -/
def write (func : T → Action Unit) : (c : Container) → c.Carrier T → Action Unit
  | element, a => func a
  | prefixedArray inner, as => writePrefixedArray as (write func inner)
  | prefixedOptional inner, a => writePrefixedOptional a (write func inner)
  | idOrX inner, x => writeIDorX x (write func inner)

def read (func : Action T) : (c : Container) → Action (c.Carrier T)
  | element => func
  | prefixedArray inner => readPrefixedArray (read func inner)
  | prefixedOptional inner => readPrefixedOptional (read func inner)
  | idOrX inner => readIDorX (read func inner)

/-- `operator==` of a container. -/
def Equal : (c : Container) → c.Carrier T → c.Carrier T → Prop
  | element => (· = ·)
  | prefixedArray inner => List.Forall₂ inner.Equal
  | prefixedOptional inner => Option.Rel inner.Equal
  | idOrX inner => IDorX.Equal inner.Equal

/-- The sizes that an `int` can hold, and ids that were built. -/
def Fits : (c : Container) → c.Carrier T → Prop
  | element, _ => True
  | prefixedArray inner, as => as.length < 2 ^ 31 ∧ ∀ a ∈ as, inner.Fits a
  | prefixedOptional inner, a => ∀ b ∈ a, inner.Fits b
  | idOrX inner, x => x.Built ∧ ∀ b ∈ x.value, inner.Fits b

theorem equal_default : (c : Container) → c.Equal (default : c.Carrier T) default
  | element => rfl
  | prefixedArray _ => .nil
  | prefixedOptional _ => .none
  | idOrX inner => ⟨rfl, equal_default inner⟩

theorem fits_default : (c : Container) → c.Fits (default : c.Carrier T)
  | element => trivial
  | prefixedArray _ => ⟨Nat.two_pow_pos 31, fun _ ha => absurd ha List.not_mem_nil⟩
  | prefixedOptional _ => fun b hb => absurd hb (Option.not_mem_none b)
  | idOrX _ => ⟨.new, fun b hb => absurd hb (Option.not_mem_none b)⟩

theorem lawful {func : T → Action Unit} {func' : Action T}
    (h : Lawful e func func' (fun _ => True) (· = ·)) :
    (c : Container) → Lawful e (c.write func) (c.read func') c.Fits c.Equal
  | element => h
  | prefixedArray inner => (lawful h inner).prefixedArray
  | prefixedOptional inner => (lawful h inner).prefixedOptional
  | idOrX inner => (lawful h inner).idOrX (fits_default inner) (equal_default inner)

end Container

/-- A codec of the elements is lifted to containers of them. -/
theorem restores_container {T : Type} [Inhabited T] (e : Bool) {func : T → Action Unit}
    {func' : Action T}
    (h : ∀ a, ∃ w, Produces (Stored e) (func a) w ∧ Consumes (Stored e) func' w a)
    (c : Container) (value : c.Carrier T) (hvalue : c.Fits value) :
    Restores e (c.write func value) (fun _ => c.read func') (c.Equal value) := by
  have hlawful : Lawful e func func' (fun _ => True) (· = ·) := fun a _ => by
    obtain ⟨w, hwrite, hread⟩ := h a
    exact ⟨w, a, hwrite, hread, rfl⟩
  exact (Container.lawful hlawful c).restores hvalue

namespace Container

variable {T : Type} [Inhabited T] {func : T → Action Unit}

/-- A writer that compiles writes what `write` says. -/
theorem run_of_writer : {c : Container} → {w : Writer (c.Carrier T)} → c.writer func = some w →
    w.run = c.write func
  | element, _, h => by
    cases h
    rfl
  | prefixedArray inner, _, h => by
    obtain ⟨w, hinner, hw⟩ := Option.bind_eq_some_iff.mp h
    rw [w.prefixedArray_eq, run_of_writer hinner] at hw
    cases hw
    rfl
  | prefixedOptional inner, _, h => by
    obtain ⟨w, hinner, hw⟩ := Option.bind_eq_some_iff.mp h
    rw [w.prefixedOptional_eq, run_of_writer hinner] at hw
    cases hw
    rfl
  | idOrX inner, _, h => by
    obtain ⟨w, hinner, hw⟩ := Option.bind_eq_some_iff.mp h
    cases w with
    | function => cases hw
    | member =>
      cases hw
      exact congrArg (fun func x => writeIDorX x func) (run_of_writer hinner)

/-- Around the element alone the writer is a member. -/
theorem eq_element_of_member : {c : Container} → {member : c.Carrier T → Action Unit} →
    c.writer func = some (.member member) → c = element
  | element, _, _ => rfl
  | prefixedArray _, _, h | prefixedOptional _, _, h | idOrX _, _, h => by
    obtain ⟨_, -, hw⟩ := Option.bind_eq_some_iff.mp h
    obtain ⟨_, -, hfunction⟩ := Option.map_eq_some_iff.mp hw
    cases hfunction

theorem writer_isSome_iff (func : T → Action Unit) : (c : Container) → (c.writer func).isSome ↔ c.Direct
  | element => by simp [writer, Direct]
  | prefixedArray inner => by
    rw [Direct, ← writer_isSome_iff func inner, writer]
    cases inner.writer func with
    | none => rfl
    | some w => simp [w.prefixedArray_eq]
  | prefixedOptional inner => by
    rw [Direct, ← writer_isSome_iff func inner, writer]
    cases inner.writer func with
    | none => rfl
    | some w => simp [w.prefixedOptional_eq]
  | idOrX inner => by
    constructor
    · intro h
      obtain ⟨w, hw⟩ := Option.isSome_iff_exists.mp h
      obtain ⟨w', hinner, hidOrX⟩ := Option.bind_eq_some_iff.mp hw
      cases w' with
      | function => cases hidOrX
      | member => exact eq_element_of_member hinner
    · rintro rfl
      rfl

end Container

/-- The container has a writer, and what this writes is read as an equal value. -/
def Lifts {T : Type} [Inhabited T] (e : Bool) (func : T → Action Unit) (func' : Action T)
    (c : Container) (value : c.Carrier T) : Prop :=
  ∃ writer, c.writer func = some writer ∧
    Restores e (writer.run value) (fun _ => c.read func') (c.Equal value)

/-- A codec of the elements is lifted to the containers that have a writer. -/
theorem lifts_iff {T : Type} [Inhabited T] (e : Bool) {func : T → Action Unit} {func' : Action T}
    (h : ∀ a, ∃ w, Produces (Stored e) (func a) w ∧ Consumes (Stored e) func' w a)
    (c : Container) (value : c.Carrier T) (hvalue : c.Fits value) :
    Lifts e func func' c value ↔ c.Direct := by
  constructor
  · rintro ⟨writer, hwriter, -⟩
    exact (Container.writer_isSome_iff func c).mp (by rw [hwriter]; rfl)
  · intro hdirect
    obtain ⟨writer, hwriter⟩ :=
      Option.isSome_iff_exists.mp ((Container.writer_isSome_iff func c).mpr hdirect)
    refine ⟨writer, hwriter, ?_⟩
    rw [Container.run_of_writer hwriter]
    exact restores_container e h c value hvalue

/-- An array of optional ids or values. -/
theorem lifts_bytes :
    Lifts true writeByte readByte (.prefixedArray (.prefixedOptional (.idOrX .element)))
      [some (.ofValue 7), none, some (.ofId 5)] :=
  (lifts_iff (T := UInt8) true
    (fun a => ⟨[a], (writable_stored true).writeByte a, (readable_stored true).readByte a⟩)
    (.prefixedArray (.prefixedOptional (.idOrX .element)))
    [some (.ofValue 7), none, some (.ofId 5)]
    ⟨by decide, by
      intro a ha b hb
      simp only [List.mem_cons, List.not_mem_nil, or_false] at ha
      rcases ha with rfl | rfl | rfl <;> cases hb
      · exact ⟨.ofValue 7, fun _ _ => trivial⟩
      · exact ⟨.ofId 5, fun _ _ => trivial⟩⟩).mpr rfl

/-- An array behind the id 0. -/
theorem not_forall_lifts :
    (∀ a : BitVec 32, ∃ w, Produces (Stored true) (writeVarInt a) w ∧
      Consumes (Stored true) readVarInt w a) ∧
    Container.Fits (T := BitVec 32) (.idOrX (.prefixedArray .element)) (.ofValue [7]) ∧
    ¬ Lifts (T := BitVec 32) true writeVarInt readVarInt (.idOrX (.prefixedArray .element))
      (.ofValue [7]) := by
  refine ⟨fun a => ⟨varIntBytes a, (writable_stored true).writeVarInt a,
    (readable_stored true).readVarInt a⟩, ⟨.ofValue _, fun _ hb => ?_⟩, ?_⟩
  · cases hb
    exact ⟨by decide, fun _ _ => trivial⟩
  · rintro ⟨_, hwriter, -⟩
    cases hwriter

/-! ### Alternatives -/

structure XorY (α β : Type) where
  x : Option α
  y : Option β

namespace XorY

/-- `XorY(const TX&)`. -/
def ofX (x : α) : XorY α β := ⟨some x, none⟩

/-- `XorY(const TY&)`. -/
def ofY (y : β) : XorY α β := ⟨none, some y⟩

/-- Exactly one alternative is there. -/
def Single (xOrY : XorY α β) : Prop := xOrY.x.isSome ≠ xOrY.y.isSome

instance (xOrY : XorY α β) : Decidable xOrY.Single := inferInstanceAs (Decidable (_ ≠ _))

end XorY

namespace ByteBuffer

/-- The alternative that is there. -/
def writeAlternative (xOrY : XorY α β) (funcX : α → Action Unit) (funcY : β → Action Unit) :
    Action Unit :=
  match xOrY.x with
  | some x => funcX x
  | none =>
    match xOrY.y with
    | some y => funcY y
    | none => fail .undefined

/-- `writeXorY` with a `std::function` for each alternative. -/
def writeXorY (xOrY : XorY α β) (funcX : α → Action Unit) (funcY : β → Action Unit) :
    Action Unit :=
  if xOrY.x.isSome = xOrY.y.isSome then pure () else do
    writeByte (if xOrY.x.isSome then 1 else 0)
    writeAlternative xOrY funcX funcY

/-- `writeXorY` with a member of `ByteBuffer` for each alternative: no byte says which one. -/
def writeXorYMember (xOrY : XorY α β) (funcX : α → Action Unit) (funcY : β → Action Unit) :
    Action Unit :=
  if xOrY.x.isSome = xOrY.y.isSome then pure () else writeAlternative xOrY funcX funcY

/-- Both overloads of `readXorY`. -/
def readXorY (funcX : Action α) (funcY : Action β) : Action (XorY α β) := do
  let hasX ← readByte
  if hasX ≠ 0 then do
    let x ← funcX
    pure (.ofX x)
  else do
    let y ← funcY
    pure (.ofY y)

end ByteBuffer

/-- Both overloads write the same bytes, and each reader takes them for the value. -/
def XorYAgrees (e : Bool) (funcX : α → Action Unit) (funcY : β → Action Unit) (funcX' : Action α)
    (funcY' : Action β) (xOrY : XorY α β) : Prop :=
  (∃ w, Produces (Stored e) (writeXorYMember xOrY funcX funcY) w ∧
    Produces (Stored e) (writeXorY xOrY funcX funcY) w) ∧
  Restores e (writeXorYMember xOrY funcX funcY) (fun _ => readXorY funcX' funcY') (· = xOrY) ∧
  Restores e (writeXorY xOrY funcX funcY) (fun _ => readXorY funcX' funcY') (· = xOrY)

section

variable {funcX : α → Action Unit} {funcY : β → Action Unit} {xOrY : XorY α β}

/-- The two overloads differ by the byte in front. -/
theorem writeXorY_produces (h : xOrY.Single) {w : Bytes}
    (hw : Produces (Stored e) (writeAlternative xOrY funcX funcY) w) :
    Produces (Stored e) (writeXorYMember xOrY funcX funcY) w ∧
      Produces (Stored e) (writeXorY xOrY funcX funcY) ((if xOrY.x.isSome then 1 else 0) :: w) := by
  unfold writeXorYMember writeXorY
  rw [if_neg h, if_neg h]
  exact ⟨hw, ((writable_stored e).writeByte _).bind hw⟩

theorem not_agrees_of_produces (h : xOrY.Single) {w : Bytes}
    (hw : Produces (Stored e) (writeAlternative xOrY funcX funcY) w) {funcX' : Action α}
    {funcY' : Action β} : ¬ XorYAgrees e funcX funcY funcX' funcY' xOrY := by
  rintro ⟨⟨w', hmember, hfunction⟩, -, -⟩
  obtain ⟨hmember', hfunction'⟩ := writeXorY_produces h hw
  have hlength := congrArg List.length (unique_of_produces hfunction hfunction')
  rw [unique_of_produces hmember hmember', List.length_cons] at hlength
  omega

/-- What the overload with the byte writes is read back. -/
theorem restores_writeXorY (h : xOrY.Single) {funcX' : Action α} {funcY' : Action β}
    (hX : Lawful e funcX funcX' (fun _ => True) (· = ·))
    (hY : Lawful e funcY funcY' (fun _ => True) (· = ·)) :
    Restores e (writeXorY xOrY funcX funcY) (fun _ => readXorY funcX' funcY') (· = xOrY) := by
  rcases xOrY with ⟨- | x, - | y⟩
  · exact absurd rfl h
  · obtain ⟨w, _, hwrite, hread, rfl⟩ := hY y trivial
    refine restores_of_consumes (m := 0) (writeXorY_produces h hwrite).2 (fun _ _ => ?_) rfl
    exact ((readable_stored e).readByte 0).bind (hread.bind_pure XorY.ofY)
  · obtain ⟨w, _, hwrite, hread, rfl⟩ := hX x trivial
    refine restores_of_consumes (m := 0) (writeXorY_produces h hwrite).2 (fun _ _ => ?_) rfl
    exact ((readable_stored e).readByte 1).bind (hread.bind_pure XorY.ofX)
  · exact absurd rfl h

end

/-- The overloads never agree. -/
theorem not_xorYAgrees (e : Bool) {funcX : α → Action Unit} {funcY : β → Action Unit}
    {funcX' : Action α} {funcY' : Action β}
    (hX : ∀ x, ∃ w, Produces (Stored e) (funcX x) w ∧ Consumes (Stored e) funcX' w x)
    (hY : ∀ y, ∃ w, Produces (Stored e) (funcY y) w ∧ Consumes (Stored e) funcY' w y)
    (xOrY : XorY α β) (h : xOrY.Single) : ¬ XorYAgrees e funcX funcY funcX' funcY' xOrY := by
  rcases xOrY with ⟨- | x, - | y⟩
  · exact absurd rfl h
  · obtain ⟨w, hwrite, -⟩ := hY y
    exact not_agrees_of_produces h hwrite
  · obtain ⟨w, hwrite, -⟩ := hX x
    exact not_agrees_of_produces h hwrite
  · exact absurd rfl h

theorem not_xorYAgrees_seven :
    ¬ XorYAgrees true writeByte writeVarInt readByte readVarInt (.ofX 7) :=
  not_xorYAgrees true
    (fun x => ⟨[x], (writable_stored true).writeByte x, (readable_stored true).readByte x⟩)
    (fun y => ⟨varIntBytes y, (writable_stored true).writeVarInt y,
      (readable_stored true).readVarInt y⟩) (.ofX 7) (by decide)

/-- A `char` in place of an `int`. -/
theorem not_forall_xorYAgrees :
    (∀ x : UInt8, ∃ w, Produces (Stored true) (writeByte x) w ∧
      Consumes (Stored true) readByte w x) ∧
    (∀ y : BitVec 32, ∃ w, Produces (Stored true) (writeVarInt y) w ∧
      Consumes (Stored true) readVarInt w y) ∧
    (XorY.ofX 7 : XorY UInt8 (BitVec 32)).Single ∧
    ¬ XorYAgrees true writeByte writeVarInt readByte readVarInt (.ofX 7) :=
  ⟨fun x => ⟨[x], (writable_stored true).writeByte x, (readable_stored true).readByte x⟩,
    fun y => ⟨varIntBytes y, (writable_stored true).writeVarInt y,
      (readable_stored true).readVarInt y⟩, by decide,
    not_agrees_of_produces (w := [7]) (by decide) ((writable_stored true).writeByte 7)⟩

end Zinc.Buffer
