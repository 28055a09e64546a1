import Zinc.Buffer.Sparing

/-! Registries. A registry numbers the types of a kind of value, and has a writer and a reader
for the data of each type, in tables by the text of the type. A value is written as the number
of its type and what the writer makes of its data; the reader finds the type by the number and
the reader of the data by the type. What a type is registered with in all tables decides how
its values are written and read. -/

namespace Zinc.Game

open Throw Buffer Buffer.ByteBuffer

/-- `Registry<T>`, without the writers to NBT, which no registry here has. The maps have
distinct keys, and no two types of a registry have one number, so their order has no effect. -/
structure Registry (T : Type) where
  registryData : List (String × BitVec 32)
  writers : List (String × (T → Except Fault Bytes))
  readers : List (String × Action T)
  defaultIdentifier : Identifier

namespace Registry

variable {T α : Type}

/-- The entry of a map by its key. -/
def find (table : List (String × α)) (key : Bytes) : Option α :=
  (table.find? fun entry => utf8 entry.1 = key).map Prod.snd

/-- `m_registryData[type]`: 0 for a type that is not there. -/
def value (registry : Registry T) (type : Identifier) : BitVec 32 :=
  (find registry.registryData type.toString).getD 0

/-- `m_writers[type](data)`: a type that is not there has an empty function, which throws. -/
def write (registry : Registry T) (type : Identifier) (data : T) : Except Fault Bytes :=
  match find registry.writers type.toString with
  | some writer => writer data
  | none => .error .badFunctionCall

/-- `m_readers[type](buffer)`. -/
def read (registry : Registry T) (type : Identifier) : Action T :=
  match find registry.readers type.toString with
  | some reader => reader
  | none => fail .badFunctionCall

def getIdentifierFromValue (registry : Registry T) (value : BitVec 32) :
    Except Fault Identifier :=
  match registry.registryData.find? fun entry => entry.2 = value with
  | some entry => Identifier.ofString (utf8 entry.1)
  | none => .ok registry.defaultIdentifier

/-- The methods `toBytes` of values with a registered type. -/
def toBytes (registry : Registry T) (type : Identifier) (data : T) : Except Fault Bytes :=
  bytesOf do
    writeVarInt (registry.value type)
    fun buffer => do
      let bytes ← registry.write type data
      writeByteArray bytes buffer

/-- The type and the data of a value, as the readers of `ByteBuffer` read them. -/
def readTyped (registry : Registry T) : Action (Identifier × T) := do
  let value ← readVarInt
  let type ← fun buffer => do
    let type ← registry.getIdentifierFromValue value
    return (type, buffer)
  let data ← registry.read type
  pure (type, data)

/-! ### Registered types -/

variable {registry : Registry T} {name : String} {number : BitVec 32}
  {writer : T → Except Fault Bytes} {reader : Action T}

/-- What a type is registered with. -/
structure Entry (registry : Registry T) (name : String) (number : BitVec 32)
    (writer : T → Except Fault Bytes) (reader : Action T) : Prop where
  number_eq : find registry.registryData (utf8 name) = some number
  writer_eq : find registry.writers (utf8 name) = some writer
  reader_eq : find registry.readers (utf8 name) = some reader
  name_eq : registry.registryData.find? (fun entry => entry.2 = number) = some (name, number)
  colon : 58 ∈ utf8 name

/-- The bytes of a value: its number, and what the writer makes. -/
theorem Entry.toBytes_eq (h : Entry registry name number writer reader) {type : Identifier}
    (htype : type.toString = utf8 name) {data : T} {w : Bytes} (hw : writer data = .ok w) :
    registry.toBytes type data = .ok (varIntBytes number ++ w) := by
  have hnumber : registry.value type = number := by
    rw [value, htype, h.number_eq]
    rfl
  have hwrite : registry.write type data = .ok w := by
    rw [Registry.write, htype, h.writer_eq]
    exact hw
  rw [toBytes, hnumber, hwrite]
  exact bytesOf_eq (((writable_fresh true).writeVarInt _).bind ((writable_fresh true).writeBytes w))

variable {e : Bool} {view : ByteBuffer → Bytes → Prop}

/-- A number leads to the reader of its type. -/
theorem Entry.consumes_of_parsed (h : Entry registry name number writer reader)
    (hv : Readable e view) {type : Identifier}
    (hparsed : Identifier.ofString (utf8 name) = .ok type) (htype : type.toString = utf8 name)
    {w : Bytes} {data : T}
    (hread : Consumes view reader w data) :
    Consumes view registry.readTyped (varIntBytes number ++ w) (type, data) := by
  refine (hv.readVarInt number).bind (w := [] ++ w) ?_
  have htyped : Consumes view
      (fun buffer => registry.getIdentifierFromValue number >>= fun type =>
        return (type, buffer)) [] type := by
    have hname : registry.getIdentifierFromValue number = .ok type := by
      rw [getIdentifierFromValue, h.name_eq]
      exact hparsed
    rw [hname]
    exact Consumes.pure type
  apply htyped.bind
  rw [Registry.read, htype, h.reader_eq]
  exact hread.bind_pure _

theorem Entry.consumes (h : Entry registry name number writer reader) (hv : Readable e view)
    {w : Bytes} {data : T} (hread : Consumes view reader w data) :
    ∃ type, type.toString = utf8 name ∧
      Consumes view registry.readTyped (varIntBytes number ++ w) (type, data) := by
  obtain ⟨type, hparsed, htype⟩ := Identifier.toString_ofString h.colon
  exact ⟨type, htype, h.consumes_of_parsed hv hparsed htype hread⟩

/-- What was found is in the map. -/
theorem exists_of_find {table : List (String × α)} {key : Bytes} {a : α}
    (h : find table key = some a) : ∃ name, (name, a) ∈ table ∧ utf8 name = key := by
  obtain ⟨entry, hfound, rfl⟩ := Option.map_eq_some_iff.mp h
  have hname := List.find?_some hfound
  exact ⟨entry.1, List.mem_of_find?_eq_some hfound, of_decide_eq_true hname⟩

/-! ### Enumerations of types -/

section

variable {K : Type} {name : K → String} {reader : K → Action T}

/-- A text names one type. -/
theorem unique_of_name (hname : Function.Injective name) {text : Bytes} {type type' : K}
    (h : text = utf8 (name type)) (h' : text = utf8 (name type')) : type = type' :=
  hname (utf8_inj.mp (h.symm.trans h'))

/-- The readers are those of the types of an enumeration. -/
def Enumerates (registry : Registry T) (name : K → String) (reader : K → Action T) : Prop :=
  ∀ entry ∈ registry.readers, ∃ type, (name type, reader type) = entry

theorem Enumerates.of_map (types : List K)
    (h : registry.readers = types.map fun type => (name type, reader type)) :
    registry.Enumerates name reader := by
  intro entry hentry
  rw [h] at hentry
  obtain ⟨type, -, htype⟩ := List.mem_map.mp hentry
  exact ⟨type, htype⟩

/-- A type is read by its own reader, or has none. -/
theorem Enumerates.read_eq (h : registry.Enumerates name reader) (type : Identifier) :
    registry.read type = fail .badFunctionCall ∨
      ∃ kind, type.toString = utf8 (name kind) ∧ registry.read type = reader kind := by
  unfold Registry.read
  cases hreader : find registry.readers type.toString with
  | none => exact .inl rfl
  | some reader =>
    obtain ⟨text, hentry, htext⟩ := exists_of_find hreader
    obtain ⟨kind, hkind⟩ := h (text, reader) hentry
    obtain ⟨rfl, rfl⟩ := Prod.mk.inj hkind
    exact .inr ⟨kind, htext.symm, rfl⟩

/-- A value that was read has a registered type, and what all results of its reader have. -/
theorem Enumerates.yields_readTyped (h : registry.Enumerates name reader) {P : K → T → Prop}
    (hread : ∀ type, Yields (P type) (reader type)) :
    Yields (fun p => ∃ type, p.1.toString = utf8 (name type) ∧ P type p.2)
      registry.readTyped := by
  refine Yields.of_bind fun number => Yields.of_bind fun type => ?_
  rcases h.read_eq type with hnone | ⟨kind, hkind, hreader⟩
  · rw [hnone]
    exact fun _ _ hrun => by cases hrun
  · rw [hreader]
    exact (hread kind).map _ fun data hdata => ⟨kind, hkind, hdata⟩

/-- What the reader of a value has taken: a number, with one stop at most, and its data. -/
theorem Enumerates.takes_readTyped (h : registry.Enumerates name reader) {b : InternalByteBuffer}
    {Q : K → Bytes → T → Prop} (hread : ∀ type, Takes (Passed b e) (reader type) (Q type)) :
    Takes (Passed b e) registry.readTyped fun w p => ∃ type u v,
      p.1.toString = utf8 (name type) ∧ w = u ++ v ∧ Base128.stops u ≤ 1 ∧ Q type v p.2 := by
  let R : Bytes → Identifier × T → Prop := fun v p =>
    ∃ type, p.1.toString = utf8 (name type) ∧ Q type v p.2
  have htype : ∀ number, Takes (Passed b e)
      (fun buffer => registry.getIdentifierFromValue number >>= fun type =>
        return (type, buffer)) fun v _ => v = [] := by
    intro number buffer w type buffer' hpassed hrun
    obtain ⟨type', -, hrun⟩ := bind_eq_ok.mp hrun
    obtain ⟨-, rfl⟩ := Prod.mk.inj (Except.ok.inj hrun)
    exact ⟨[], w, rfl, hpassed, fun _ => rfl⟩
  have hdata : ∀ type, Takes (Passed b e)
      (registry.read type >>= fun data => pure (type, data)) R := by
    intro type
    rcases h.read_eq type with hnone | ⟨kind, hkind, hreader⟩
    · rw [hnone]
      exact fun _ _ _ _ _ hrun => by cases hrun
    · rw [hreader]
      exact (hread kind).map _ fun v data hQ => ⟨kind, hkind, hQ⟩
  refine takes_readVarInt.bind (R := fun _ => R) (fun number => ?_) fun u number v p hu hv => ?_
  · refine (htype number).bind hdata fun u type v p hu hv => ?_
    rwa [hu, List.nil_append]
  · obtain ⟨type, hkind, hQ⟩ := hv
    exact ⟨type, u, v, hkind, rfl, hu, hQ⟩

end

end Registry

end Zinc.Game
