import Zinc.Game.LiveRegistry

/-! What lookups leave in the registries. The types that are registered stay so, and no other type
gets a writer or a number other than 0. So the results of `toBytes` never change, and they are
those of the encoding without state; so are the types that the numbers stand for, except the
type of number 0. -/

namespace Zinc.Game

open Throw Buffer Buffer.ByteBuffer Indexed

variable (order : Order Bytes)

/-! ### Registries that were looked up in -/

namespace Tables

variable {K : Type}

/-- The tables after the lookups of a type. -/
def touch (text : Bytes) (tables : Tables K) : Tables K :=
  { tables with
    registryData := (order.index 0 text tables.registryData).2
    writers := (order.index none text tables.writers).2 }

theorem touch_eq_self_iff {order : Order Bytes} {tables : Tables K} {text : Bytes} :
    tables.touch order text = tables ↔ text ∈ tables.registryData ∧ text ∈ tables.writers := by
  rw [← index_snd_eq_iff order 0, ← index_snd_eq_iff order none]
  constructor
  · intro h
    exact ⟨congrArg Tables.registryData h, congrArg Tables.writers h⟩
  · rintro ⟨hnumber, hwriter⟩
    rw [touch, hnumber, hwriter]

/-- A new type is the first with number 0 where the newest entry comes first. -/
theorem getIdentifierFromValue_touch_newest {tables : Tables K} {text : Bytes}
    (h : text ∉ tables.registryData) :
    (tables.touch .newest text).getIdentifierFromValue 0 = Identifier.ofString text := by
  have hentries : (tables.touch .newest text).registryData.entries =
      ⟨text, 0⟩ :: tables.registryData.entries := by
    rw [touch, index_of_notMem _ h]
    exact AList.entries_insert_of_notMem h
  rw [getIdentifierFromValue, hentries]
  rfl

variable [Kinds K]

/-- What the entries of the registered types are, and what all other entries stand for. -/
structure Standing (tables : Tables K) : Prop where
  number_eq (text : Bytes) : value 0 tables.registryData text =
    ((Kinds.ofText (K := K) text).map Kinds.number).getD 0
  writer_eq (text : Bytes) : value none tables.writers text = Kinds.ofText text
  mem_registryData (kind : K) : Kinds.text kind ∈ tables.registryData
  mem_writers (kind : K) : Kinds.text kind ∈ tables.writers

variable {order} {tables : Tables K}

theorem Standing.touch (h : tables.Standing) (text : Bytes) :
    (tables.touch order text).Standing where
  number_eq text' := (value_index order text').trans (h.number_eq text')
  writer_eq text' := (value_index order text').trans (h.writer_eq text')
  mem_registryData kind := (mem_index order).mpr (.inr (h.mem_registryData kind))
  mem_writers kind := (mem_index order).mpr (.inr (h.mem_writers kind))

/-- The lookups of a registered type change nothing. -/
theorem Standing.touch_eq_self (h : tables.Standing) {text : Bytes} {kind : K}
    (hkind : Kinds.ofText text = some kind) : tables.touch order text = tables := by
  rw [← Kinds.ofText_eq_some.mp hkind]
  exact touch_eq_self_iff.mpr ⟨h.mem_registryData kind, h.mem_writers kind⟩

/-- The number of a registered type stands for it, unless it is 0. -/
theorem Standing.getIdentifierFromValue_eq (h : tables.Standing) (kind : K)
    (hkind : Kinds.number kind ≠ 0) :
    tables.getIdentifierFromValue (Kinds.number kind) = Identifier.ofString (Kinds.text kind) := by
  have hlookup : tables.registryData.lookup (Kinds.text kind) = some (Kinds.number kind) := by
    have hvalue := lookup_eq_some_value 0 (h.mem_registryData kind)
    rwa [h.number_eq, Kinds.ofText_eq_some.mpr rfl] at hvalue
  have hunique : ∀ text, tables.registryData.lookup text = some (Kinds.number kind) →
      text = Kinds.text kind := by
    intro text hnumber
    have hvalue := h.number_eq text
    rw [value, hnumber, Option.getD_some] at hvalue
    cases hkind' : Kinds.ofText (K := K) text with
    | none =>
      rw [hkind'] at hvalue
      exact absurd hvalue hkind
    | some kind' =>
      rw [hkind'] at hvalue
      have hsame : kind = kind' := Kinds.number_injective hvalue
      rw [hsame, Kinds.ofText_eq_some.mp hkind']
  rw [getIdentifierFromValue, find?_of_unique hlookup hunique]

end Tables

/-- What the map of the types of a registry has for a text. -/
theorem lookup_table {K V : Type} [Kinds K] (f : K → V) (text : Bytes) :
    (Kinds.table f).lookup text = (Kinds.ofText text).map f := by
  rw [Kinds.table, AList.lookup_to_alist, Kinds.ofText]
  induction (Kinds.all : List K) with
  | nil => rfl
  | cons kind kinds ih =>
    rw [List.map_cons, List.find?_cons]
    by_cases htext : Kinds.text kind = text
    · have hfound : decide (utf8 (Kinds.name kind) = text) = true := decide_eq_true htext
      rw [hfound, ← htext, List.dlookup_cons_eq]
      rfl
    · have hfound : decide (utf8 (Kinds.name kind) = text) = false := decide_eq_false htext
      rw [hfound, List.dlookup_cons_ne _ _ (Ne.symm htext)]
      exact ih

/-- The functions that are registered at first. -/
theorem value_table_some {K : Type} [Kinds K] (text : Bytes) :
    value none (order.arrange (Kinds.table some)) text = Kinds.ofText (K := K) text := by
  rw [value, order.lookup_arrange, lookup_table]
  cases Kinds.ofText (K := K) text <;> rfl

namespace Registries

/-- What was looked up before has changed nothing that a lookup finds. -/
def Standing (registries : Registries) : Prop := ∀ registry, (registries registry).Standing

theorem standing_initial : (initial order).Standing := by
  intro registry
  have hlookup : ∀ {V : Type} (f : registry.Kind → V) (text : Bytes),
      (order.arrange (Kinds.table f)).lookup text = (Kinds.ofText text).map f :=
    fun f text => (order.lookup_arrange text).trans (lookup_table f text)
  have hmem : ∀ {V : Type} (f : registry.Kind → V) (kind : registry.Kind),
      Kinds.text kind ∈ order.arrange (Kinds.table f) := by
    intro V f kind
    rw [← AList.lookup_isSome, hlookup, Kinds.ofText_eq_some.mpr rfl]
    rfl
  constructor
  · intro text
    exact congrArg (Option.getD · 0) (hlookup Kinds.number text)
  · exact value_table_some order
  · exact hmem Kinds.number
  · exact hmem some

theorem standing_update {registries : Registries} (h : registries.Standing)
    {registry : RegistryName} {tables : Tables registry.Kind} (htables : tables.Standing) :
    Standing (Function.update registries registry tables) := by
  intro registry'
  by_cases heq : registry' = registry
  · subst heq
    rwa [Function.update_self]
  · rw [Function.update_of_ne heq]
    exact h registry'

end Registries

/-! ### Lookups -/

/-- The text of a type that is looked up in a registry. -/
structure Key where
  registry : RegistryName
  text : Bytes

namespace Key

/-- The type is not registered. -/
def absent (key : Key) : Bool := (Kinds.ofText (K := key.registry.Kind) key.text).isNone

/-- There are entries for the type, whether it is registered or not. -/
def Entered (registries : Registries) (key : Key) : Prop :=
  key.text ∈ (registries key.registry).registryData ∧ key.text ∈ (registries key.registry).writers

end Key

namespace Registries

/-- The registries after the lookups of a type. -/
def touch (key : Key) (registries : Registries) : Registries :=
  Function.update registries key.registry ((registries key.registry).touch order key.text)

variable {order} {registries : Registries} {registry : RegistryName} {key : Key}

theorem touch_eq_self_iff : registries.touch order key = registries ↔ key.Entered registries := by
  rw [touch, Function.update_eq_self_iff]
  exact Tables.touch_eq_self_iff

theorem entered_touch : key.Entered (registries.touch order key) := by
  rw [Key.Entered, touch, Function.update_self]
  exact ⟨(mem_index order).mpr (.inl rfl), (mem_index order).mpr (.inl rfl)⟩

theorem Standing.touch (h : registries.Standing) (key : Key) :
    (registries.touch order key).Standing :=
  standing_update h ((h key.registry).touch key.text)

theorem Standing.touch_eq_self (h : registries.Standing) (hkey : ¬ key.absent) :
    registries.touch order key = registries := by
  obtain ⟨kind, hkind⟩ := Option.ne_none_iff_exists'.mp fun hnone =>
    hkey (Option.isNone_iff_eq_none.mpr hnone)
  rw [Registries.touch, (h key.registry).touch_eq_self hkind, Function.update_eq_self]

/-- An encoding looks its type up, and goes on with the writer if it is registered. -/
theorem Standing.toBytes_apply (h : registries.Standing) (type : Identifier)
    (write : registry.Kind → Live Bytes) : Live.toBytes order registry type write registries =
      match Kinds.ofText type.toString with
      | none => (.error .badFunctionCall, registries.touch order ⟨registry, type.toString⟩)
      | some kind => (write kind >>= fun bytes => Process.lift (bytesOf do
          writeVarInt (Kinds.number kind)
          writeByteArray bytes)) (registries.touch order ⟨registry, type.toString⟩) := by
  have hnumber := (h registry).number_eq type.toString
  have hwriter := (h registry).writer_eq type.toString
  rw [Live.toBytes, Process.bind_apply]
  simp only [Live.registryData, index_fst]
  rw [Process.bind_apply]
  simp only [Live.writers, index_fst, Function.update_self, Function.update_idem]
  rw [hwriter, hnumber]
  cases Kinds.ofText (K := registry.Kind) type.toString <;> rfl

end Registries

/-! ### Answers -/

/-- The bytes of a value whose type has the text, with those of its data. -/
def Kinds.toBytes {K : Type} [Kinds K] (text : Bytes) (write : K → Except Fault Bytes) :
    Except Fault Bytes :=
  match Kinds.ofText text with
  | none => .error .badFunctionCall
  | some kind => do
    let bytes ← write kind
    bytesOf do
      writeVarInt (Kinds.number kind)
      writeByteArray bytes

/-- A computation that is run on the way. -/
theorem bytesOf_bind {α : Type} {front write : Action Unit} {w : Bytes}
    (hfront : Produces (Fresh true) front w) {x : Except Fault α} {rest : α → Action Unit}
    (hwrite : ∀ buffer v, Fresh true buffer v → write buffer = x >>= fun a => rest a buffer) :
    bytesOf (front >>= fun _ => write) = x >>= fun a => bytesOf (front >>= fun _ => rest a) := by
  obtain ⟨buffer, hrun, hfresh⟩ := hfront .new [] fresh_new
  simp only [bytesOf, bind_of_eq_ok hrun, hwrite buffer _ hfresh]
  cases x <;> rfl

/-- The methods `toBytes` of a registry, by the types that it has. -/
theorem Registry.toBytes_eq_of_kinds {K T : Type} [Kinds K] (registry : Registry T)
    (writer : K → T → Except Fault Bytes)
    (hnumbers : registry.registryData = Kinds.all.map fun kind : K =>
      (Kinds.name kind, Kinds.number kind))
    (hwriters : registry.writers = Kinds.all.map fun kind : K => (Kinds.name kind, writer kind))
    (type : Identifier) (data : T) :
    registry.toBytes type data = Kinds.toBytes type.toString fun kind => writer kind data := by
  have hv := writable_fresh true
  rw [Registry.toBytes, bytesOf_bind (hv.writeVarInt _) fun buffer v hfresh => rfl, Registry.value,
    Registry.write, hnumbers, hwriters, Kinds.find_map, Kinds.find_map, Kinds.toBytes]
  cases Kinds.ofText (K := K) type.toString <;> rfl

section

variable {order}

theorem answers_toBytes {registry : RegistryName} (type : Identifier)
    {write : registry.Kind → Live Bytes} {r : registry.Kind → Except Fault Bytes}
    (h : ∀ kind, (write kind).Answers Registries.Standing (r kind)) :
    (Live.toBytes order registry type write).Answers Registries.Standing
      (Kinds.toBytes type.toString r) := by
  intro registries hstanding
  have htouch : (registries.touch order ⟨registry, type.toString⟩).Standing := hstanding.touch _
  rw [hstanding.toBytes_apply, Kinds.toBytes]
  cases Kinds.ofText (K := registry.Kind) type.toString with
  | none => exact ⟨rfl, htouch⟩
  | some kind => exact (h kind).bind (fun bytes => Process.Answers.lift _) _ htouch

theorem ConsumeEffect.answers_toBytesLive (effect : ConsumeEffect) :
    (effect.toBytesLive order).Answers Registries.Standing effect.toBytes := by
  rw [ConsumeEffect.toBytes, Registry.toBytes_eq_of_kinds consumeEffectRegistry
    (fun (kind : ConsumeEffectType) data => bytesOf (kind.write data)) rfl rfl]
  exact answers_toBytes effect.type fun kind => Process.Answers.lift _

/-- The displays are encoded one by one into the buffer, or all of them first. -/
theorem forEach_writeDisplay (toBytes : SlotDisplay → Except Fault Bytes)
    (displays : List SlotDisplay) : ∀ buffer v, Fresh true buffer v →
      forEach (writeDisplay toBytes) displays buffer =
        displays.mapM toBytes >>= fun words => forEach writeByteArray words buffer := by
  induction displays with
  | nil => exact fun _ _ _ => rfl
  | cons display displays ih =>
    intro buffer v hfresh
    rw [forEach, List.mapM_cons, bind_apply, writeDisplay]
    cases toBytes display with
    | error fault => rfl
    | ok w =>
      obtain ⟨buffer', hwrite, hfresh'⟩ := (writable_fresh true).writeBytes w buffer v hfresh
      have hrun : writeByteArray w buffer = .ok ((), buffer') := hwrite
      rw [ok_bind, ok_bind, hrun, ok_bind, ih buffer' _ hfresh']
      cases displays.mapM toBytes with
      | error fault => rfl
      | ok words =>
        change _ = forEach writeByteArray (w :: words) buffer
        rw [forEach, bind_of_eq_ok hrun]
        rfl

namespace SlotDisplayType

theorem exists_produces_writeFront (data : SlotDisplayData) (type : SlotDisplayType) :
    ∃ w, Produces (Fresh true) (type.writeFront data) w := by
  have hv := writable_fresh true
  cases type with
  | item => exact ⟨_, hv.writeVarInt _⟩
  | itemStack =>
    unfold writeFront writeSlot
    rw [Slot.toBytes_eq]
    exact ⟨_, hv.writeBytes _⟩
  | tag => exact ⟨_, hv.writeIdentifier _⟩
  | composite => exact ⟨_, hv.writeVarInt _⟩
  | _ => exact ⟨_, Produces.pure⟩

theorem write_eq (toBytes : SlotDisplay → Except Fault Bytes) (data : SlotDisplayData)
    (type : SlotDisplayType) : type.write toBytes data = (type.writeFront data >>= fun _ =>
      forEach (writeDisplay toBytes) (type.written .new data.children)) := by
  cases type with
  | item | itemStack | tag => exact (bind_pure _).symm
  | composite => rfl
  | _ => exact (pure_bind _ _).symm

theorem bytesOf_write (toBytes : SlotDisplay → Except Fault Bytes) (data : SlotDisplayData)
    (type : SlotDisplayType) : bytesOf (type.write toBytes data) =
      (type.written .new data.children).mapM toBytes >>= fun words =>
        bytesOf (type.writeFront data >>= fun _ => forEach writeByteArray words) := by
  obtain ⟨w, hfront⟩ := type.exists_produces_writeFront data
  rw [write_eq, bytesOf_bind hfront (forEach_writeDisplay toBytes _)]

end SlotDisplayType

/-- The fuel of an encoding is that of the encoding without state. -/
theorem SlotDisplay.answers_toBytesLive (n : ℕ) (display : SlotDisplay) :
    (display.toBytesLive order n).Answers Registries.Standing (display.toBytes n) := by
  induction n generalizing display with
  | zero => exact Process.Answers.lift _
  | succ n ih =>
    rw [SlotDisplay.toBytes, Registry.toBytes_eq_of_kinds (slotDisplayRegistry _ _)
      (fun (kind : SlotDisplayType) data => bytesOf (kind.write (SlotDisplay.toBytes n) data))
      rfl rfl]
    refine answers_toBytes display.type fun kind => ?_
    rw [SlotDisplayType.bytesOf_write]
    exact (Process.Answers.each ih _).bind fun words => Process.Answers.lift _

namespace RecipeDisplayType

theorem exists_produces_writeFront (data : RecipeDisplayData) (type : RecipeDisplayType) :
    ∃ w, Produces (Fresh true) (type.writeFront data) w := by
  have hv := writable_fresh true
  cases type with
  | craftingShapeless => exact ⟨_, hv.writeVarInt _⟩
  | craftingShaped =>
    exact ⟨_, (hv.writeVarInt _).bind ((hv.writeVarInt _).bind (hv.writeVarInt _))⟩
  | _ => exact ⟨_, Produces.pure⟩

theorem exists_produces_writeBack (data : RecipeDisplayData) (type : RecipeDisplayType) :
    ∃ w, Produces (Fresh true) (type.writeBack data) w := by
  have hv := writable_fresh true
  cases type with
  | furnace => exact ⟨_, (hv.writeVarInt _).bind (hv.writeNumeric (k := 4) _)⟩
  | _ => exact ⟨_, Produces.pure⟩

theorem write_eq (n : ℕ) (data : RecipeDisplayData) (type : RecipeDisplayType) :
    type.write n data = (type.writeFront data >>= fun _ =>
      forEach (writeDisplay (SlotDisplay.toBytes n)) (type.written data) >>= fun _ =>
        type.writeBack data) := by
  have hwrite : writeSlotDisplay n = writeDisplay (SlotDisplay.toBytes n) := rfl
  cases type <;> simp [write, writeFront, written, writeBack, writePrefixedArray, writeArray,
    writeDisplays, fixed, forEach_append, forEach, hwrite]

theorem bytesOf_write (n : ℕ) (data : RecipeDisplayData) (type : RecipeDisplayType) :
    bytesOf (type.write n data) =
      (type.written data).mapM (SlotDisplay.toBytes n) >>= fun words =>
        bytesOf (type.writeFront data >>= fun _ =>
          forEach writeByteArray words >>= fun _ => type.writeBack data) := by
  obtain ⟨w, hfront⟩ := type.exists_produces_writeFront data
  rw [write_eq, bytesOf_bind hfront fun buffer v hfresh => ?_]
  rw [bind_apply, forEach_writeDisplay _ _ buffer v hfresh]
  cases (type.written data).mapM (SlotDisplay.toBytes n) <;> rfl

end RecipeDisplayType

theorem RecipeDisplay.answers_toBytesLive (n : ℕ) (recipe : RecipeDisplay) :
    (recipe.toBytesLive order n).Answers Registries.Standing (recipe.toBytes n) := by
  rw [RecipeDisplay.toBytes, Registry.toBytes_eq_of_kinds (recipeDisplayRegistry n)
    (fun (kind : RecipeDisplayType) data => bytesOf (kind.write n data)) rfl rfl]
  refine answers_toBytes recipe.type fun kind => ?_
  rw [RecipeDisplayType.bytesOf_write]
  exact (Process.Answers.each (SlotDisplay.answers_toBytesLive n) _).bind fun words =>
    Process.Answers.lift _

end

end Zinc.Game
