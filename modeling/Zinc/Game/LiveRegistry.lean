import Mathlib.Logic.Function.Basic
import Zinc.Base.Indexed
import Zinc.Base.Process
import Zinc.Game.ConsumeEffect
import Zinc.Game.Recipe

/-! The registries in memory. The methods `toBytes` and the readers look a type up with the
`operator[]` of the maps, so what they do depends on the entries that are there, and may add
some. The writers and the readers that are registered are known by the types they belong to. -/

namespace Zinc.Game

open Throw Buffer Buffer.ByteBuffer Indexed

/-! ### Kinds -/

/-- The registered types of a registry. -/
class Kinds (K : Type) where
  name : K → String
  number : K → BitVec 32
  all : List K
  mem_all (kind : K) : kind ∈ all
  name_injective : Function.Injective name
  number_injective : Function.Injective number

namespace Kinds

variable {K : Type} [Kinds K]

/-- The text of a type. -/
def text (kind : K) : Bytes := utf8 (name kind)

/-- The type of a text. -/
def ofText (text : Bytes) : Option K := all.find? fun kind => utf8 (name kind) = text

theorem text_injective : Function.Injective (text (K := K)) :=
  fun _ _ h => name_injective (utf8_inj.mp h)

theorem ofText_eq_some {text' : Bytes} {kind : K} : ofText text' = some kind ↔ text kind = text' := by
  constructor
  · intro h
    have hname := List.find?_some h
    exact of_decide_eq_true hname
  · rintro rfl
    cases hfound : ofText (K := K) (text kind) with
    | none =>
      have hnone := List.find?_eq_none.mp hfound kind (mem_all kind)
      exact absurd (decide_eq_true rfl) hnone
    | some kind' =>
      have hname := List.find?_some hfound
      rw [text_injective (of_decide_eq_true hname)]

/-- A map with one entry for each type. -/
def table {V : Type} (f : K → V) : AList fun _ : Bytes => V :=
  ((all : List K).map fun kind => ⟨text kind, f kind⟩).toAList

/-- The entry of a type in a map that has one for each. -/
theorem find_map {α : Type} (f : K → α) (text : Bytes) :
    Registry.find (all.map fun kind : K => (name kind, f kind)) text = (ofText text).map f := by
  rw [Registry.find, List.find?_map, Option.map_map]
  rfl

end Kinds

instance : Kinds ConsumeEffectType where
  name := ConsumeEffectType.name
  number := ConsumeEffectType.number
  all := [.applyEffects, .removeEffects, .clearEffects, .teleportRandomly, .playSound]
  mem_all kind := by cases kind <;> simp
  name_injective := ConsumeEffectType.name_injective
  number_injective kind kind' h := by
    cases kind <;> cases kind' <;> first | rfl | exact absurd h (by decide)

instance : Kinds SlotDisplayType where
  name := SlotDisplayType.name
  number := SlotDisplayType.number
  all := SlotDisplayType.all
  mem_all kind := by cases kind <;> simp [SlotDisplayType.all]
  name_injective := SlotDisplayType.name_injective
  number_injective kind kind' h := by
    cases kind <;> cases kind' <;> first | rfl | exact absurd h (by decide)

instance : Kinds RecipeDisplayType where
  name := RecipeDisplayType.name
  number := RecipeDisplayType.number
  all := [.craftingShapeless, .craftingShaped, .furnace, .stonecutter, .smithing]
  mem_all kind := by cases kind <;> simp
  name_injective := RecipeDisplayType.name_injective
  number_injective kind kind' h := by
    cases kind <;> cases kind' <;> first | rfl | exact absurd h (by decide)

/-! ### Tables -/

/-- The maps of a `Registry<T>`. -/
structure Tables (K : Type) where
  registryData : AList fun _ : Bytes => BitVec 32
  /-- `none` is the empty function. -/
  writers : AList fun _ : Bytes => Option K
  readers : AList fun _ : Bytes => Option K
  defaultIdentifier : Identifier

inductive RegistryName where
  | consumeEffect
  | slotDisplay
  | recipeDisplay
  deriving DecidableEq

namespace RegistryName

@[reducible] def Kind : RegistryName → Type
  | consumeEffect => ConsumeEffectType
  | slotDisplay => SlotDisplayType
  | recipeDisplay => RecipeDisplayType

instance : (registry : RegistryName) → Kinds registry.Kind
  | consumeEffect => inferInstanceAs (Kinds ConsumeEffectType)
  | slotDisplay => inferInstanceAs (Kinds SlotDisplayType)
  | recipeDisplay => inferInstanceAs (Kinds RecipeDisplayType)

def defaultIdentifier : RegistryName → Identifier
  | consumeEffect => consumeEffectRegistry.defaultIdentifier
  | slotDisplay => (slotDisplayRegistry (fun _ => .error .stuck) (fail .stuck)).defaultIdentifier
  | recipeDisplay => (recipeDisplayRegistry 0).defaultIdentifier

end RegistryName

/-- `g_consumeEffectRegistry`, `g_slotDisplayRegistry` and `g_recipeDisplayRegistry`. -/
abbrev Registries := (registry : RegistryName) → Tables registry.Kind

/-- The registries before anything was looked up. -/
def Registries.initial (order : Order Bytes) : Registries := fun registry =>
  { registryData := order.arrange (Kinds.table fun kind : registry.Kind => Kinds.number kind)
    writers := order.arrange (Kinds.table some)
    readers := order.arrange (Kinds.table some)
    defaultIdentifier := registry.defaultIdentifier }

/-- Computations that may change the registries and throw. -/
abbrev Live (α : Type) := Process Registries Fault α

/-- The first type with the number, in the order of the entries. -/
def Tables.getIdentifierFromValue {K : Type} (tables : Tables K) (value : BitVec 32) :
    Except Fault Identifier :=
  match tables.registryData.entries.find? fun entry => entry.2 = value with
  | some entry => Identifier.ofString entry.1
  | none => .ok tables.defaultIdentifier

variable (order : Order Bytes)

namespace Live

/-- `m_registryData[text]`. -/
def registryData (registry : RegistryName) (text : Bytes) : Live (BitVec 32) := fun registries =>
  let tables := registries registry
  let found := order.index 0 text tables.registryData
  (.ok found.1, Function.update registries registry { tables with registryData := found.2 })

/-- `m_writers[text]`. -/
def writers (registry : RegistryName) (text : Bytes) : Live (Option registry.Kind) :=
  fun registries =>
    let tables := registries registry
    let found := order.index none text tables.writers
    (.ok found.1, Function.update registries registry { tables with writers := found.2 })

/-- `m_readers[text]`. -/
def readers (registry : RegistryName) (text : Bytes) : Live (Option registry.Kind) :=
  fun registries =>
    let tables := registries registry
    let found := order.index none text tables.readers
    (.ok found.1, Function.update registries registry { tables with readers := found.2 })

/-- The methods `toBytes` of values with a registered type. The buffer is filled when the bytes
of the data are there. -/
def toBytes (registry : RegistryName) (type : Identifier)
    (write : registry.Kind → Live Bytes) : Live Bytes := do
  let number ← registryData order registry type.toString
  let writer ← writers order registry type.toString
  match writer with
  | none => Process.lift (.error .badFunctionCall)
  | some kind => do
    let bytes ← write kind
    Process.lift (bytesOf do
      writeVarInt number
      writeByteArray bytes)

end Live

/-! ### Encoding -/

def ConsumeEffect.toBytesLive (effect : ConsumeEffect) : Live Bytes :=
  Live.toBytes order .consumeEffect effect.type fun kind : ConsumeEffectType =>
    Process.lift (bytesOf (kind.write effect.toConsumeEffectData))

/-- Things of a fixed number: if there is another number of them, that many new ones. -/
def fixed {α : Type} (n : ℕ) (new : α) (as : List α) : List α :=
  if as.length ≠ n then List.replicate n new else as

namespace SlotDisplayType

/-- What the writer of a type writes in front of displays. -/
def writeFront (data : SlotDisplayData) : SlotDisplayType → Action Unit
  | item => writeVarInt data.itemType
  | itemStack => writeSlot data.itemStack
  | tag => writeIdentifier data.tag
  | composite => writeVarInt (toInt data.children.length)
  | _ => pure ()

/-- The displays that it writes, of the children. -/
def written {α : Type} (new : α) (children : List α) : SlotDisplayType → List α
  | smithingTrim => fixed 3 new children
  | withRemainder => fixed 2 new children
  | composite => children
  | _ => []

def writeLive (toBytes : SlotDisplay → Live Bytes) (data : SlotDisplayData)
    (type : SlotDisplayType) : Live Bytes := do
  let words ← Process.each toBytes (type.written .new data.children)
  Process.lift (bytesOf do
    type.writeFront data
    forEach writeByteArray words)

end SlotDisplayType

/-- The fuel bounds the recursion. -/
def SlotDisplay.toBytesLive : ℕ → SlotDisplay → Live Bytes
  | 0, _ => Process.lift (.error .stuck)
  | n + 1, display => Live.toBytes order .slotDisplay display.type fun kind : SlotDisplayType =>
    kind.writeLive (SlotDisplay.toBytesLive n) display.data

namespace RecipeDisplayType

/-- What the writer of a type writes in front of displays. -/
def writeFront (data : RecipeDisplayData) : RecipeDisplayType → Action Unit
  | craftingShapeless => writeVarInt (toInt data.ingredients.length)
  | craftingShaped => do
    writeVarInt data.width
    writeVarInt data.height
    writeVarInt (toInt data.ingredients.length)
  | _ => pure ()

/-- The displays that it writes. -/
def written (data : RecipeDisplayData) : RecipeDisplayType → List SlotDisplay
  | furnace => fixed 1 .new data.ingredients ++ [data.fuel, data.result, data.craftingStation]
  | stonecutter => fixed 1 .new data.ingredients ++ [data.result, data.craftingStation]
  | smithing => fixed 3 .new data.ingredients ++ [data.result, data.craftingStation]
  | _ => data.ingredients ++ [data.result, data.craftingStation]

/-- What it writes behind them. -/
def writeBack (data : RecipeDisplayData) : RecipeDisplayType → Action Unit
  | furnace => do
    writeVarInt data.cookingTime
    writeNumeric (k := 4) data.experience
  | _ => pure ()

def writeLive (toBytes : SlotDisplay → Live Bytes) (data : RecipeDisplayData)
    (type : RecipeDisplayType) : Live Bytes := do
  let words ← Process.each toBytes (type.written data)
  Process.lift (bytesOf do
    type.writeFront data
    forEach writeByteArray words
    type.writeBack data)

end RecipeDisplayType

def RecipeDisplay.toBytesLive (n : ℕ) (recipe : RecipeDisplay) : Live Bytes :=
  Live.toBytes order .recipeDisplay recipe.type fun kind : RecipeDisplayType =>
    kind.writeLive (SlotDisplay.toBytesLive order n) recipe.toRecipeDisplayData

/-- `readConsumeEffect`. -/
def readConsumeEffectLive (buffer : ByteBuffer) : Live (ConsumeEffect × ByteBuffer) := do
  let value ← Process.lift (readVarInt buffer)
  let type ← fun registries =>
    ((registries .consumeEffect).getIdentifierFromValue value.1, registries)
  let reader ← Live.readers order .consumeEffect type.toString
  match reader with
  | none => Process.lift (.error .badFunctionCall)
  | some kind => do
    let data ← Process.lift (ConsumeEffectType.read kind value.2)
    pure ({ data.1 with type }, data.2)

end Zinc.Game
