import Zinc.Game.SlotDisplay

/-! Recipe displays. Each of the five registered types has the displays of its ingredients, its
result and its crafting station, and some numbers in front of them or behind them. So a recipe
comes back when its displays do, the ingredients can be announced, and the number that is no
VarInt is read in the byte order of the buffer it was written in. -/

namespace Zinc.Game

open Throw Buffer Buffer.ByteBuffer Base128

structure RecipeDisplayData where
  width : BitVec 32
  height : BitVec 32
  ingredients : List SlotDisplay
  fuel : SlotDisplay
  result : SlotDisplay
  craftingStation : SlotDisplay
  cookingTime : BitVec 32
  experience : BitVec 32
  customData : Bytes

/-- `RecipeDisplayData data`; the numbers, which have no initial value, are 0 here. -/
def RecipeDisplayData.new : RecipeDisplayData := ⟨0, 0, [], .new, .new, .new, 0, 0, []⟩

structure RecipeDisplay extends RecipeDisplayData where
  type : Identifier

inductive RecipeDisplayType where
  | craftingShapeless
  | craftingShaped
  | furnace
  | stonecutter
  | smithing
  deriving DecidableEq

namespace RecipeDisplayType

def name : RecipeDisplayType → String
  | craftingShapeless => "minecraft:crafting_shapeless"
  | craftingShaped => "minecraft:crafting_shaped"
  | furnace => "minecraft:furnace"
  | stonecutter => "minecraft:stonecutter"
  | smithing => "minecraft:smithing"

def number : RecipeDisplayType → BitVec 32
  | craftingShapeless => 0
  | craftingShaped => 1
  | furnace => 2
  | stonecutter => 3
  | smithing => 4

/-- What the writer of a type writes to its buffer. -/
def write (n : ℕ) (data : RecipeDisplayData) : RecipeDisplayType → Action Unit
  | craftingShapeless => do
    writePrefixedArray data.ingredients (writeSlotDisplay n)
    writeSlotDisplay n data.result
    writeSlotDisplay n data.craftingStation
  | craftingShaped => do
    writeVarInt data.width
    writeVarInt data.height
    writePrefixedArray data.ingredients (writeSlotDisplay n)
    writeSlotDisplay n data.result
    writeSlotDisplay n data.craftingStation
  | furnace => do
    writeDisplays (SlotDisplay.toBytes n) 1 data.ingredients
    writeSlotDisplay n data.fuel
    writeSlotDisplay n data.result
    writeSlotDisplay n data.craftingStation
    writeVarInt data.cookingTime
    writeNumeric (k := 4) data.experience
  | stonecutter => do
    writeDisplays (SlotDisplay.toBytes n) 1 data.ingredients
    writeSlotDisplay n data.result
    writeSlotDisplay n data.craftingStation
  | smithing => do
    writeDisplays (SlotDisplay.toBytes n) 3 data.ingredients
    writeSlotDisplay n data.result
    writeSlotDisplay n data.craftingStation

def read (n : ℕ) : RecipeDisplayType → Action RecipeDisplayData
  | craftingShapeless => do
    let ingredients ← readPrefixedArray (readSlotDisplay n)
    let result ← readSlotDisplay n
    let craftingStation ← readSlotDisplay n
    pure { RecipeDisplayData.new with ingredients, result, craftingStation }
  | craftingShaped => do
    let width ← readVarInt
    let height ← readVarInt
    let ingredients ← readPrefixedArray (readSlotDisplay n)
    let result ← readSlotDisplay n
    let craftingStation ← readSlotDisplay n
    pure { RecipeDisplayData.new with width, height, ingredients, result, craftingStation }
  | furnace => do
    let ingredients ← readArray (readSlotDisplay n) 1
    let fuel ← readSlotDisplay n
    let result ← readSlotDisplay n
    let craftingStation ← readSlotDisplay n
    let cookingTime ← readVarInt
    let experience ← readNumeric 4
    pure { RecipeDisplayData.new with
      ingredients, fuel, result, craftingStation, cookingTime, experience }
  | stonecutter => do
    let ingredients ← readArray (readSlotDisplay n) 1
    let result ← readSlotDisplay n
    let craftingStation ← readSlotDisplay n
    pure { RecipeDisplayData.new with ingredients, result, craftingStation }
  | smithing => do
    let ingredients ← readArray (readSlotDisplay n) 3
    let result ← readSlotDisplay n
    let craftingStation ← readSlotDisplay n
    pure { RecipeDisplayData.new with ingredients, result, craftingStation }

end RecipeDisplayType

/-- `g_recipeDisplayRegistry`; the fuel bounds the recursion in slot displays. -/
def recipeDisplayRegistry (n : ℕ) : Registry RecipeDisplayData where
  registryData := [("minecraft:crafting_shapeless", 0), ("minecraft:crafting_shaped", 1),
    ("minecraft:furnace", 2), ("minecraft:stonecutter", 3), ("minecraft:smithing", 4)]
  writers := [
    ("minecraft:crafting_shapeless",
      fun data => bytesOf (RecipeDisplayType.craftingShapeless.write n data)),
    ("minecraft:crafting_shaped",
      fun data => bytesOf (RecipeDisplayType.craftingShaped.write n data)),
    ("minecraft:furnace", fun data => bytesOf (RecipeDisplayType.furnace.write n data)),
    ("minecraft:stonecutter", fun data => bytesOf (RecipeDisplayType.stonecutter.write n data)),
    ("minecraft:smithing", fun data => bytesOf (RecipeDisplayType.smithing.write n data))]
  readers := [
    ("minecraft:crafting_shapeless", RecipeDisplayType.craftingShapeless.read n),
    ("minecraft:crafting_shaped", RecipeDisplayType.craftingShaped.read n),
    ("minecraft:furnace", RecipeDisplayType.furnace.read n),
    ("minecraft:stonecutter", RecipeDisplayType.stonecutter.read n),
    ("minecraft:smithing", RecipeDisplayType.smithing.read n)]
  defaultIdentifier := ⟨utf8 "minecraft", utf8 "crafting_shapeless"⟩

def RecipeDisplay.toBytes (n : ℕ) (recipe : RecipeDisplay) : Except Fault Bytes :=
  (recipeDisplayRegistry n).toBytes recipe.type recipe.toRecipeDisplayData

def writeRecipeDisplay (n : ℕ) (recipe : RecipeDisplay) : Action Unit := fun buffer => do
  let bytes ← recipe.toBytes n
  writeByteArray bytes buffer

def readRecipeDisplay (n : ℕ) : Action RecipeDisplay := do
  let typed ← (recipeDisplayRegistry n).readTyped
  pure { typed.2 with type := typed.1 }

/-! ### Fields -/

namespace RecipeDisplayType

/-- The displays that a type uses, in the order in which they are written. -/
def used (data : RecipeDisplayData) : RecipeDisplayType → List SlotDisplay
  | furnace => data.ingredients ++ [data.fuel, data.result, data.craftingStation]
  | _ => data.ingredients ++ [data.result, data.craftingStation]

/-- The number of ingredients that a type has to have. -/
def Arity (data : RecipeDisplayData) : RecipeDisplayType → Prop
  | furnace | stonecutter => data.ingredients.length = 1
  | smithing => data.ingredients.length = 3
  | _ => True

/-- An `int` can announce the ingredients. -/
def Sizes (data : RecipeDisplayData) : RecipeDisplayType → Prop
  | craftingShapeless | craftingShaped => Counted data.ingredients.length
  | _ => True

/-- A buffer of a byte order makes the same `float` of its bytes. -/
def Exact (e : Bool) (data : RecipeDisplayData) : RecipeDisplayType → Prop
  | furnace => crossed e (k := 4) data.experience = data.experience
  | _ => True

/-- The numbers that a type uses. -/
def SameNumbers (data data' : RecipeDisplayData) : RecipeDisplayType → Prop
  | craftingShaped => data'.width = data.width ∧ data'.height = data.height
  | furnace => data'.cookingTime = data.cookingTime ∧ data'.experience = data.experience
  | _ => True

/-- The numbers and the displays that a type uses. -/
def Agrees (data data' : RecipeDisplayData) (type : RecipeDisplayType) : Prop :=
  type.SameNumbers data data' ∧
    List.Forall₂ SlotDisplay.Agrees (type.used data) (type.used data')

theorem name_injective : Function.Injective name := by
  intro type type' h
  cases type <;> cases type' <;> first | rfl | exact absurd h (by decide)

end RecipeDisplayType

namespace RecipeDisplay

/-- The number of ingredients that the type has to have, and displays of registered types. -/
def Valid (type : RecipeDisplayType) (recipe : RecipeDisplay) : Prop :=
  type.Arity recipe.toRecipeDisplayData ∧
    ∀ display ∈ type.used recipe.toRecipeDisplayData, display.Valid

/-- The displays come back, and the numbers. -/
def Sound (e : Bool) (type : RecipeDisplayType) (recipe : RecipeDisplay) : Prop :=
  (∀ display ∈ type.used recipe.toRecipeDisplayData, display.Sound) ∧
    type.Sizes recipe.toRecipeDisplayData ∧ type.Exact e recipe.toRecipeDisplayData

/-- The same type, and the fields that it uses. -/
def Agrees (type : RecipeDisplayType) (recipe recipe' : RecipeDisplay) : Prop :=
  recipe'.type.toString = utf8 type.name ∧
    type.Agrees recipe.toRecipeDisplayData recipe'.toRecipeDisplayData

end RecipeDisplay

/-! ### Words -/

namespace RecipeDisplayType

/-- The word of the fields of a type, around the words of the displays. -/
def payload (enc : SlotDisplay → Bytes) (data : RecipeDisplayData) : RecipeDisplayType → Bytes
  | craftingShapeless =>
    prefixedBytes enc data.ingredients ++ (enc data.result ++ enc data.craftingStation)
  | craftingShaped => varIntBytes data.width ++ (varIntBytes data.height ++
      (prefixedBytes enc data.ingredients ++ (enc data.result ++ enc data.craftingStation)))
  | furnace => data.ingredients.flatMap enc ++ (enc data.fuel ++ (enc data.result ++
      (enc data.craftingStation ++
        (varIntBytes data.cookingTime ++ numericBytes true (k := 4) data.experience))))
  | stonecutter | smithing =>
    data.ingredients.flatMap enc ++ (enc data.result ++ enc data.craftingStation)

/-- What is written in front of the displays. -/
def front (data : RecipeDisplayData) : RecipeDisplayType → Bytes
  | craftingShapeless => varIntBytes (toInt data.ingredients.length)
  | craftingShaped => varIntBytes data.width ++ (varIntBytes data.height ++
      varIntBytes (toInt data.ingredients.length))
  | _ => []

/-- What is written behind them. -/
def back (data : RecipeDisplayData) : RecipeDisplayType → Bytes
  | furnace => varIntBytes data.cookingTime ++ numericBytes true (k := 4) data.experience
  | _ => []

theorem payload_eq (enc : SlotDisplay → Bytes) (data : RecipeDisplayData)
    (type : RecipeDisplayType) : type.payload enc data =
      type.front data ++ ((type.used data).flatMap enc ++ type.back data) := by
  cases type <;> simp [payload, front, back, used, prefixedBytes]

theorem entry (n : ℕ) (type : RecipeDisplayType) :
    (recipeDisplayRegistry n).Entry type.name type.number
      (fun data => bytesOf (type.write n data)) (type.read n) := by
  cases type <;> constructor <;> first | decide +kernel |
    simp [Registry.find, recipeDisplayRegistry, name, number]

variable {e : Bool} {view : ByteBuffer → Bytes → Prop} {type : RecipeDisplayType}
  {enc : SlotDisplay → Bytes} {data data' : RecipeDisplayData}

theorem mem_ingredients {display : SlotDisplay} (h : display ∈ data.ingredients) :
    display ∈ type.used data := by
  cases type <;> exact List.mem_append_left _ h

theorem mem_result : data.result ∈ type.used data := by
  cases type <;> simp [used]

theorem mem_craftingStation : data.craftingStation ∈ type.used data := by
  cases type <;> simp [used]

theorem mem_fuel : data.fuel ∈ furnace.used data := by simp [used]

theorem produces_write (hv : Writable true view) {n : ℕ} (harity : type.Arity data)
    (h : ∀ display ∈ type.used data, display.toBytes n = .ok (enc display)) :
    Produces view (type.write n data) (type.payload enc data) := by
  have hdisplay : ∀ display ∈ type.used data,
      Produces view (writeSlotDisplay n display) (enc display) := fun display hdisplay =>
    produces_writeDisplay hv (h display hdisplay)
  have hends := (hdisplay _ mem_result).bind (hdisplay _ mem_craftingStation)
  have hprefixed : Produces view (writePrefixedArray data.ingredients (writeSlotDisplay n))
      (prefixedBytes enc data.ingredients) :=
    hv.writePrefixedArray fun display hmem => hdisplay display (mem_ingredients hmem)
  have hfixed : ∀ {m}, data.ingredients.length = m →
      Produces view (writeDisplays (SlotDisplay.toBytes n) m data.ingredients)
        (data.ingredients.flatMap enc) := fun hm =>
    produces_writeDisplays hv hm fun display hmem => h display (mem_ingredients hmem)
  cases type with
  | craftingShapeless => exact hprefixed.bind hends
  | craftingShaped => exact (hv.writeVarInt _).bind ((hv.writeVarInt _).bind (hprefixed.bind hends))
  | furnace =>
    exact (hfixed harity).bind <| (hdisplay _ mem_fuel).bind <| (hdisplay _ mem_result).bind <|
      (hdisplay _ mem_craftingStation).bind <|
        (hv.writeVarInt _).bind (hv.writeNumeric (k := 4) _)
  | stonecutter | smithing => exact (hfixed harity).bind hends

/-- The data that is read of the fields of a type, with what is read of the displays. -/
theorem exists_consumes (hv : Readable e view) (harity : type.Arity data)
    (hsizes : type.Sizes data) (enc : SlotDisplay → Bytes) (dec : SlotDisplay → SlotDisplay) :
    ∃ data', (type.SameNumbers data data' ↔ type.Exact e data) ∧
      type.used data' = (type.used data).map dec ∧ ∀ n,
        (∀ display ∈ type.used data,
          Consumes view (readSlotDisplay n) (enc display) (dec display)) →
        Consumes view (type.read n) (type.payload enc data) data' := by
  let displays : RecipeDisplayData := { RecipeDisplayData.new with
    ingredients := data.ingredients.map dec
    result := dec data.result
    craftingStation := dec data.craftingStation }
  have hfixed : ∀ {m n}, data.ingredients.length = m →
      (∀ display ∈ type.used data,
        Consumes view (readSlotDisplay n) (enc display) (dec display)) →
      Consumes view (readArray (readSlotDisplay n) m) (data.ingredients.flatMap enc)
        (data.ingredients.map dec) := by
    rintro _ n rfl hread
    exact Consumes.replicate_map enc dec _ fun display hmem => hread display (mem_ingredients hmem)
  cases type with
  | craftingShapeless =>
    refine ⟨displays, Iff.rfl, by simp [used, displays], fun n hread => ?_⟩
    have hprefixed := hv.readPrefixedArray_map hsizes fun display hmem =>
      hread display (mem_ingredients hmem)
    exact hprefixed.bind <| (hread _ mem_result).bind <|
      (hread _ mem_craftingStation).bind_pure _
  | craftingShaped =>
    refine ⟨{ displays with width := data.width, height := data.height },
      iff_of_true ⟨rfl, rfl⟩ trivial, by simp [used, displays], fun n hread => ?_⟩
    have hprefixed := hv.readPrefixedArray_map hsizes fun display hmem =>
      hread display (mem_ingredients hmem)
    exact (hv.readVarInt _).bind <| (hv.readVarInt _).bind <| hprefixed.bind <|
      (hread _ mem_result).bind <| (hread _ mem_craftingStation).bind_pure _
  | furnace =>
    refine ⟨{ displays with
      fuel := dec data.fuel
      cookingTime := data.cookingTime
      experience := crossed e (k := 4) data.experience }, and_iff_right rfl,
      by simp [used, displays], fun n hread => ?_⟩
    exact (hfixed harity hread).bind <| (hread _ mem_fuel).bind <| (hread _ mem_result).bind <|
      (hread _ mem_craftingStation).bind <| (hv.readVarInt _).bind <|
        (hv.readCrossed (k := 4) (by decide) _).bind_pure _
  | stonecutter | smithing =>
    refine ⟨displays, Iff.rfl, by simp [used, displays], fun n hread => ?_⟩
    exact (hfixed harity hread).bind <| (hread _ mem_result).bind <|
      (hread _ mem_craftingStation).bind_pure _

/-! ### What comes back -/

theorem enumerates_recipeDisplayRegistry (n : ℕ) :
    (recipeDisplayRegistry n).Enumerates name (read n) :=
  .of_map [craftingShapeless, craftingShaped, furnace, stonecutter, smithing] rfl

/-- The sizes of what was read of the fields of a type. -/
theorem yields_read (n : ℕ) (type : RecipeDisplayType) : Yields (fun data => type.Sizes data ∧
    ∀ display ∈ type.used data, display.Sized) (type.read n) := by
  have h := yields_readSlotDisplay n
  have hfixed : ∀ m, Yields (fun displays => ∀ display ∈ displays, display.Sized)
      (readArray (readSlotDisplay n) m) := fun m buffer p hp => (h.replicate m buffer p hp).2
  cases type with
  | craftingShapeless =>
    refine (yields_readPrefixedArray h).bind fun ingredients hingredients =>
      h.bind fun result hresult => h.map _ fun craftingStation hstation => ⟨hingredients.1, ?_⟩
    simpa [used, or_imp, forall_and] using ⟨hingredients.2, hresult, hstation⟩
  | craftingShaped =>
    refine Yields.of_bind fun width => Yields.of_bind fun height =>
      (yields_readPrefixedArray h).bind fun ingredients hingredients =>
      h.bind fun result hresult => h.map _ fun craftingStation hstation => ⟨hingredients.1, ?_⟩
    simpa [used, or_imp, forall_and] using ⟨hingredients.2, hresult, hstation⟩
  | furnace =>
    refine (hfixed 1).bind fun ingredients hingredients => h.bind fun fuel hfuel =>
      h.bind fun result hresult => h.bind fun craftingStation hstation =>
      Yields.of_bind fun cookingTime => Yields.of_bind fun experience => Yields.pure ⟨trivial, ?_⟩
    simpa [used, or_imp, forall_and] using ⟨hingredients, hfuel, hresult, hstation⟩
  | stonecutter | smithing =>
    refine (hfixed _).bind fun ingredients hingredients =>
      h.bind fun result hresult => h.map _ fun craftingStation hstation => ⟨trivial, ?_⟩
    simpa [used, or_imp, forall_and] using ⟨hingredients, hresult, hstation⟩

/-- The reader of a type takes no more stops than the fields of its result have. -/
theorem spares_read {b : InternalByteBuffer} {n : ℕ} (type : RecipeDisplayType)
    (h : Spares b e 0 (readSlotDisplay n) enc) :
    Spares b e 0 (type.read n) fun data => type.payload enc data := by
  cases type with
  | craftingShapeless =>
    refine h.readPrefixedArray.bind fun ingredients => h.bind fun result =>
      h.map _ fun craftingStation => ?_
    simp only [payload, stops_append]
    omega
  | craftingShaped =>
    refine spares_readVarInt.bind fun width => spares_readVarInt.bind fun height =>
      h.readPrefixedArray.bind fun ingredients => h.bind fun result =>
      h.map _ fun craftingStation => ?_
    simp only [payload, stops_append]
    omega
  | furnace =>
    refine (h.readArray 1).bind fun ingredients => h.bind fun fuel => h.bind fun result =>
      h.bind fun craftingStation => spares_readVarInt.bind fun cookingTime =>
      (spares_readNumeric 4).map _ fun experience => ?_
    simp only [payload, stops_append]
    omega
  | stonecutter | smithing =>
    refine (h.readArray _).bind fun ingredients => h.bind fun result =>
      h.map _ fun craftingStation => ?_
    simp only [payload, stops_append]
    omega

theorem Agrees.length_eq (h : type.Agrees data data') :
    data'.ingredients.length = data.ingredients.length := by
  have hlength := h.2.length_eq
  cases type <;> simpa [used] using hlength.symm

/-- Recipes that agree have one word. -/
theorem Agrees.payload_eq {stack : Slot → Bytes} (h : type.Agrees data data')
    (hvalid : ∀ display ∈ type.used data, display.Valid) :
    type.payload (SlotDisplay.bytes stack) data' = type.payload (SlotDisplay.bytes stack) data := by
  have hlength := h.length_eq
  obtain ⟨hnumbers, hused⟩ := h
  have hwords : (type.used data').map (SlotDisplay.bytes stack) =
      (type.used data).map (SlotDisplay.bytes stack) :=
    SlotDisplay.map_bytes_of_agrees hused
      fun display hdisplay _ hagrees => hagrees.bytes_eq (hvalid display hdisplay)
  have hends : type.front data' = type.front data ∧ type.back data' = type.back data := by
    cases type with
    | craftingShaped => simp [front, back, hlength, hnumbers.1, hnumbers.2]
    | furnace => simp [front, back, hnumbers.1, hnumbers.2]
    | _ => simp [front, back, hlength]
  rw [RecipeDisplayType.payload_eq, RecipeDisplayType.payload_eq, List.flatMap_def, hwords,
    ← List.flatMap_def, hends.1, hends.2]

/-- With an item stack the word has more stops than what is read of it. -/
theorem within_payload (hvalid : ∀ display ∈ type.used data, display.Valid) :
    Within (∀ display ∈ type.used data, display.Plain)
      (type.payload (SlotDisplay.bytes Slot.noBytes) data)
      (type.payload (SlotDisplay.bytes Slot.bytes) data) := by
  have hwords := Within.flatMap fun display hdisplay =>
    SlotDisplay.within_bytes (hvalid display hdisplay)
  rw [payload_eq, payload_eq]
  exact ((Within.refl trivial _).append (hwords.append (Within.refl trivial _))).mono
    fun hplain => hplain.2.1

theorem Agrees.sizes (h : type.Agrees data data') (hsizes : type.Sizes data') :
    type.Sizes data := by
  have hlength := h.length_eq
  cases type with
  | craftingShapeless | craftingShaped =>
    unfold Sizes at *
    rwa [← hlength]
  | _ => trivial

end RecipeDisplayType

/-! ### Recipes -/

section

variable {e : Bool} {type : RecipeDisplayType} {recipe : RecipeDisplay}

theorem produces_writeRecipeDisplay (htype : recipe.type.toString = utf8 type.name)
    (hvalid : recipe.Valid type) : ∃ bound, ∀ n ≥ bound,
      Produces (Stored e) (writeRecipeDisplay n recipe) (varIntBytes type.number ++
        type.payload (SlotDisplay.bytes Slot.bytes) recipe.toRecipeDisplayData) := by
  obtain ⟨bound, hbound⟩ := exists_bound _ fun display hdisplay =>
    SlotDisplay.exists_toBytes (hvalid.2 display hdisplay)
  refine ⟨bound, fun n hn => ?_⟩
  have hpayload := bytesOf_eq (type.produces_write (writable_fresh true) hvalid.1
    fun display hdisplay => hbound display hdisplay n hn)
  unfold writeRecipeDisplay RecipeDisplay.toBytes
  rw [(type.entry n).toBytes_eq htype hpayload]
  exact (writable_stored e).writeBytes _

theorem yields_readRecipeDisplay (n : ℕ) : Yields (fun recipe => ∃ type : RecipeDisplayType,
    recipe.type.toString = utf8 type.name ∧ type.Sizes recipe.toRecipeDisplayData ∧
      ∀ display ∈ type.used recipe.toRecipeDisplayData, display.Sized) (readRecipeDisplay n) := by
  refine ((RecipeDisplayType.enumerates_recipeDisplayRegistry n).yields_readTyped
    (RecipeDisplayType.yields_read n)).map _ ?_
  rintro ⟨identifier, data⟩ ⟨type, htext, hdata⟩
  exact ⟨type, htext, hdata⟩

theorem takes_readRecipeDisplay (b : InternalByteBuffer) (e : Bool) (n : ℕ) :
    Takes (Passed b e) (readRecipeDisplay n) fun w recipe => ∃ type : RecipeDisplayType,
      recipe.type.toString = utf8 type.name ∧ stops w ≤ 1 +
        stops (type.payload (SlotDisplay.bytes Slot.noBytes) recipe.toRecipeDisplayData) := by
  refine ((RecipeDisplayType.enumerates_recipeDisplayRegistry n).takes_readTyped
    fun type => type.spares_read (spares_readSlotDisplay b e n)).map _ ?_
  rintro w ⟨identifier, data⟩ ⟨type, u, v, htext, rfl, hu, hv⟩
  rw [stops_append]
  exact ⟨type, htext, Nat.add_le_add hu hv⟩

/-- A recipe that comes back has displays that do. -/
theorem sound_of_restores (hvalid : recipe.Valid type) {n : ℕ}
    (hwrite : Produces (Stored e) (writeRecipeDisplay n recipe) (varIntBytes type.number ++
      type.payload (SlotDisplay.bytes Slot.bytes) recipe.toRecipeDisplayData))
    (h : Restores e (writeRecipeDisplay n recipe) readRecipeDisplay (recipe.Agrees type)) :
    (∀ display ∈ type.used recipe.toRecipeDisplayData, display.Sound) ∧
      type.Sizes recipe.toRecipeDisplayData := by
  obtain ⟨recipe₁, ⟨htext, hagrees⟩, type₁, htext₁, hstops⟩ := h.exists_takes hwrite
    fun b n => takes_readRecipeDisplay b e n
  obtain rfl := Registry.unique_of_name RecipeDisplayType.name_injective htext htext₁
  rw [hagrees.payload_eq hvalid.2, stops_append, stops_varIntBytes] at hstops
  have hplain := (RecipeDisplayType.within_payload hvalid.2).2 (Nat.le_of_add_le_add_left hstops)
  obtain ⟨recipe₂, ⟨htext, hagrees⟩, type₂, htext₂, hsizes, hsized⟩ :=
    h.exists_yields yields_readRecipeDisplay
  obtain rfl := Registry.unique_of_name RecipeDisplayType.name_injective htext htext₂
  have hsized' := SlotDisplay.forall_of_agrees hagrees.2
    fun display' hdisplay' _ => SlotDisplay.Agrees.sized (hsized display' hdisplay')
  exact ⟨fun display hdisplay => SlotDisplay.sound_of_plain (hvalid.2 display hdisplay)
    (hplain display hdisplay) (hsized' display hdisplay), hagrees.sizes hsizes⟩

/-- A recipe with displays that come back is read from its word. -/
theorem exists_readRecipeDisplay (hvalid : recipe.Valid type)
    (hdisplays : ∀ display ∈ type.used recipe.toRecipeDisplayData, display.Sound)
    (hsizes : type.Sizes recipe.toRecipeDisplayData) : ∃ recipe',
      (recipe.Agrees type recipe' ↔ type.Exact e recipe.toRecipeDisplayData) ∧
      ∃ bound, ∀ n ≥ bound, Consumes (Stored e) (readRecipeDisplay n) (varIntBytes type.number ++
        type.payload (SlotDisplay.bytes Slot.bytes) recipe.toRecipeDisplayData) recipe' := by
  have hv := readable_stored e
  have hread := fun display hdisplay => SlotDisplay.exists_consumes hv (hdisplays display hdisplay)
  choose! dec hagrees hdec using hread
  obtain ⟨bound, hbound⟩ := exists_bound _ hdec
  obtain ⟨data', hnumbers, hused, hdata⟩ :=
    RecipeDisplayType.exists_consumes hv hvalid.1 hsizes (SlotDisplay.bytes Slot.bytes) dec
  obtain ⟨identifier, hparsed, htext⟩ := Identifier.toString_ofString (type.entry 0).colon
  refine ⟨{ data' with type := identifier }, ?_, bound, fun n hn => ?_⟩
  · have hforall : List.Forall₂ SlotDisplay.Agrees (type.used recipe.toRecipeDisplayData)
        (type.used data') := by
      rw [hused, List.forall₂_map_right_iff, List.forall₂_same]
      exact hagrees
    exact (and_iff_right htext).trans ((and_iff_left hforall).trans hnumbers)
  · have hpayload := hdata n fun display hdisplay => hbound display hdisplay n hn
    exact ((type.entry n).consumes_of_parsed hv hparsed htext hpayload).bind_pure _

def RecipeDisplay.ComesBack (e : Bool) (type : RecipeDisplayType) (recipe : RecipeDisplay) : Prop :=
  ∃ bound, ∀ n ≥ bound,
    Restores e (writeRecipeDisplay n recipe) readRecipeDisplay (recipe.Agrees type)

/-- A recipe of a registered type comes back exactly when it is sound. -/
theorem RecipeDisplay.comesBack_iff_sound (e : Bool) (htype : recipe.type.toString = utf8 type.name)
    (hvalid : recipe.Valid type) : recipe.ComesBack e type ↔ recipe.Sound e type := by
  obtain ⟨bound, hwrite⟩ := produces_writeRecipeDisplay (e := e) htype hvalid
  have hexact : ∀ n ≥ bound,
      (∀ display ∈ type.used recipe.toRecipeDisplayData, display.Sound) →
      type.Sizes recipe.toRecipeDisplayData →
      (Restores e (writeRecipeDisplay n recipe) readRecipeDisplay (recipe.Agrees type) ↔
        type.Exact e recipe.toRecipeDisplayData) := by
    intro n hn hdisplays hsizes
    obtain ⟨recipe', hagrees, bound', hread⟩ :=
      exists_readRecipeDisplay (e := e) hvalid hdisplays hsizes
    have hword := hwrite n hn
    rw [← List.append_nil (_ ++ _)] at hword
    rw [restores_iff hword hread, and_iff_right rfl, hagrees]
  constructor
  · rintro ⟨bound', hbound'⟩
    have hn : max bound bound' ≥ bound := le_max_left _ _
    have hrestores := hbound' (max bound bound') (le_max_right _ _)
    obtain ⟨hdisplays, hsizes⟩ := sound_of_restores hvalid (hwrite _ hn) hrestores
    exact ⟨hdisplays, hsizes, (hexact _ hn hdisplays hsizes).mp hrestores⟩
  · rintro ⟨hdisplays, hsizes, hfloat⟩
    exact ⟨bound, fun n hn => (hexact n hn hdisplays hsizes).mpr hfloat⟩

end

/-- Slot displays and recipes come back exactly when they are sound. -/
theorem displays_comeBack_iff (e : Bool) :
    (∀ display : SlotDisplay, display.Valid → (display.ComesBack e ↔ display.Sound)) ∧
    ∀ (type : RecipeDisplayType) (recipe : RecipeDisplay),
      recipe.type.toString = utf8 type.name → recipe.Valid type →
      (recipe.ComesBack e type ↔ recipe.Sound e type) :=
  ⟨fun _ h => SlotDisplay.comesBack_iff_sound e h,
    fun _ _ htype hvalid => RecipeDisplay.comesBack_iff_sound e htype hvalid⟩

/-- A display of two empty ones. -/
def remainder : SlotDisplay := { SlotDisplay.new with
  type := ⟨utf8 "minecraft", utf8 "with_remainder"⟩, children := [.new, .new] }

theorem each_new {P : SlotDisplayType → SlotDisplayData → Prop} (h : P .empty .new) :
    SlotDisplay.new.Each P := by
  have htype : SlotDisplay.new.type.toString = utf8 SlotDisplayType.empty.name := by
    decide +kernel
  exact .node htype h fun child hchild => absurd hchild List.not_mem_nil

theorem each_remainder {P : SlotDisplayType → SlotDisplayData → Prop} (h : P .empty .new)
    (h' : P .withRemainder remainder.data) : remainder.Each P := by
  have htype : remainder.type.toString = utf8 SlotDisplayType.withRemainder.name := by
    decide +kernel
  refine .node htype h' fun child hchild => ?_
  have hnew : child = .new := by
    simpa [SlotDisplayType.used, SlotDisplay.data, remainder] using hchild
  rw [hnew]
  exact each_new h

/-- The display as a fuel, without an experience. -/
theorem displays_comeBack_iff_remainder : remainder.ComesBack true ∧
    ∃ recipe : RecipeDisplay, recipe.fuel = remainder ∧ recipe.ComesBack true .furnace := by
  have hnew : SlotDisplay.new.Sound := each_new ⟨trivial, by decide, trivial⟩
  have hremainder : remainder.Sound :=
    each_remainder ⟨trivial, by decide, trivial⟩ ⟨rfl, by decide, trivial⟩
  have hvalid : remainder.Valid := each_remainder trivial rfl
  let recipe : RecipeDisplay := { RecipeDisplayData.new with
    ingredients := [.new], fuel := remainder, type := ⟨utf8 "minecraft", utf8 "furnace"⟩ }
  have hused : ∀ {R : SlotDisplay → Prop}, R .new → R remainder →
      ∀ display ∈ RecipeDisplayType.furnace.used recipe.toRecipeDisplayData, R display := by
    intro R h h'
    simp [RecipeDisplayType.used, recipe, RecipeDisplayData.new, h, h']
  have hrecipe : recipe.Valid .furnace := ⟨rfl, hused (each_new trivial) hvalid⟩
  have hiff := displays_comeBack_iff true
  exact ⟨(hiff.1 remainder hvalid).mpr hremainder, recipe, rfl,
    (hiff.2 .furnace recipe (by decide +kernel) hrecipe).mpr
      ⟨hused hnew hremainder, trivial, crossed_true _⟩⟩

/-- An item stack without items. -/
theorem not_comesBack_itemStack : ∃ display : SlotDisplay, display.Valid ∧
    display.type.toString = utf8 "minecraft:item_stack" ∧ display.itemStack = .new ∧
    ¬ display.ComesBack true := by
  let display : SlotDisplay :=
    { SlotDisplay.new with type := ⟨utf8 "minecraft", utf8 "item_stack"⟩ }
  have htype : display.type.toString = utf8 SlotDisplayType.itemStack.name := by decide +kernel
  have hvalid : display.Valid :=
    .node htype trivial fun child hchild => absurd hchild List.not_mem_nil
  refine ⟨display, hvalid, htype, rfl, fun h => ?_⟩
  cases (SlotDisplay.comesBack_iff_sound true hvalid).mp h with
  | node htype' hsound _ =>
    obtain rfl := Registry.unique_of_name SlotDisplayType.name_injective htype htype'
    exact hsound.2.1 rfl

end Zinc.Game
