import Zinc.Buffer.IDSet
import Zinc.Game.PotionEffect
import Zinc.Game.Registry
import Zinc.Game.Sound

/-! Consume effects. Each of the five registered types has a writer and a reader for the fields
that it uses. They are judged one by one: two of the readers stop before the end of what the
writer wrote, one always and one for a sound event without a range. A writer uses a buffer of
its own, in the default byte order, so a buffer of the other byte order reads other numbers. -/

namespace Zinc.Game

open Throw Buffer Buffer.ByteBuffer

structure ConsumeEffectData where
  effects : List PotionEffect
  probability : BitVec 32
  effectsRemove : IDSet
  diameter : BitVec 32
  sound : SoundEvent
  customData : Bytes

/-- `ConsumeEffectData()`. -/
def ConsumeEffectData.new : ConsumeEffectData := ⟨[], 0, .new, 0, default, []⟩

structure ConsumeEffect extends ConsumeEffectData where
  type : Identifier

inductive ConsumeEffectType where
  | applyEffects
  | removeEffects
  | clearEffects
  | teleportRandomly
  | playSound

namespace ConsumeEffectType

def name : ConsumeEffectType → String
  | applyEffects => "minecraft:apply_effects"
  | removeEffects => "minecraft:remove_effects"
  | clearEffects => "minecraft:clear_effects"
  | teleportRandomly => "minecraft:teleport_randomly"
  | playSound => "minecraft:play_sound"

def number : ConsumeEffectType → BitVec 32
  | applyEffects => 0
  | removeEffects => 1
  | clearEffects => 2
  | teleportRandomly => 3
  | playSound => 4

/-- What the writer of a type writes to its buffer. -/
def write : ConsumeEffectType → ConsumeEffectData → Action Unit
  | applyEffects, data => do
    Throw.forEach writePotionEffect data.effects
    writeNumeric (k := 4) data.probability
  | removeEffects, data => writeIDSet data.effectsRemove
  | clearEffects, _ => pure ()
  | teleportRandomly, data => writeNumeric (k := 4) data.diameter
  | playSound, data => writeSoundEvent data.sound

def read : ConsumeEffectType → Action ConsumeEffectData
  | applyEffects | clearEffects => pure .new
  | removeEffects => do
    let effectsRemove ← readIDSet
    pure { ConsumeEffectData.new with effectsRemove }
  | teleportRandomly => do
    let diameter ← readNumeric 4
    pure { ConsumeEffectData.new with diameter }
  | playSound => do
    let sound ← readSoundEvent
    pure { ConsumeEffectData.new with sound }

end ConsumeEffectType

/-- `g_consumeEffectRegistry`. -/
def consumeEffectRegistry : Registry ConsumeEffectData where
  registryData := [("minecraft:apply_effects", 0), ("minecraft:remove_effects", 1),
    ("minecraft:clear_effects", 2), ("minecraft:teleport_randomly", 3),
    ("minecraft:play_sound", 4)]
  writers := [
    ("minecraft:apply_effects", fun data => bytesOf (ConsumeEffectType.applyEffects.write data)),
    ("minecraft:remove_effects", fun data => bytesOf (ConsumeEffectType.removeEffects.write data)),
    ("minecraft:clear_effects", fun data => bytesOf (ConsumeEffectType.clearEffects.write data)),
    ("minecraft:teleport_randomly",
      fun data => bytesOf (ConsumeEffectType.teleportRandomly.write data)),
    ("minecraft:play_sound", fun data => bytesOf (ConsumeEffectType.playSound.write data))]
  readers := [
    ("minecraft:apply_effects", ConsumeEffectType.applyEffects.read),
    ("minecraft:remove_effects", ConsumeEffectType.removeEffects.read),
    ("minecraft:clear_effects", ConsumeEffectType.clearEffects.read),
    ("minecraft:teleport_randomly", ConsumeEffectType.teleportRandomly.read),
    ("minecraft:play_sound", ConsumeEffectType.playSound.read)]
  defaultIdentifier := ⟨utf8 "minecraft", utf8 "clear_effects"⟩

def ConsumeEffect.toBytes (effect : ConsumeEffect) : Except Fault Bytes :=
  consumeEffectRegistry.toBytes effect.type effect.toConsumeEffectData

def writeConsumeEffect (effect : ConsumeEffect) : Action Unit := fun buffer => do
  let bytes ← effect.toBytes
  writeByteArray bytes buffer

def readConsumeEffect : Action ConsumeEffect := do
  let typed ← consumeEffectRegistry.readTyped
  pure { typed.2 with type := typed.1 }

namespace ConsumeEffectType

/-- The fields that a type uses. -/
def Agrees (data data' : ConsumeEffectData) : ConsumeEffectType → Prop
  | applyEffects => data'.effects = data.effects ∧ data'.probability = data.probability
  | removeEffects => data.effectsRemove.Agrees data'.effectsRemove
  | clearEffects => True
  | teleportRandomly => data'.diameter = data.diameter
  | playSound => data.sound.Agrees data'.sound

/-- When the fields come back in a byte order: never with potion effects; an id set when its type
announces its ids; a sound event when it has a range and an `int` can announce its text; a
number when the byte order of the buffer makes no other number of its bytes. -/
def Keeps (e : Bool) (data : ConsumeEffectData) : ConsumeEffectType → Prop
  | applyEffects => False
  | removeEffects => data.effectsRemove.Fits
  | clearEffects => True
  | teleportRandomly => crossed e (k := 4) data.diameter = data.diameter
  | playSound => data.sound.hasFixedRange ∧ data.sound.identifier.toString.length < 2 ^ 31 ∧
      crossed e (k := 4) data.sound.getFixedRange = data.sound.getFixedRange

/-- What every result of the reader of a type has. -/
def Sizes (data : ConsumeEffectData) : ConsumeEffectType → Prop
  | removeEffects => data.effectsRemove.Fits
  | playSound => data.sound.identifier.toString.length < 2 ^ 31
  | _ => True

theorem name_injective : Function.Injective name := by
  intro type type' h
  cases type <;> cases type' <;> first | rfl | exact absurd h (by decide)

/-! ### Words -/

def bytes (data : ConsumeEffectData) : ConsumeEffectType → Bytes
  | applyEffects =>
    data.effects.flatMap PotionEffect.bytes ++ numericBytes true (k := 4) data.probability
  | removeEffects => data.effectsRemove.bytes
  | clearEffects => []
  | teleportRandomly => numericBytes true (k := 4) data.diameter
  | playSound => soundBytes true data.sound

theorem entry (type : ConsumeEffectType) : consumeEffectRegistry.Entry type.name type.number
    (fun data => bytesOf (type.write data)) type.read := by
  cases type <;> constructor <;> first | decide +kernel |
    simp [Registry.find, consumeEffectRegistry, name]

theorem enumerates_consumeEffectRegistry : consumeEffectRegistry.Enumerates name read :=
  .of_map [applyEffects, removeEffects, clearEffects, teleportRandomly, playSound] rfl

theorem yields_read (type : ConsumeEffectType) : Yields (type.Sizes ·) type.read := by
  cases type with
  | applyEffects | clearEffects => exact Yields.pure trivial
  | removeEffects => exact yields_readIDSet.map _ fun _ hfits => hfits
  | teleportRandomly => exact Yields.of_bind fun _ => Yields.pure trivial
  | playSound => exact yields_readSoundEvent.map _ fun _ htext => htext

theorem produces_write (type : ConsumeEffectType) (data : ConsumeEffectData) :
    Produces (Fresh true) (type.write data) (type.bytes data) := by
  have hv := writable_fresh true
  cases type with
  | applyEffects =>
    exact (Produces.forEach _ _ fun effect _ => produces_writePotionEffect hv effect).bind
      (hv.writeNumeric (k := 4) _)
  | removeEffects => exact hv.writeIDSet _
  | clearEffects => exact Produces.pure
  | teleportRandomly => exact hv.writeNumeric (k := 4) _
  | playSound => exact produces_writeSoundEvent hv _

end ConsumeEffectType

variable {e : Bool} {type : ConsumeEffectType} {effect : ConsumeEffect}

theorem produces_writeConsumeEffect (htype : effect.type.toString = utf8 type.name) :
    Produces (Stored e) (writeConsumeEffect effect)
      (varIntBytes type.number ++ type.bytes effect.toConsumeEffectData) := by
  have hpayload := bytesOf_eq (type.produces_write effect.toConsumeEffectData)
  have hbytes := type.entry.toBytes_eq htype hpayload
  unfold writeConsumeEffect ConsumeEffect.toBytes
  rw [hbytes]
  exact (writable_stored e).writeBytes _

/-- The same type, and the fields that it uses. -/
def ConsumeEffect.Agrees (type : ConsumeEffectType) (effect effect' : ConsumeEffect) : Prop :=
  effect'.type.toString = utf8 type.name ∧
    type.Agrees effect.toConsumeEffectData effect'.toConsumeEffectData

/-- What the reader of the type takes from the front decides. -/
theorem restores_consumeEffect_of_read (htype : effect.type.toString = utf8 type.name)
    {w v : Bytes} (hbytes : type.bytes effect.toConsumeEffectData = w ++ v)
    {data : ConsumeEffectData} (hread : Consumes (Stored e) type.read w data) :
    Restores e (writeConsumeEffect effect) (fun _ => readConsumeEffect) (effect.Agrees type) ↔
      v = [] ∧ type.Agrees effect.toConsumeEffectData data := by
  have hwrite := produces_writeConsumeEffect (e := e) htype
  rw [hbytes, ← List.append_assoc] at hwrite
  obtain ⟨type', htype', htyped⟩ := type.entry.consumes (readable_stored e) hread
  have heffect : Consumes (Stored e) readConsumeEffect (varIntBytes type.number ++ w)
      { data with type := type' } := htyped.bind_pure _
  rw [restores_iff (m := 0) hwrite fun _ _ => heffect]
  exact and_congr_right fun _ => and_iff_right htype'

/-- The sizes of an effect that comes back. -/
theorem exists_sizes_of_restores
    (h : Restores e (writeConsumeEffect effect) (fun _ => readConsumeEffect) (effect.Agrees type)) :
    ∃ effect' : ConsumeEffect,
      type.Agrees effect.toConsumeEffectData effect'.toConsumeEffectData ∧
      type.Sizes effect'.toConsumeEffectData := by
  have hyields : Yields (fun effect : ConsumeEffect => ∃ type : ConsumeEffectType,
      effect.type.toString = utf8 type.name ∧ type.Sizes effect.toConsumeEffectData)
      readConsumeEffect :=
    (ConsumeEffectType.enumerates_consumeEffectRegistry.yields_readTyped
      ConsumeEffectType.yields_read).map _ fun _ hp => hp
  obtain ⟨effect', ⟨htext, hagrees⟩, type', htext', hsizes⟩ := h.exists_yields fun _ => hyields
  obtain rfl := Registry.unique_of_name ConsumeEffectType.name_injective htext htext'
  exact ⟨effect', hagrees, hsizes⟩

/-- What the reader of potion effects leaves has at least the probability in it. -/
theorem not_restores_applyEffects
    (htype : effect.type.toString = utf8 ConsumeEffectType.applyEffects.name) :
    ¬ Restores e (writeConsumeEffect effect) (fun _ => readConsumeEffect)
      (effect.Agrees .applyEffects) := by
  let v := ConsumeEffectType.applyEffects.bytes effect.toConsumeEffectData
  rw [restores_consumeEffect_of_read htype (w := []) (v := v) rfl (Consumes.pure _)]
  intro h
  have hnumber := (List.append_eq_nil_iff.mp h.1).2
  have hlength := congrArg List.length hnumber
  rw [length_numericBytes] at hlength
  cases hlength

/-- What the reader of a sound event without a range leaves is the rest of a number. -/
theorem restores_playSound_iff
    (htype : effect.type.toString = utf8 ConsumeEffectType.playSound.name)
    (htext : effect.sound.identifier.toString.length < 2 ^ 31) :
    Restores e (writeConsumeEffect effect) (fun _ => readConsumeEffect) (effect.Agrees .playSound) ↔
      effect.sound.hasFixedRange ∧
        crossed e (k := 4) effect.sound.getFixedRange = effect.sound.getFixedRange := by
  obtain ⟨identifier, hidentifier, hread⟩ :=
    consumes_readSoundEvent (readable_stored e) true htext
  by_cases hrange : effect.sound.hasFixedRange
  · rw [if_pos hrange] at hread
    rw [restores_consumeEffect_of_read htype (v := []) (List.append_nil _).symm
      (hread.bind_pure _)]
    obtain ⟨range, hsome⟩ := Option.isSome_iff_exists.mp hrange
    have hget : effect.sound.getFixedRange = range := by
      rw [SoundEvent.getFixedRange, hsome]
    change _ ∧ identifier.toString = _ ∧ effect.sound.fixedRange.map _ = _ ↔
      _ ∧ crossed e (k := 4) effect.sound.getFixedRange = _
    rw [hget, hsome, and_iff_right rfl, and_iff_right hidentifier, and_iff_right hrange]
    exact Option.some_inj
  · rw [if_neg hrange, List.append_nil] at hread
    rw [restores_consumeEffect_of_read htype (List.append_assoc _ _ _).symm (hread.bind_pure _)]
    refine iff_of_false (fun h => ?_) (fun h => hrange h.1)
    have hlength := congrArg List.length h.1
    rw [length_numericBytes] at hlength
    cases hlength

/-- An effect of a registered type, whatever is in the other fields, comes back exactly when its
type keeps its fields. -/
theorem restores_consumeEffect_iff (e : Bool) (type : ConsumeEffectType) (effect : ConsumeEffect)
    (htype : effect.type.toString = utf8 type.name) :
    Restores e (writeConsumeEffect effect) (fun _ => readConsumeEffect) (effect.Agrees type) ↔
      type.Keeps e effect.toConsumeEffectData := by
  have hv := readable_stored e
  cases type with
  | applyEffects => exact iff_of_false (not_restores_applyEffects htype) id
  | removeEffects =>
    constructor
    · intro h
      obtain ⟨effect', hagrees, hfits⟩ := exists_sizes_of_restores h
      exact IDSet.Agrees.fits hagrees hfits
    · intro h
      obtain ⟨idSet, hagrees, hread⟩ := hv.readIDSet h
      exact (restores_consumeEffect_of_read htype (v := []) (List.append_nil _).symm
        (hread.bind_pure _)).mpr ⟨rfl, hagrees⟩
  | clearEffects =>
    rw [restores_consumeEffect_of_read htype (w := []) rfl (Consumes.pure _)]
    exact iff_of_true ⟨rfl, trivial⟩ trivial
  | teleportRandomly =>
    rw [restores_consumeEffect_of_read htype (v := []) (List.append_nil _).symm
      ((hv.readCrossed (k := 4) (by decide) _).bind_pure _)]
    exact and_iff_right rfl
  | playSound =>
    constructor
    · intro h
      obtain ⟨effect', hagrees, htext⟩ := exists_sizes_of_restores h
      have htext' : effect.sound.identifier.toString.length < 2 ^ 31 := by
        rw [← hagrees.1]
        exact htext
      have hsound := (restores_playSound_iff htype htext').mp h
      exact ⟨hsound.1, htext', hsound.2⟩
    · rintro ⟨hrange, htext, hcrossed⟩
      exact (restores_playSound_iff htype htext).mpr ⟨hrange, hcrossed⟩

/-- A list of two ids to remove. -/
theorem restores_consumeEffect_iff_two : ∃ effect : ConsumeEffect,
    effect.effectsRemove = .ofIDs [4, 17] ∧
    Restores true (writeConsumeEffect effect) (fun _ => readConsumeEffect)
      (effect.Agrees .removeEffects) :=
  ⟨{ ConsumeEffectData.new with
      effectsRemove := .ofIDs [4, 17], type := ⟨utf8 "minecraft", utf8 "remove_effects"⟩ }, rfl,
    (restores_consumeEffect_iff true .removeEffects _ (by decide +kernel)).mpr
      ⟨by decide, by decide⟩⟩

/-- No potion effects, with the probability 1. -/
theorem not_restores_no_effects : ∃ effect : ConsumeEffect,
    effect.type.toString = utf8 "minecraft:apply_effects" ∧ effect.effects = [] ∧
    effect.probability = 0x3F800000 ∧
    ¬ Restores true (writeConsumeEffect effect) (fun _ => readConsumeEffect)
      (effect.Agrees .applyEffects) :=
  ⟨{ ConsumeEffectData.new with
      probability := 0x3F800000, type := ⟨utf8 "minecraft", utf8 "apply_effects"⟩ },
    by decide +kernel, rfl, rfl, not_restores_applyEffects (by decide +kernel)⟩

end Zinc.Game
