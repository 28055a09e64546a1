import Zinc.Game.Registry
import Zinc.Text.Codec

/-! Properties, firework explosions and matchers of data components. A property is an exact value
or a range, and a flag says which; the constructor of a range sets the flag of an exact value, so
that its ends are not written. The shape of an explosion is looked up by its name in one
direction and by its number in the other, and its colours are written to a big-endian buffer. -/

namespace Zinc.Game

open Throw Buffer Buffer.ByteBuffer Nbt Nbt.NBTElement Text

variable {e : Bool} {view : ByteBuffer → Bytes → Prop}

/-! ### Properties -/

structure Property where
  name : Bytes
  isExact : Bool
  exactValue : Bytes
  minValue : Bytes
  maxValue : Bytes

namespace Property

/-- `Property(name, exact)`. -/
def ofExact (name exact : Bytes) : Property := ⟨name, true, exact, [], []⟩

/-- `Property(name, minValue, maxValue)`, which is marked as exact too. -/
def ofRange (name minValue maxValue : Bytes) : Property := ⟨name, true, [], minValue, maxValue⟩

def toBytes (property : Property) : Except Fault Bytes := bytesOf do
  writeString property.name
  writeByte (boolByte property.isExact)
  if property.isExact then writeString property.exactValue
  else do
    writeString property.minValue
    writeString property.maxValue

end Property

def writeProperty (property : Property) : Action Unit := fun buffer => do
  let bytes ← property.toBytes
  writeByteArray bytes buffer

def readProperty : Action Property := do
  let name ← readString
  let isExact ← readByte
  if isExact ≠ 0 then do
    let exactValue ← readString
    pure ⟨name, true, exactValue, [], []⟩
  else do
    let minValue ← readString
    let maxValue ← readString
    pure ⟨name, false, [], minValue, maxValue⟩

namespace Property

/-- The word of a property that is marked as exact. -/
theorem produces_of_exact (hv : Writable e view) {property : Property}
    (h : property.isExact = true) : Produces view (writeProperty property)
      (stringBytes property.name ++ ([1] ++ stringBytes property.exactValue)) := by
  have hfresh := writable_fresh true
  apply hv.writeBytesOf
  rw [h]
  exact (hfresh.writeString _).bind ((hfresh.writeByte 1).bind (hfresh.writeString _))

theorem consumes_of_exact (hv : Readable e view) {name exactValue : Bytes}
    (hname : name.length < 2 ^ 31) (hexact : exactValue.length < 2 ^ 31) :
    Consumes view readProperty (stringBytes name ++ ([1] ++ stringBytes exactValue))
      (ofExact name exactValue) :=
  (hv.readString hname).bind <| (hv.readByte 1).bind <| (hv.readString hexact).bind_pure _

/-- Strings that were read were announced by an `int`. -/
theorem yields_readProperty : Yields (fun property : Property =>
    property.name.length < 2 ^ 31 ∧ property.exactValue.length < 2 ^ 31) readProperty := by
  refine yields_readString.bind fun name hname => Yields.of_bind fun isExact => ?_
  split
  · exact yields_readString.map _ fun exactValue hexact => ⟨hname, hexact⟩
  · exact Yields.of_bind fun minValue => Yields.of_bind fun maxValue =>
      Yields.pure ⟨hname, show 0 < 2 ^ 31 by decide⟩

/-- An exact value comes back. -/
theorem restores_ofExact_iff (e : Bool) (name exact : Bytes) :
    Restores e (writeProperty (ofExact name exact)) (fun _ => readProperty)
      (fun property => property.name = name ∧ property.exactValue = exact) ↔
      name.length < 2 ^ 31 ∧ exact.length < 2 ^ 31 := by
  constructor
  · intro h
    obtain ⟨property, ⟨rfl, rfl⟩, hyields⟩ := h.exists_yields fun _ => yields_readProperty
    exact hyields
  · rintro ⟨hname, hexact⟩
    exact restores_of_consumes (m := 0) (produces_of_exact (writable_stored e) rfl)
      (fun _ _ => consumes_of_exact (readable_stored e) hname hexact) ⟨rfl, rfl⟩

/-- Of a range the ends come back if there are none. -/
theorem restores_ofRange_iff (e : Bool) (name minValue maxValue : Bytes) :
    Restores e (writeProperty (ofRange name minValue maxValue)) (fun _ => readProperty)
      (fun property => property.name = name ∧ property.minValue = minValue ∧
        property.maxValue = maxValue) ↔
      name.length < 2 ^ 31 ∧ minValue = [] ∧ maxValue = [] := by
  have hwrite : Produces (Stored e) (writeProperty (ofRange name minValue maxValue))
      (stringBytes name ++ ([1] ++ stringBytes [])) := produces_of_exact (writable_stored e) rfl
  have hread (hname : name.length < 2 ^ 31) : Consumes (Stored e) readProperty
      (stringBytes name ++ ([1] ++ stringBytes [])) (ofExact name []) :=
    consumes_of_exact (readable_stored e) hname (by decide)
  have hiff (hname : name.length < 2 ^ 31) := restores_iff (v := []) (m := 0)
    (P := fun property : Property => property.name = name ∧ property.minValue = minValue ∧
      property.maxValue = maxValue) (by rwa [List.append_nil]) fun _ _ => hread hname
  constructor
  · intro h
    obtain ⟨property, ⟨rfl, -⟩, hname, -⟩ := h.exists_yields fun _ => yields_readProperty
    obtain ⟨-, -, hmin, hmax⟩ := (hiff hname).mp h
    exact ⟨hname, hmin.symm, hmax.symm⟩
  · rintro ⟨hname, rfl, rfl⟩
    exact (hiff hname).mpr ⟨rfl, rfl, rfl, rfl⟩

end Property

/-! ### Firework explosions -/

structure FireworkExplosion where
  shape : Identifier
  colors : List (BitVec 32)
  fadeColors : List (BitVec 32)
  hasTrail : Bool
  hasTwinkle : Bool

/-- `g_fireworkExplosionShapesRegistry`; shapes have no data. -/
def fireworkExplosionShapesRegistry : Registry Unit where
  registryData := [("minecraft:small", 0), ("minecraft:large", 1), ("minecraft:star", 2),
    ("minecraft:creeper", 3), ("minecraft:burst", 4)]
  writers := []
  readers := []
  defaultIdentifier := ⟨utf8 "minecraft", utf8 "small"⟩

def FireworkExplosion.toBytes (explosion : FireworkExplosion) : Except Fault Bytes := bytesOf do
  match Registry.find fireworkExplosionShapesRegistry.registryData explosion.shape.toString with
  | some number => writeVarInt number
  | none => writeVarInt 0
  writePrefixedArray explosion.colors (writeNumeric (k := 4))
  writePrefixedArray explosion.fadeColors (writeNumeric (k := 4))
  writeByte (boolByte explosion.hasTrail)
  writeByte (boolByte explosion.hasTwinkle)

def writeFireworkExplosion (explosion : FireworkExplosion) : Action Unit := fun buffer => do
  let bytes ← explosion.toBytes
  writeByteArray bytes buffer

def readFireworkExplosion : Action FireworkExplosion := do
  let number ← readVarInt
  let shape ← fun buffer => do
    let shape ← fireworkExplosionShapesRegistry.getIdentifierFromValue number
    return (shape, buffer)
  let colors ← readPrefixedArray (readNumeric 4)
  let fadeColors ← readPrefixedArray (readNumeric 4)
  let hasTrail ← readByte
  let hasTwinkle ← readByte
  pure ⟨shape, colors, fadeColors, hasTrail ≠ 0, hasTwinkle ≠ 0⟩

namespace FireworkExplosion

variable {explosion : FireworkExplosion}

/-- The shape has an entry in the registry. -/
def Registered (explosion : FireworkExplosion) : Prop :=
  ∃ entry ∈ fireworkExplosionShapesRegistry.registryData,
    explosion.shape.toString = utf8 entry.1

/-- The fields; a shape is compared by its text. -/
def Agrees (explosion explosion' : FireworkExplosion) : Prop :=
  explosion'.shape.toString = explosion.shape.toString ∧ explosion'.colors = explosion.colors ∧
    explosion'.fadeColors = explosion.fadeColors ∧ explosion'.hasTrail = explosion.hasTrail ∧
    explosion'.hasTwinkle = explosion.hasTwinkle

/-- An `int` can announce the colours. -/
def Sized (explosion : FireworkExplosion) : Prop :=
  Counted explosion.colors.length ∧ Counted explosion.fadeColors.length

/-- Every colour reads the same in a buffer of the byte order. -/
def Uncrossed (e : Bool) (explosion : FireworkExplosion) : Prop :=
  (∀ color ∈ explosion.colors, crossed e (k := 4) color = color) ∧
    ∀ color ∈ explosion.fadeColors, crossed e (k := 4) color = color

theorem uncrossed_true (explosion : FireworkExplosion) : explosion.Uncrossed true :=
  ⟨fun color _ => crossed_true (k := 4) color, fun color _ => crossed_true (k := 4) color⟩

/-- Names and numbers lead to one another. -/
theorem find_registered : ∀ entry ∈ fireworkExplosionShapesRegistry.registryData,
    Registry.find fireworkExplosionShapesRegistry.registryData (utf8 entry.1) = some entry.2 ∧
    fireworkExplosionShapesRegistry.registryData.find? (fun other => other.2 = entry.2) =
      some entry ∧ 58 ∈ utf8 entry.1 := by
  decide

def colorsBytes (colors : List (BitVec 32)) : Bytes :=
  prefixedBytes (fun color => numericBytes true (k := 4) color) colors

/-- The words behind the number of the shape. -/
def dataBytes (explosion : FireworkExplosion) : Bytes :=
  colorsBytes explosion.colors ++ (colorsBytes explosion.fadeColors ++
    ([boolByte explosion.hasTrail] ++ [boolByte explosion.hasTwinkle]))

/-- A registered shape is found by the number that is written for it. -/
theorem exists_word (h : explosion.Registered) : ∃ number shape,
    shape.toString = explosion.shape.toString ∧
    fireworkExplosionShapesRegistry.getIdentifierFromValue number = .ok shape ∧
    Produces (Stored e) (writeFireworkExplosion explosion)
      (varIntBytes number ++ explosion.dataBytes) := by
  obtain ⟨⟨name, number⟩, hentry, hshape⟩ := h
  obtain ⟨hnumber, hname, hcolon⟩ := find_registered _ hentry
  obtain ⟨shape, hparsed, htext⟩ := Identifier.toString_ofString hcolon
  refine ⟨number, shape, htext.trans hshape.symm, ?_, ?_⟩
  · rw [Registry.getIdentifierFromValue, hname]
    exact hparsed
  · have hv := writable_fresh true
    have hcolors (colors : List (BitVec 32)) : Produces (Fresh true)
        (writePrefixedArray colors (writeNumeric (k := 4))) (colorsBytes colors) :=
      hv.writePrefixedArray fun color _ => hv.writeNumeric (k := 4) color
    apply (writable_stored e).writeBytesOf
    rw [hshape, hnumber]
    exact (hv.writeVarInt number).bind <| (hcolors _).bind <| (hcolors _).bind <|
      (hv.writeByte _).bind (hv.writeByte _)

/-- What a buffer reads of an explosion. -/
def readBack (e : Bool) (shape : Identifier) (explosion : FireworkExplosion) : FireworkExplosion :=
  { explosion with
    shape
    colors := explosion.colors.map (crossed e (k := 4))
    fadeColors := explosion.fadeColors.map (crossed e (k := 4)) }

theorem agrees_readBack_iff {shape : Identifier}
    (h : shape.toString = explosion.shape.toString) :
    explosion.Agrees (explosion.readBack e shape) ↔ explosion.Uncrossed e := by
  have hmap (colors : List (BitVec 32)) : colors.map (crossed e (k := 4)) = colors ↔
      ∀ color ∈ colors, crossed e (k := 4) color = color := by
    conv_lhs => rhs; rw [← List.map_id colors]
    rw [List.map_inj_left]
    rfl
  unfold Agrees readBack Uncrossed
  simp only [hmap, h, true_and, and_true]

theorem consumes (hsized : explosion.Sized) {number : BitVec 32} {shape : Identifier}
    (hshape : fireworkExplosionShapesRegistry.getIdentifierFromValue number = .ok shape) :
    Consumes (Stored e) readFireworkExplosion (varIntBytes number ++ explosion.dataBytes)
      (explosion.readBack e shape) := by
  have hv := readable_stored e
  have hcolors {colors : List (BitVec 32)} (h : Counted colors.length) :
      Consumes (Stored e) (readPrefixedArray (readNumeric 4)) (colorsBytes colors)
        (colors.map (crossed e (k := 4))) :=
    hv.readPrefixedArray_map h fun color _ => hv.readCrossed (by decide) color
  have hname : Consumes (Stored e) (fun buffer =>
      fireworkExplosionShapesRegistry.getIdentifierFromValue number >>= fun shape =>
        return (shape, buffer)) [] shape := by
    rw [hshape]
    exact Consumes.pure shape
  refine (hv.readVarInt number).bind (w := [] ++ explosion.dataBytes) ?_
  refine hname.bind <| (hcolors hsized.1).bind <| (hcolors hsized.2).bind <|
    (hv.readByte _).bind ?_
  have hlast := (hv.readByte (boolByte explosion.hasTwinkle)).bind_pure fun hasTwinkle =>
    FireworkExplosion.mk shape (explosion.colors.map (crossed e (k := 4)))
      (explosion.fadeColors.map (crossed e (k := 4))) (boolByte explosion.hasTrail ≠ 0)
      (hasTwinkle ≠ 0)
  rw [boolByte_ne_zero, boolByte_ne_zero] at hlast
  rw [boolByte_ne_zero]
  exact hlast

/-- What was read was announced by an `int`. -/
theorem yields : Yields Sized readFireworkExplosion := by
  have hcolors : Yields (fun colors : List (BitVec 32) =>
      Counted colors.length ∧ ∀ color ∈ colors, True) (readPrefixedArray (readNumeric 4)) :=
    yields_readPrefixedArray fun _ _ _ => trivial
  refine Yields.of_bind fun _ => Yields.of_bind fun _ => hcolors.bind fun colors hfirst =>
    hcolors.bind fun fadeColors hsecond => Yields.of_bind fun _ => Yields.of_bind fun _ =>
      Yields.pure ⟨hfirst.1, hsecond.1⟩

/-- An explosion comes back if an `int` can announce its colours and they read the same. -/
theorem restores_fireworkExplosion_iff (e : Bool) (explosion : FireworkExplosion)
    (h : explosion.Registered) :
    Restores e (writeFireworkExplosion explosion) (fun _ => readFireworkExplosion)
      explosion.Agrees ↔ explosion.Sized ∧ explosion.Uncrossed e := by
  obtain ⟨number, shape, htext, hshape, hwrite⟩ := exists_word (e := e) h
  have hiff (hsized : explosion.Sized) := restores_iff (v := []) (m := 0) (P := explosion.Agrees)
    (by rwa [List.append_nil]) fun _ _ => consumes (e := e) hsized hshape
  constructor
  · intro hrestores
    obtain ⟨explosion', hagrees, hsized⟩ := hrestores.exists_yields fun _ => yields
    have hsized' : explosion.Sized := by
      unfold Sized at hsized ⊢
      rwa [hagrees.2.1, hagrees.2.2.1] at hsized
    exact ⟨hsized', (agrees_readBack_iff htext).mp ((hiff hsized').mp hrestores).2⟩
  · rintro ⟨hsized, huncrossed⟩
    exact (hiff hsized).mpr ⟨rfl, (agrees_readBack_iff htext).mpr huncrossed⟩

end FireworkExplosion

/-! ### Matchers of data components -/

structure PartialDataComponentMatcher where
  type : BitVec 32
  predicate : NBTElement

def PartialDataComponentMatcher.toBytes (component : PartialDataComponentMatcher) :
    Except Fault Bytes := bytesOf do
  writeVarInt component.type
  writeNBTElement component.predicate

def writePartialDataComponentMatcher (component : PartialDataComponentMatcher) : Action Unit :=
  fun buffer => do
    let bytes ← component.toBytes
    writeByteArray bytes buffer

def readPartialDataComponentMatcher (n : ℕ) : Action PartialDataComponentMatcher := do
  let type ← readVarInt
  let predicate ← readNBTElement n
  pure ⟨type, predicate⟩

namespace PartialDataComponentMatcher

/-- The type, and the tree that the predicate stands for. -/
def Agrees (component component' : PartialDataComponentMatcher) : Prop :=
  component'.type = component.type ∧ tree component'.predicate = tree component.predicate

theorem restores_partialDataComponentMatcher (component : PartialDataComponentMatcher)
    (h : (tree component.predicate).WellFormed) (htag : component.predicate.tag = []) :
    Restores true (writePartialDataComponentMatcher component) readPartialDataComponentMatcher
      component.Agrees := by
  have hwrite := ((writable_fresh true).writeVarInt component.type).bind
    (produces_writeNBTElement (writable_fresh true) h htag)
  exact restores_of_consumes ((writable_stored true).writeBytesOf hwrite)
    (fun n hn => ((readable_stored true).readVarInt _).bind
      ((consumes_readNBTElement h htag hn).bind_pure _)) ⟨rfl, tree_decoded h _⟩

end PartialDataComponentMatcher

/-! ### All codecs -/

/-- Which of the values come back with what they were built of. -/
theorem predicates_comeBack_iff (e : Bool) (name exact minValue maxValue : Bytes)
    (explosion : FireworkExplosion) (hshape : explosion.Registered)
    (component : PartialDataComponentMatcher) (hpredicate : (tree component.predicate).WellFormed)
    (htag : component.predicate.tag = []) :
    (Restores e (writeProperty (.ofExact name exact)) (fun _ => readProperty)
      (fun property => property.name = name ∧ property.exactValue = exact) ↔
        name.length < 2 ^ 31 ∧ exact.length < 2 ^ 31) ∧
    (Restores e (writeProperty (.ofRange name minValue maxValue)) (fun _ => readProperty)
      (fun property => property.name = name ∧ property.minValue = minValue ∧
        property.maxValue = maxValue) ↔
        name.length < 2 ^ 31 ∧ minValue = [] ∧ maxValue = []) ∧
    (Restores e (writeFireworkExplosion explosion) (fun _ => readFireworkExplosion)
      explosion.Agrees ↔ explosion.Sized ∧ explosion.Uncrossed e) ∧
    Restores true (writePartialDataComponentMatcher component) readPartialDataComponentMatcher
      component.Agrees :=
  ⟨Property.restores_ofExact_iff e name exact,
    Property.restores_ofRange_iff e name minValue maxValue,
    FireworkExplosion.restores_fireworkExplosion_iff e explosion hshape,
    component.restores_partialDataComponentMatcher hpredicate htag⟩

/-- A star with a colour that fades to two others. -/
def star : FireworkExplosion :=
  ⟨⟨utf8 "minecraft", utf8 "star"⟩, [0xFF0000], [1, 2], true, false⟩

theorem predicates_comeBack_iff_star :
    (Restores false (writeProperty (.ofExact [97] [49])) (fun _ => readProperty)
      (fun property => property.name = [97] ∧ property.exactValue = [49]) ↔
        [97].length < 2 ^ 31 ∧ [49].length < 2 ^ 31) ∧
    (Restores false (writeProperty (.ofRange [97] [49] [50])) (fun _ => readProperty)
      (fun property => property.name = [97] ∧ property.minValue = [49] ∧
        property.maxValue = [50]) ↔
        [97].length < 2 ^ 31 ∧ ([49] : Bytes) = [] ∧ ([50] : Bytes) = []) ∧
    (Restores false (writeFireworkExplosion star) (fun _ => readFireworkExplosion)
      star.Agrees ↔ star.Sized ∧ star.Uncrossed false) ∧
    Restores true (writePartialDataComponentMatcher ⟨5, compound [] [byte [97] 1]⟩)
      readPartialDataComponentMatcher
      (PartialDataComponentMatcher.Agrees ⟨5, compound [] [byte [97] 1]⟩) :=
  predicates_comeBack_iff false [97] [49] [49] [50] star
    ⟨("minecraft:star", 2), by decide, by decide⟩ ⟨5, compound [] [byte [97] 1]⟩
    (Tree.wellFormed_of_fits _ rfl) rfl

/-- The ends of a range from 1 to 2 are not written. -/
theorem not_restores_range : ¬ ∀ name minValue maxValue : Bytes,
    Restores true (writeProperty (.ofRange name minValue maxValue)) (fun _ => readProperty)
      fun property => property.name = name ∧ property.minValue = minValue ∧
        property.maxValue = maxValue := by
  intro h
  obtain ⟨-, hmin, -⟩ := (Property.restores_ofRange_iff true [97] [49] [50]).mp (h [97] [49] [50])
  cases hmin

end Zinc.Game
