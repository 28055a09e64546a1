import Zinc.Nbt.Prefixes
import Zinc.Text.Codec

/-! Trim materials: a suffix, overrides and a description. The number of overrides is written
before the overrides that have not got two strings are left out, and the reader reads as many
pairs as were announced. So with an override of another size it takes the bytes of the
description for a pair. -/

namespace Zinc.Game

open Throw Buffer Buffer.ByteBuffer Nbt Nbt.NBTElement Text

structure TrimMaterial where
  suffix : Bytes
  overrides : List (List Bytes)
  description : TextComponent

/-! ### The codec -/

/-- One turn of the loop in `toBytes`. -/
def writeOverride : List Bytes → Action Unit
  | [identifier, value] => do
    fun buffer => do
      let identifier ← Identifier.ofString identifier
      writeIdentifier identifier buffer
    writeString value
  | _ => pure ()

namespace TrimMaterial

/-- The number that is written in front of the overrides. -/
def count (material : TrimMaterial) : BitVec 32 := toInt material.overrides.length

/-- What `toBytes` writes to a buffer of its own. -/
def encode (material : TrimMaterial) : Action Unit := do
  writeString material.suffix
  writeVarInt material.count
  forEach writeOverride material.overrides
  writeTextComponent material.description

def toBytes (material : TrimMaterial) : Except Fault Bytes := bytesOf material.encode

end TrimMaterial

def writeTrimMaterial (material : TrimMaterial) : Action Unit := fun buffer => do
  let bytes ← material.toBytes
  writeByteArray bytes buffer

def readOverride : Action (List Bytes) := do
  let identifier ← readIdentifier
  let value ← readString
  pure [identifier.toString, value]

/-- What `readTrimMaterial` reads in front of the description. -/
def readOverrides : Action (Bytes × List (List Bytes)) := do
  let suffix ← readString
  let overridesAmount ← readVarInt
  let overrides ← readArray readOverride (rounds overridesAmount)
  pure (suffix, overrides)

def readTrimMaterial (n : ℕ) : Action TrimMaterial := do
  let head ← readOverrides
  let description ← readTextComponent n
  pure ⟨head.1, head.2, description⟩

namespace TrimMaterial

/-! ### Which overrides are written -/

variable {view : ByteBuffer → Bytes → Prop} {e : Bool} {material : TrimMaterial}

/-- The overrides with two strings, in order. -/
def pairs (material : TrimMaterial) : List (List Bytes) :=
  material.overrides.filter fun override => override.length = 2

/-- The overrides that are left out. -/
def others (material : TrimMaterial) : List (List Bytes) :=
  material.overrides.filter fun override => ¬ override.length = 2

/-- The first string of a pair is an identifier. -/
def Valid (material : TrimMaterial) : Prop :=
  ∀ identifier value, [identifier, value] ∈ material.overrides →
    ∃ parsed, Identifier.ofString identifier = .ok parsed

/-- The count is the number of overrides behind it. Written in front of any bytes, the suffix and
the pairs are read back, and the next byte is the first one of the description. -/
structure Agrees (e : Bool) (material : TrimMaterial) : Prop where
  count : material.count.toInt = material.pairs.length
  readsBack : ∃ description, bytesOf (writeTextComponent material.description) = .ok description ∧
    ∀ buffer suffix, Stored e buffer [] → ∃ buffer',
      (do writeTrimMaterial material; writeBytes suffix; readOverrides) buffer =
        .ok ((material.suffix, material.pairs), buffer') ∧
      Stored e buffer' (description ++ suffix)

/-- An `int` can announce the strings that are written. -/
def Sized (material : TrimMaterial) : Prop :=
  material.suffix.length < 2 ^ 31 ∧
    ∀ override ∈ material.pairs, ∀ value ∈ override, value.length < 2 ^ 31

/-! ### Words -/

/-- The word of the strings of an override. -/
def overrideBytes (override : List Bytes) : Bytes := override.flatMap stringBytes

def overridesBytes (material : TrimMaterial) : Bytes :=
  stringBytes material.suffix ++ (varIntBytes material.count ++
    material.pairs.flatMap overrideBytes)

/-- The word of any description. -/
def descriptionBytes (description : TextComponent) : Bytes :=
  (layout true networkSettings description.encode).bytes true

theorem produces_description (hv : Writable true view) (description : TextComponent) :
    Produces view (writeTextComponent description) (descriptionBytes description) :=
  encodeWith_layout hv description.encode networkSettings

theorem produces_writeOverride (hv : Writable e view) {override : List Bytes}
    (h : ∀ identifier value, override = [identifier, value] →
      ∃ parsed, Identifier.ofString identifier = .ok parsed) :
    Produces view (writeOverride override)
      (if override.length = 2 then overrideBytes override else []) := by
  match override with
  | [identifier, value] =>
    obtain ⟨parsed, hparsed⟩ := h identifier value rfl
    have hid := hv.writeIdentifier parsed
    rw [Identifier.toString_of_ofString hparsed] at hid
    have hpair := hid.bind (hv.writeString value)
    rw [writeOverride, hparsed, if_pos (show [identifier, value].length = 2 from rfl),
      overrideBytes, List.flatMap_cons, List.flatMap_cons, List.flatMap_nil, List.append_nil]
    exact hpair
  | [] | [_] => exact Produces.pure
  | _ :: _ :: _ :: _ =>
    rw [if_neg (by simp)]
    exact Produces.pure

/-- What is left out leaves no byte. -/
theorem flatMap_overrides (overrides : List (List Bytes)) :
    (overrides.flatMap fun override =>
      if override.length = 2 then overrideBytes override else []) =
      (overrides.filter fun override => override.length = 2).flatMap overrideBytes := by
  induction overrides with
  | nil => rfl
  | cons override overrides ih =>
    rw [List.flatMap_cons, List.filter_cons, ih]
    by_cases h : override.length = 2
    · rw [if_pos h, if_pos (decide_eq_true h), List.flatMap_cons]
    · rw [if_neg h, if_neg (by simpa using h), List.nil_append]

theorem produces_encode (hv : Writable true view) (h : material.Valid) :
    Produces view material.encode
      (material.overridesBytes ++ descriptionBytes material.description) := by
  have hoverrides := Produces.forEach _ material.overrides fun override hmem =>
    produces_writeOverride hv fun identifier value heq => h identifier value (heq ▸ hmem)
  rw [flatMap_overrides] at hoverrides
  rw [overridesBytes, List.append_assoc, List.append_assoc]
  exact (hv.writeString _).bind <| (hv.writeVarInt _).bind <|
    hoverrides.bind (produces_description hv _)

theorem produces_writeTrimMaterial (hv : Writable e view) (h : material.Valid) :
    Produces view (writeTrimMaterial material)
      (material.overridesBytes ++ descriptionBytes material.description) :=
  hv.writeBytesOf (produces_encode (writable_fresh true) h)

theorem consumes_readOverride (hv : Readable e view) {override : List Bytes}
    (hlength : override.length = 2) (hsized : ∀ value ∈ override, value.length < 2 ^ 31)
    (h : ∀ identifier value, override = [identifier, value] →
      ∃ parsed, Identifier.ofString identifier = .ok parsed) :
    Consumes view readOverride (overrideBytes override) override := by
  match override with
  | [identifier, value] =>
    obtain ⟨parsed, hparsed⟩ := h identifier value rfl
    simp only [List.forall_mem_cons] at hsized
    have htext := Identifier.toString_of_ofString hparsed
    have hshort : parsed.toString.length < 2 ^ 31 := htext ▸ hsized.1
    obtain ⟨parsed', htext', hread⟩ := hv.readIdentifier hshort
    rw [htext] at htext' hread
    have hvalue := (hv.readString hsized.2.1).bind_pure fun value => [parsed'.toString, value]
    rw [overrideBytes, List.flatMap_cons, List.flatMap_cons, List.flatMap_nil, List.append_nil]
    rw [htext'] at hvalue
    refine hread.bind ?_
    rw [htext']
    exact hvalue

/-- With as many pairs as were announced the reader stops in front of the description. -/
theorem consumes_readOverrides (hv : Readable e view) (h : material.Valid)
    (hsized : material.Sized) (hcount : material.count.toInt = material.pairs.length) :
    Consumes view readOverrides material.overridesBytes (material.suffix, material.pairs) := by
  have hpairs := Consumes.replicate overrideBytes material.pairs fun override hmem => by
    obtain ⟨hoverride, hlength⟩ := List.mem_filter.mp hmem
    exact consumes_readOverride hv (of_decide_eq_true hlength) (hsized.2 override hmem)
      fun identifier value heq => h identifier value (heq ▸ hoverride)
  have hrounds : rounds material.count = material.pairs.length := by
    rw [rounds, hcount, Int.toNat_natCast]
  refine (hv.readString hsized.1).bind <| (hv.readVarInt _).bind ?_
  rw [hrounds]
  exact hpairs.bind_pure _

/-! ### The count and the pairs -/

/-- Strings that were read were announced by an `int`. -/
theorem yields_readOverrides : Yields (fun head : Bytes × List (List Bytes) =>
    head.1.length < 2 ^ 31 ∧ ∀ override ∈ head.2, ∀ value ∈ override, value.length < 2 ^ 31)
    readOverrides := by
  have hoverride : Yields (fun override : List Bytes =>
      ∀ value ∈ override, value.length < 2 ^ 31) readOverride :=
    yields_readIdentifier.bind fun identifier hid => yields_readString.map _ fun value hvalue => by
      simp only [List.forall_mem_cons]
      exact ⟨hid, hvalue, fun _ hmem => absurd hmem List.not_mem_nil⟩
  exact yields_readString.bind fun suffix hsuffix => Yields.of_bind fun amount =>
    (hoverride.replicate _).map _ fun overrides h => ⟨hsuffix, h.2⟩

/-- The count is right if it is not that of the overrides that are left out too. -/
theorem count_eq_iff : material.count.toInt = material.pairs.length ↔
    material.pairs.length < 2 ^ 31 ∧ 2 ^ 32 ∣ material.others.length := by
  have hsum : material.overrides.length = material.pairs.length + material.others.length := by
    simpa [pairs, others] using
      List.length_eq_length_filter_add (l := material.overrides) fun override => override.length = 2
  have hnat : material.count.toNat = material.overrides.length % 2 ^ 32 := BitVec.toNat_ofNat _ _
  rw [BitVec.toInt_eq_toNat_cond, hnat, hsum]
  split <;> omega

/-- A material comes back exactly if no override is left out, up to numbers that no `int` tells
from zero. -/
theorem agrees_iff (material : TrimMaterial) (h : material.Valid) (e : Bool) :
    material.Agrees e ↔ material.Sized ∧ material.pairs.length < 2 ^ 31 ∧
      2 ^ 32 ∣ material.others.length := by
  rw [← count_eq_iff]
  have hwrite := produces_writeTrimMaterial (writable_stored e) h
  constructor
  · rintro ⟨hcount, description, -, hrun⟩
    refine ⟨?_, hcount⟩
    obtain ⟨buffer', hrun, -⟩ := hrun _ [] (stored_new e)
    rw [bind_apply] at hrun
    obtain ⟨⟨_, buffer₁⟩, -, hrun⟩ := bind_eq_ok.mp hrun
    rw [bind_apply] at hrun
    obtain ⟨⟨_, buffer₂⟩, -, hrun⟩ := bind_eq_ok.mp hrun
    exact yields_readOverrides buffer₂ _ hrun
  · rintro ⟨hsized, hcount⟩
    let read : ℕ → Action (Bytes × List (List Bytes)) := fun _ => readOverrides
    have hread : Consumes (Stored e) (read 0) _ _ :=
      consumes_readOverrides (readable_stored e) h hsized hcount
    refine ⟨hcount, _, bytesOf_eq (produces_description (writable_fresh true) _), ?_⟩
    exact fun buffer suffix hbuffer => run_of_consumes hwrite hread hbuffer suffix

/-- A material with these overrides for iron. -/
def iron (overrides : List (List Bytes)) : TrimMaterial := ⟨utf8 "iron", overrides, .new⟩

/-- A pair of two identifiers, and a string alone. -/
def mixed : TrimMaterial := iron [[utf8 "a:b", utf8 "c:d"], [utf8 "e"]]

theorem valid_mixed : mixed.Valid := by
  intro identifier value hmem
  simp only [mixed, iron, List.mem_cons, List.not_mem_nil, or_false] at hmem
  rcases hmem with heq | heq
  · cases heq
    exact ⟨_, rfl⟩
  · cases heq

theorem agrees_iff_mixed : mixed.Agrees true ↔
    mixed.Sized ∧ mixed.pairs.length < 2 ^ 31 ∧ 2 ^ 32 ∣ mixed.others.length :=
  agrees_iff mixed valid_mixed true

/-- Two overrides are announced and one is written. -/
theorem not_agrees_mixed : mixed.Valid ∧ ¬ mixed.Agrees true := by
  refine ⟨valid_mixed, fun h => ?_⟩
  obtain ⟨-, hothers⟩ := count_eq_iff.mp h.count
  exact absurd (Nat.le_of_dvd (by decide) hothers) (by decide)

/-- With a description that NBT can hold the whole material comes back, without what the reader of
a description leaves out. -/
theorem restores_trimMaterial (h : material.Valid) (hsized : material.Sized)
    (hcount : material.count.toInt = material.pairs.length) (hsmall : material.description.Small) :
    Restores true (writeTrimMaterial material) readTrimMaterial fun material' =>
      material' = ⟨material.suffix, material.pairs, material.description.stripped⟩ := by
  have hv := readable_stored true
  have hwrite := produces_encode (writable_fresh true) h
  have hdescription := unique_of_produces (produces_description (writable_stored true) _)
    (produces_writeTextComponent (writable_stored true) hsmall)
  rw [hdescription] at hwrite
  obtain ⟨bound, hbound⟩ := consumes_readTextComponent hsmall
  exact restores_of_consumes ((writable_stored true).writeBytesOf hwrite)
    (fun n hn => (consumes_readOverrides hv h hsized hcount).bind ((hbound n hn).bind_pure _)) rfl

end TrimMaterial

end Zinc.Game
