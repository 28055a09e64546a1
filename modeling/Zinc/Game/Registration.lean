import Zinc.Game.Lookups

/-! What `registerValue` does to a registry. It leaves the entries of a type that is there, and
does not look for the number of a new one among the others. The type of a number is searched
for through all entries, so the numbers lead back to their types, in whatever order the entries
are arranged, exactly when every new type comes with a new number. -/

namespace Zinc.Game

open Throw Buffer Buffer.ByteBuffer Indexed

/-- A call of `registerValue`; a type is registered with a writer and a reader, which are known
by their `kind`, or with its number alone. -/
inductive Registration (K : Type) where
  | functions (identifier : Identifier) (kind : K) (value : BitVec 32)
  | number (identifier : Identifier) (value : BitVec 32)

/-- The text of an identifier is taken apart where it was put together. -/
def Plain (identifier : Identifier) : Prop := 58 ∉ identifier.namespaceV

namespace Registration

variable {K : Type}

def identifier : Registration K → Identifier
  | functions identifier _ _ => identifier
  | number identifier _ => identifier

def value : Registration K → BitVec 32
  | functions _ _ value => value
  | number _ value => value

variable (order : Order Bytes)

def registerValue (tables : Tables K) : Registration K → Tables K
  | functions identifier kind value =>
    { tables with
      registryData := order.emplace identifier.toString value tables.registryData
      writers := order.emplace identifier.toString (some kind) tables.writers
      readers := order.emplace identifier.toString (some kind) tables.readers }
  | number identifier value =>
    { tables with
      registryData := order.emplace identifier.toString value tables.registryData }

/-- A new type comes with a new number. -/
def Fresh (tables : Tables K) (call : Registration K) : Prop :=
  call.identifier.toString ∈ tables.registryData ∨
    ∀ text, tables.registryData.lookup text ≠ some call.value

end Registration

namespace Tables

variable {K : Type} (order : Order Bytes)

/-- Calls of `registerValue` one after the other. -/
def registerAll (calls : List (Registration K)) (tables : Tables K) : Tables K :=
  calls.foldl (Registration.registerValue order) tables

/-- Every call that adds a type finds its number unused. -/
def AllFresh : List (Registration K) → Tables K → Prop
  | [], _ => True
  | call :: calls, tables =>
    call.Fresh tables ∧ AllFresh calls (Registration.registerValue order tables call)

/-- All types are identifiers that are taken apart where they were put together. -/
def Named (tables : Tables K) : Prop :=
  ∀ text ∈ tables.registryData, ∃ identifier, Plain identifier ∧ identifier.toString = text

/-- The writers and the readers belong to the same types, by pairs, and these have numbers. -/
structure Paired (tables : Tables K) : Prop where
  lookup_eq (text : Bytes) : tables.writers.lookup text = tables.readers.lookup text
  mem_registryData (text : Bytes) : text ∈ tables.writers → text ∈ tables.registryData

/-- The number of every type leads back to it. -/
def Invertible (tables : Tables K) : Prop :=
  ∀ identifier value, Plain identifier →
    tables.registryData.lookup identifier.toString = some value →
      tables.getIdentifierFromValue value = .ok identifier

/-- The number that is written for a type with a writer leads to the reader that was registered
with the writer. -/
def Selects (tables : Tables K) : Prop :=
  ∀ identifier kind, Plain identifier →
    tables.writers.lookup identifier.toString = some (some kind) →
      ∃ value found, tables.registryData.lookup identifier.toString = some value ∧
        tables.getIdentifierFromValue value = .ok found ∧
        tables.readers.lookup found.toString = some (some kind)

variable {order} {tables : Tables K}

/-! ### One call -/

theorem ofString_toString {identifier : Identifier} (h : Plain identifier) :
    Identifier.ofString identifier.toString = .ok identifier := by
  have hpos : identifier.toString.findIdx? (· = 58) = some identifier.namespaceV.length := by
    have hnone : identifier.namespaceV.findIdx? (· = 58) = none :=
      List.findIdx?_eq_none_iff.mpr fun c hc => decide_eq_false (ne_of_mem_of_not_mem hc h)
    rw [Identifier.toString, List.findIdx?_append, hnone, List.findIdx?_cons]
    simp
  rw [Identifier.ofString, hpos]
  simp [Identifier.toString]

theorem registryData_registerValue (tables : Tables K) (call : Registration K) :
    (call.registerValue order tables).registryData =
      order.emplace call.identifier.toString call.value tables.registryData := by
  cases call <;> rfl

theorem Named.registerValue (h : tables.Named) {call : Registration K} (hcall : Plain call.identifier) :
    (call.registerValue order tables).Named := by
  intro text htext
  rw [registryData_registerValue, mem_emplace] at htext
  obtain rfl | htext := htext
  · exact ⟨call.identifier, hcall, rfl⟩
  · exact h text htext

theorem Paired.registerValue (h : tables.Paired) (call : Registration K) :
    (call.registerValue order tables).Paired := by
  cases call with
  | functions identifier kind value =>
    refine ⟨fun text => lookup_emplace_congr order h.lookup_eq text, fun text htext => ?_⟩
    obtain rfl | htext := (mem_emplace order).mp htext
    · exact (mem_emplace order).mpr (.inl rfl)
    · exact (mem_emplace order).mpr (.inr (h.mem_registryData text htext))
  | number identifier value =>
    exact ⟨h.lookup_eq, fun text htext =>
      (mem_emplace order).mpr (.inr (h.mem_registryData text htext))⟩

theorem distinct_registerValue_iff (tables : Tables K) (call : Registration K) :
    Distinct (call.registerValue order tables).registryData ↔
      Distinct tables.registryData ∧ call.Fresh tables := by
  rw [registryData_registerValue]
  exact distinct_emplace_iff order

/-! ### All calls -/

theorem Named.registerAll {calls : List (Registration K)} (h : tables.Named)
    (hcalls : ∀ call ∈ calls, Plain call.identifier) : (tables.registerAll order calls).Named := by
  induction calls generalizing tables with
  | nil => exact h
  | cons call calls ih =>
    exact ih (h.registerValue (hcalls call List.mem_cons_self)) fun call' hcall' =>
      hcalls call' (List.mem_cons_of_mem call hcall')

theorem Paired.registerAll (calls : List (Registration K)) (h : tables.Paired) :
    (tables.registerAll order calls).Paired := by
  induction calls generalizing tables with
  | nil => exact h
  | cons call calls ih => exact ih (h.registerValue call)

/-- The numbers are distinct exactly when they were, and every new type came with a new one. -/
theorem distinct_registerAll_iff (calls : List (Registration K)) (tables : Tables K) :
    Distinct (tables.registerAll order calls).registryData ↔
      Distinct tables.registryData ∧ AllFresh order calls tables := by
  induction calls generalizing tables with
  | nil => exact (and_iff_left trivial).symm
  | cons call calls ih =>
    rw [registerAll, List.foldl_cons, ← registerAll, ih, distinct_registerValue_iff, AllFresh, and_assoc]

/-- Numbers lead back to their types exactly when they are distinct. -/
theorem Named.invertible_iff (h : tables.Named) :
    tables.Invertible ↔ Distinct tables.registryData := by
  constructor
  · intro hinvertible text text' value htext htext'
    have hmem : ∀ {text}, tables.registryData.lookup text = some value → text ∈ tables.registryData :=
      fun hlookup => AList.lookup_isSome.mp (by rw [hlookup]; rfl)
    obtain ⟨identifier, hplain, rfl⟩ := h text (hmem htext)
    obtain ⟨identifier', hplain', rfl⟩ := h text' (hmem htext')
    have hfound := hinvertible identifier value hplain htext
    rw [hinvertible identifier' value hplain' htext'] at hfound
    rw [Except.ok.inj hfound]
  · intro hdistinct identifier value hplain hlookup
    have hfound := find?_of_unique hlookup fun text htext => hdistinct _ _ value htext hlookup
    rw [getIdentifierFromValue, hfound]
    exact ofString_toString hplain

theorem Invertible.selects (h : tables.Invertible) (hpaired : tables.Paired) : tables.Selects := by
  intro identifier kind hplain hwriter
  have hmem : identifier.toString ∈ tables.writers :=
    AList.lookup_isSome.mp (by rw [hwriter]; rfl)
  obtain ⟨value, hvalue⟩ := Option.isSome_iff_exists.mp
    (AList.lookup_isSome.mpr (hpaired.mem_registryData _ hmem))
  exact ⟨value, identifier, hvalue, h identifier value hplain hvalue,
    (hpaired.lookup_eq _).symm.trans hwriter⟩

/-- From a registry with distinct numbers, and for any calls and any arrangement of the entries,
the numbers lead back to their types and select the readers that belong to the writers exactly
when every call that adds a type comes with a new number. -/
theorem invertible_registerAll_iff (order : Order Bytes) (calls : List (Registration K)) (tables : Tables K)
    (hnamed : tables.Named) (hdistinct : Distinct tables.registryData)
    (hcalls : ∀ call ∈ calls, Plain call.identifier) :
    ((tables.registerAll order calls).Invertible ∧
        (tables.Paired → (tables.registerAll order calls).Selects)) ↔
      AllFresh order calls tables := by
  have hall : (tables.registerAll order calls).Named := hnamed.registerAll hcalls
  have hinvertible := hall.invertible_iff
  rw [distinct_registerAll_iff, and_iff_right hdistinct] at hinvertible
  rw [← hinvertible]
  exact ⟨And.left, fun h => ⟨h, fun hpaired => h.selects (hpaired.registerAll calls)⟩⟩

/-- The identifier `a:b`, and `a:c`. -/
def sampleType (object : String) : Identifier := ⟨utf8 "a", utf8 object⟩

/-- A registry with the type `a:b` of number 1. -/
def sample : Tables Bool where
  registryData := AList.singleton (sampleType "b").toString 1
  writers := AList.singleton (sampleType "b").toString (some true)
  readers := AList.singleton (sampleType "b").toString (some true)
  defaultIdentifier := sampleType "d"

theorem plain_sampleType (object : String) : Plain (sampleType object) :=
  show 58 ∉ utf8 "a" by decide

theorem named_sample : sample.Named := by
  intro text htext
  have heq : text = (sampleType "b").toString := List.mem_singleton.mp htext
  exact ⟨sampleType "b", plain_sampleType "b", heq.symm⟩

theorem lookup_sample {text : Bytes} {value : BitVec 32}
    (h : sample.registryData.lookup text = some value) :
    text = (sampleType "b").toString ∧ value = 1 := by
  have htext : text = (sampleType "b").toString :=
    List.mem_singleton.mp (AList.lookup_isSome.mp (by rw [h]; rfl))
  have hone : sample.registryData.lookup (sampleType "b").toString = some 1 := by decide
  rw [htext, hone] at h
  exact ⟨htext, (Option.some.inj h).symm⟩

theorem distinct_sample : Distinct sample.registryData := fun _ _ _ htext htext' =>
  (lookup_sample htext).1.trans (lookup_sample htext').1.symm

/-- A new type with a new number, and the old type again. -/
theorem registered_new : Invertible (sample.registerAll .newest
    [.functions (sampleType "c") false 2, .number (sampleType "b") 2]) := by
  refine ((invertible_registerAll_iff .newest _ sample named_sample distinct_sample ?_).mpr ?_).1
  · simp [Registration.identifier, plain_sampleType]
  · refine ⟨.inr fun text htext => ?_, .inl ?_, trivial⟩
    · exact absurd (lookup_sample htext).2 (by decide)
    · rw [registryData_registerValue, mem_emplace]
      exact .inr (List.mem_singleton.mpr rfl)

/-- A new type with the number of another one, where the newest entry comes first. -/
theorem registered_twice :
    (sample.registerAll .newest [.number (sampleType "c") 1]).registryData.lookup
        (sampleType "b").toString = some 1 ∧
      (sample.registerAll .newest [.number (sampleType "c") 1]).getIdentifierFromValue 1 =
        .ok (sampleType "c") := by
  decide

end Tables

end Zinc.Game
