import Zinc.Buffer.IDSet
import Zinc.Game.ItemStack
import Zinc.Game.Predicates

/-! Predicates of blocks. Two of them are compared by their bytes, and there the matchers of exact
components stand one behind the other with nothing between them. Matchers that are encodings of
components tell where they end, and such predicates are equal when all that is written agrees.
Of other matchers only their number and the bytes of all of them are compared. -/

namespace Zinc.Game

open Throw Buffer Buffer.ByteBuffer Nbt Nbt.NBTElement Text PrefixCode

abbrev ExactDataComponentMatcher := Bytes

structure BlockPredicate where
  blocks : Option IDSet
  properties : Option (List Property)
  nbt : Option NBTElement
  dataComponents : List ExactDataComponentMatcher
  partialDataComponents : List PartialDataComponentMatcher

namespace BlockPredicate

/-- `BlockPredicate()`. -/
def new : BlockPredicate := ⟨none, none, none, [], []⟩

def toBytes (predicate : BlockPredicate) : Except Fault Bytes := bytesOf do
  writePrefixedOptional predicate.blocks writeIDSet
  writeByte (boolByte predicate.properties.isSome)
  match predicate.properties with
  | some properties => do
    writeVarInt (toInt properties.length)
    forEach writeProperty properties
  | none => pure ()
  writePrefixedOptional predicate.nbt writeNBTElement
  writeVarInt (toInt predicate.dataComponents.length)
  forEach writeByteArray predicate.dataComponents
  writeVarInt (toInt predicate.partialDataComponents.length)
  forEach writePartialDataComponentMatcher predicate.partialDataComponents

/-- `operator==`. -/
def equal (predicate other : BlockPredicate) : Except Fault Bool := do
  let bytes ← predicate.toBytes
  let bytes' ← other.toBytes
  return bytes = bytes'

end BlockPredicate

def writeBlockPredicate (predicate : BlockPredicate) : Action Unit := fun buffer => do
  let bytes ← predicate.toBytes
  writeByteArray bytes buffer

/-! ### What the words of the parts tell -/

variable {α β : Type} {C : α → Prop} {enc : α → Bytes} {f : α → β}

theorem tells_flag : Tells (fun _ => True) (fun value => [boolByte value]) id :=
  tells_of_length (n := 1) (fun _ _ => rfl) fun a b _ _ => by cases a <;> cases b <;> decide

theorem tells_optional (h : Tells C enc f) :
    Tells (fun value : Option α => ∀ a ∈ value, C a) (optionalBytes enc) (Option.map f) := by
  rintro (_ | a) (_ | b) v w ha hb heq
  · exact ⟨rfl, (List.cons.inj heq).2⟩
  · exact absurd (List.cons.inj heq).1 (by decide)
  · exact absurd (List.cons.inj heq).1 (by decide)
  · rcases h (ha a rfl) (hb b rfl) (List.cons.inj heq).2 with ⟨hf, hrest⟩
    exact ⟨congrArg some hf, hrest⟩

/-- A list behind its number. -/
theorem tells_prefixed (h : Tells C enc f) :
    Tells (fun values : List α => values.length < 2 ^ 32 ∧ ∀ a ∈ values, C a) (prefixedBytes enc)
      (List.map f) := by
  intro a b v w ha hb heq
  simp only [prefixedBytes, List.append_assoc] at heq
  rcases tells_varInt trivial trivial heq with ⟨hlength, heq⟩
  exact Slot.tells_items h _ ⟨ha.1, ha.2, rfl⟩ ⟨hb.1, hb.2, hlength.symm⟩ heq

/-- The words of a list follow from what each of them tells. -/
theorem factors_flatMap (h : Function.FactorsThrough enc f) :
    Function.FactorsThrough (List.flatMap enc) (List.map f) := by
  intro as
  induction as with
  | nil => rintro (_ | ⟨b, bs⟩) heq <;> simp_all
  | cons a as ih =>
    rintro (_ | ⟨b, bs⟩) heq
    · simp at heq
    · obtain ⟨hf, hfs⟩ := List.cons.inj heq
      rw [List.flatMap_cons, List.flatMap_cons, h hf, ih hfs]

theorem factors_prefixed (h : Function.FactorsThrough enc f) :
    Function.FactorsThrough (prefixedBytes enc) (List.map f) := by
  intro as bs heq
  have hlength : as.length = bs.length := by simpa using congrArg List.length heq
  rw [prefixedBytes, prefixedBytes, hlength, factors_flatMap h heq]

theorem factors_optional (h : Function.FactorsThrough enc f) :
    Function.FactorsThrough (optionalBytes enc) (Option.map f) := by
  rintro (_ | a) (_ | b) heq
  · rfl
  · simp at heq
  · simp at heq
  · rw [optionalBytes, optionalBytes, h (Option.some.inj heq)]

theorem factors_tree : Function.FactorsThrough nbtBytes tree := by
  intro a b htree
  rw [nbtBytes, nbtBytes, htree]

/-- The type of a set, and the identifier or the ids that are written behind it. -/
def idSetContents (idSet : IDSet) : BitVec 32 × Bytes × List (BitVec 32) :=
  (idSet.type, if idSet.type = 0 then (idSet.identifier.toString, []) else ([], idSet.ids))

theorem tells_idSet : Tells IDSet.Fits IDSet.bytes idSetContents := by
  intro a b v w ha hb heq
  simp only [IDSet.bytes, List.append_assoc] at heq
  rcases tells_varInt trivial trivial heq with ⟨htype, heq⟩
  have htype' : b.type = a.type := htype.symm
  unfold IDSet.Fits at ha hb
  unfold idSetContents
  rw [htype'] at hb heq ⊢
  by_cases hzero : a.type = 0
  · simp only [if_pos hzero] at ha hb heq ⊢
    rcases tells_string ha hb heq with ⟨hname, hrest⟩
    exact ⟨by rw [show a.identifier.toString = b.identifier.toString from hname], hrest⟩
  · simp only [if_neg hzero] at ha hb heq ⊢
    rcases tells_varInt.repeated _ ⟨ha.2.symm, fun _ _ => trivial⟩ ⟨hb.2.symm, fun _ _ => trivial⟩
      heq with ⟨hids, hrest⟩
    simp only [List.map_id] at hids
    exact ⟨by rw [hids], hrest⟩

theorem factors_idSet : Function.FactorsThrough IDSet.bytes idSetContents := by
  intro a b heq
  obtain ⟨htype, hrest⟩ := Prod.mk.inj heq
  rw [IDSet.bytes, IDSet.bytes, htype]
  rw [htype] at hrest
  by_cases hzero : b.type = 0
  · simp only [if_pos hzero, Prod.mk.injEq] at hrest ⊢
    rw [hrest.1]
  · simp only [if_neg hzero, Prod.mk.injEq] at hrest ⊢
    rw [hrest.2]

namespace Property

/-- The values that the flag of a property selects. -/
def contents (property : Property) : Bytes × Bool × Bytes × Bytes :=
  (property.name, property.isExact,
    if property.isExact then (property.exactValue, []) else (property.minValue, property.maxValue))

/-- An `int` can announce the strings that are written. -/
def Fits (property : Property) : Prop :=
  property.name.length < 2 ^ 31 ∧
    if property.isExact then property.exactValue.length < 2 ^ 31
    else property.minValue.length < 2 ^ 31 ∧ property.maxValue.length < 2 ^ 31

def bytes (property : Property) : Bytes :=
  stringBytes property.name ++ ([boolByte property.isExact] ++
    if property.isExact then stringBytes property.exactValue
    else stringBytes property.minValue ++ stringBytes property.maxValue)

theorem produces {e : Bool} {view : ByteBuffer → Bytes → Prop} (hv : Writable e view)
    (property : Property) : Produces view (writeProperty property) property.bytes := by
  have hfresh := writable_fresh true
  refine hv.writeBytesOf ((hfresh.writeString _).bind ((hfresh.writeByte _).bind ?_))
  split
  · exact hfresh.writeString _
  · exact (hfresh.writeString _).bind (hfresh.writeString _)

theorem factors_bytes : Function.FactorsThrough bytes contents := by
  intro a b heq
  obtain ⟨hname, hflag, hvalues⟩ : a.name = b.name ∧ a.isExact = b.isExact ∧ _ = _ := by
    simpa only [contents, Prod.mk.injEq] using heq
  rw [bytes, bytes, hname, hflag]
  rw [hflag] at hvalues
  cases hexact : b.isExact <;> simp_all

theorem tells_bytes : Tells Fits bytes contents := by
  intro a b v w ha hb heq
  simp only [bytes, List.append_assoc] at heq
  rcases tells_string ha.1 hb.1 heq with ⟨hname, heq⟩
  rcases tells_flag trivial trivial heq with ⟨hflag, heq⟩
  have hname' : a.name = b.name := hname
  have hflag' : b.isExact = a.isExact := hflag.symm
  have ha' := ha.2
  have hb' := hb.2
  unfold contents
  rw [hflag'] at hb' heq ⊢
  rw [hname']
  cases hexact : a.isExact
  · simp only [hexact, Bool.false_eq_true, if_false, List.append_assoc] at ha' hb' heq ⊢
    rcases tells_string ha'.1 hb'.1 heq with ⟨hmin, heq⟩
    rcases tells_string ha'.2 hb'.2 heq with ⟨hmax, hrest⟩
    exact ⟨congrArg (fun values => (b.name, false, values)) (Prod.ext hmin hmax), hrest⟩
  · simp only [hexact, if_true] at ha' hb' heq ⊢
    rcases tells_string ha' hb' heq with ⟨hvalue, hrest⟩
    exact ⟨congrArg (fun value => (b.name, true, value, [])) hvalue, hrest⟩

end Property

namespace PartialDataComponentMatcher

def contents (component : PartialDataComponentMatcher) : BitVec 32 × Tree :=
  (component.type, tree component.predicate)

def bytes (component : PartialDataComponentMatcher) : Bytes :=
  varIntBytes component.type ++ nbtBytes component.predicate

theorem produces {view : ByteBuffer → Bytes → Prop} (hv : Writable true view)
    {component : PartialDataComponentMatcher} (h : Untagged component.predicate) :
    Produces view (writePartialDataComponentMatcher component) component.bytes := by
  have hfresh := writable_fresh true
  exact hv.writeBytesOf ((hfresh.writeVarInt _).bind (produces_writeNBTElement hfresh h.1 h.2))

theorem factors_bytes : Function.FactorsThrough bytes contents := by
  intro a b heq
  obtain ⟨htype, htree⟩ := Prod.mk.inj heq
  rw [bytes, bytes, htype, factors_tree htree]

theorem tells_bytes : Tells (fun component => Untagged component.predicate) bytes contents := by
  intro a b v w ha hb heq
  simp only [bytes, List.append_assoc] at heq
  rcases tells_varInt trivial trivial heq with ⟨htype, heq⟩
  rcases tells_tree ha hb heq with ⟨htree, hrest⟩
  exact ⟨Prod.ext htype htree, hrest⟩

end PartialDataComponentMatcher

/-- A matcher that is the encoding of a component. -/
def Encodes (matcher : ExactDataComponentMatcher) : Prop :=
  ∃ component : Component, component.Fits ∧ matcher = component.bytes

theorem tells_matcher : Tells Encodes id id := by
  rintro _ _ v w ⟨a, ha, rfl⟩ ⟨b, hb, rfl⟩ heq
  rcases Component.tells_bytes ha hb heq with ⟨hboth, hrest⟩
  exact ⟨(Prod.mk.inj hboth).2, hrest⟩

/-! ### Equality -/

namespace BlockPredicate

/-- What stands in front of the matchers. -/
def front (predicate : BlockPredicate) :
    Option (BitVec 32 × Bytes × List (BitVec 32)) × Option (List (Bytes × Bool × Bytes × Bytes)) ×
      Option Tree :=
  (predicate.blocks.map idSetContents, predicate.properties.map (List.map Property.contents),
    predicate.nbt.map tree)

/-- The matchers as they are written behind their number. -/
def back (predicate : BlockPredicate) : Bytes :=
  predicate.dataComponents.flatten ++
    prefixedBytes PartialDataComponentMatcher.bytes predicate.partialDataComponents

def bytes (predicate : BlockPredicate) : Bytes :=
  optionalBytes IDSet.bytes predicate.blocks ++
    (optionalBytes (prefixedBytes Property.bytes) predicate.properties ++
      (optionalBytes nbtBytes predicate.nbt ++
        (varIntBytes (toInt predicate.dataComponents.length) ++ predicate.back)))

/-- What is in front of the matchers fits, and an `int` can announce them. -/
structure Sized (predicate : BlockPredicate) : Prop where
  blocks : ∀ idSet ∈ predicate.blocks, idSet.Fits
  properties : ∀ properties ∈ predicate.properties,
    properties.length < 2 ^ 32 ∧ ∀ property ∈ properties, property.Fits
  nbt : ∀ element ∈ predicate.nbt, Untagged element
  exact : predicate.dataComponents.length < 2 ^ 32
  partials : predicate.partialDataComponents.length < 2 ^ 32 ∧
    ∀ component ∈ predicate.partialDataComponents, Untagged component.predicate

variable {a b : BlockPredicate}

theorem toBytes_eq (h : a.Sized) : a.toBytes = .ok a.bytes := by
  have hv := writable_fresh true
  have hpartials := Produces.forEach PartialDataComponentMatcher.bytes a.partialDataComponents
    fun component hmem => PartialDataComponentMatcher.produces hv (h.partials.2 component hmem)
  have hback := (Produces.forEach id a.dataComponents fun matcher _ => hv.writeBytes matcher).bind
    ((hv.writeVarInt (toInt a.partialDataComponents.length)).bind hpartials)
  rw [List.flatMap_id] at hback
  have hnbt := (hv.writePrefixedOptional fun element hmem =>
    produces_writeNBTElement hv (h.nbt element hmem).1 (h.nbt element hmem).2).bind
      ((hv.writeVarInt (toInt a.dataComponents.length)).bind hback)
  refine bytesOf_eq ((hv.writePrefixedOptional fun idSet _ => hv.writeIDSet idSet).bind ?_)
  cases hproperties : a.properties with
  | none => exact (hv.writeByte _).bind hnbt
  | some properties =>
    have hwords := (hv.writeByte 1).bind <| (hv.writeVarInt (toInt properties.length)).bind <|
      (Produces.forEach _ properties fun property _ => property.produces hv).bind hnbt
    rw [← List.append_assoc (varIntBytes (toInt properties.length))] at hwords
    exact hwords

theorem tells_front : Tells Sized (fun predicate => optionalBytes IDSet.bytes predicate.blocks ++
    (optionalBytes (prefixedBytes Property.bytes) predicate.properties ++
      (optionalBytes nbtBytes predicate.nbt ++
        varIntBytes (toInt predicate.dataComponents.length)))) fun predicate =>
      (predicate.front, predicate.dataComponents.length) := by
  intro a b v w ha hb heq
  simp only [List.append_assoc] at heq
  rcases tells_optional tells_idSet ha.blocks hb.blocks heq with ⟨hblocks, heq⟩
  rcases tells_optional (tells_prefixed Property.tells_bytes) ha.properties hb.properties heq with
    ⟨hproperties, heq⟩
  rcases tells_optional tells_tree ha.nbt hb.nbt heq with ⟨hnbt, heq⟩
  rcases tells_varInt trivial trivial heq with ⟨hlength, hrest⟩
  have hfront : a.front = b.front := Prod.ext hblocks (Prod.ext hproperties hnbt)
  exact ⟨Prod.ext hfront (toInt_inj ha.exact hb.exact hlength), hrest⟩

/-- Predicates are equal when what is in front of the matchers, the number of the exact ones and
the bytes of all matchers agree. -/
theorem bytes_eq_iff (ha : a.Sized) (hb : b.Sized) : a.bytes = b.bytes ↔
    a.front = b.front ∧ a.dataComponents.length = b.dataComponents.length ∧ a.back = b.back := by
  constructor
  · intro heq
    have hassoc (predicate : BlockPredicate) : predicate.bytes =
        (optionalBytes IDSet.bytes predicate.blocks ++
          (optionalBytes (prefixedBytes Property.bytes) predicate.properties ++
            (optionalBytes nbtBytes predicate.nbt ++
              varIntBytes (toInt predicate.dataComponents.length)))) ++ predicate.back := by
      simp only [bytes, List.append_assoc]
    rw [hassoc, hassoc] at heq
    rcases tells_front ha hb heq with ⟨hfront, hback⟩
    exact ⟨(Prod.mk.inj hfront).1, (Prod.mk.inj hfront).2, hback⟩
  · rintro ⟨hfront, hlength, hback⟩
    obtain ⟨hblocks, hproperties, hnbt⟩ := by simpa only [front, Prod.mk.injEq] using hfront
    rw [bytes, bytes, factors_optional factors_idSet hblocks,
      factors_optional (factors_prefixed Property.factors_bytes) hproperties,
      factors_optional factors_tree hnbt, hlength, hback]

/-- Matchers that are encodings are told apart. -/
theorem back_eq_iff (ha : a.Sized) (hb : b.Sized)
    (hexact : ∀ matcher ∈ a.dataComponents, Encodes matcher)
    (hexact' : ∀ matcher ∈ b.dataComponents, Encodes matcher)
    (hlength : a.dataComponents.length = b.dataComponents.length) :
    a.back = b.back ↔ a.dataComponents = b.dataComponents ∧
      a.partialDataComponents.map PartialDataComponentMatcher.contents =
        b.partialDataComponents.map PartialDataComponentMatcher.contents := by
  constructor
  · intro heq
    rw [back, back, ← List.flatMap_id, ← List.flatMap_id] at heq
    rcases tells_matcher.repeated _ ⟨hlength, hexact⟩ ⟨rfl, hexact'⟩ heq with ⟨hmatchers, heq⟩
    simp only [List.map_id] at hmatchers
    exact ⟨hmatchers,
      (tells_prefixed PartialDataComponentMatcher.tells_bytes).eq ha.partials hb.partials heq⟩
  · rintro ⟨hmatchers, hpartials⟩
    rw [back, back, hmatchers, factors_prefixed PartialDataComponentMatcher.factors_bytes hpartials]

theorem equal_eq (ha : a.Sized) (hb : b.Sized) : a.equal b = .ok (decide (a.bytes = b.bytes)) := by
  rw [equal, toBytes_eq ha, toBytes_eq hb]
  rfl

/-- Predicates of blocks are equal when what is in front of the matchers, the number of the exact
ones and the bytes of all of them agree; and of matchers that are encodings of components the
matchers themselves do. -/
theorem equal_predicates_iff (ha : a.Sized) (hb : b.Sized) :
    (a.equal b = .ok true ↔ a.front = b.front ∧
      a.dataComponents.length = b.dataComponents.length ∧ a.back = b.back) ∧
    ((∀ matcher ∈ a.dataComponents ++ b.dataComponents, Encodes matcher) →
      (a.equal b = .ok true ↔ a.front = b.front ∧ a.dataComponents = b.dataComponents ∧
        a.partialDataComponents.map PartialDataComponentMatcher.contents =
          b.partialDataComponents.map PartialDataComponentMatcher.contents)) := by
  have hequal : a.equal b = .ok true ↔ a.front = b.front ∧
      a.dataComponents.length = b.dataComponents.length ∧ a.back = b.back := by
    rw [equal_eq ha hb, ← bytes_eq_iff ha hb, Except.ok.injEq, decide_eq_true_iff]
  refine ⟨hequal, fun hexact => hequal.trans ?_⟩
  rw [List.forall_mem_append] at hexact
  constructor
  · rintro ⟨hfront, hlength, hback⟩
    exact ⟨hfront, (back_eq_iff ha hb hexact.1 hexact.2 hlength).mp hback⟩
  · rintro ⟨hfront, hmatchers, hpartials⟩
    have hlength := congrArg List.length hmatchers
    exact ⟨hfront, hlength, (back_eq_iff ha hb hexact.1 hexact.2 hlength).mpr ⟨hmatchers, hpartials⟩⟩

/-- A predicate with these matchers only. -/
def exactly (matchers : List ExactDataComponentMatcher) : BlockPredicate :=
  { new with dataComponents := matchers }

theorem sized_exactly {matchers : List ExactDataComponentMatcher} (h : matchers.length < 2 ^ 32) :
    (exactly matchers).Sized where
  blocks idSet hmem := by cases hmem
  properties properties hmem := by cases hmem
  nbt element hmem := by cases hmem
  exact := h
  partials := ⟨show 0 < 2 ^ 32 by decide, fun component hmem => by cases hmem⟩

/-- Three bytes that are cut at two places, and the encodings of two limits. -/
theorem equal_predicates_iff_exactly :
    (exactly [[1], [2, 3]]).equal (exactly [[1, 2], [3]]) = .ok true ∧
    (exactly [(Component.maxStackSize 16).bytes]).equal
      (exactly [(Component.maxStackSize 64).bytes]) ≠ .ok true := by
  constructor
  · apply (equal_predicates_iff (sized_exactly (by decide)) (sized_exactly (by decide))).1.mpr
    exact ⟨rfl, rfl, rfl⟩
  · have hencodes (n : BitVec 32) : Encodes (Component.maxStackSize n).bytes :=
      ⟨.maxStackSize n, trivial, rfl⟩
    have hsized (n : BitVec 32) : (exactly [(Component.maxStackSize n).bytes]).Sized :=
      sized_exactly (show 1 < 2 ^ 32 by decide)
    intro hequal
    have hiff := (equal_predicates_iff (hsized 16) (hsized 64)).2 (by simp [exactly, hencodes])
    exact absurd (hiff.mp hequal).2.1 (by decide)

end BlockPredicate

end Zinc.Game
