import Zinc.Base.History
import Zinc.Buffer.RoundTrip

/-! Sets of ids. The type of a set is 0 for an identifier and the number of the ids plus one for
a list of them, and on the wire it announces how many ids follow. The type can be set apart from
the ids, and the default constructor makes a type that announces none. What comes back of a set
is decided by its type and its ids alone, and along a run of calls each call can be judged by
what it finds. -/

namespace Zinc.Buffer

open Throw ByteBuffer History

structure IDSet where
  type : BitVec 32
  identifier : Identifier
  ids : List (BitVec 32)

namespace IDSet

/-- The default constructor. -/
def new : IDSet := ⟨-1, .new, []⟩

/-- `IDSet(const Identifier&)`. -/
def ofIdentifier (identifier : Identifier) : IDSet := ⟨0, identifier, []⟩

/-- `IDSet(const std::vector<int>&)`. -/
def ofIDs (ids : List (BitVec 32)) : IDSet := ⟨toInt (ids.length + 1), .new, ids⟩

def setIdentifier (identifier : Identifier) (idSet : IDSet) : IDSet :=
  { idSet with type := 0, identifier }

def setIDs (ids : List (BitVec 32)) (idSet : IDSet) : IDSet :=
  { idSet with type := toInt (ids.length + 1), ids }

def setType (type : BitVec 32) (idSet : IDSet) : IDSet :=
  { idSet with type, ids := if type = 0 then [] else idSet.ids }

end IDSet

namespace ByteBuffer

def writeIDSet (idSet : IDSet) : Action Unit := do
  writeVarInt idSet.type
  if idSet.type = 0 then writeIdentifier idSet.identifier
  else writeArray idSet.ids writeVarInt

/-- The number of ids that a type announces; the difference may overflow. -/
def announcedIDs (type : BitVec 32) : Action ℕ :=
  if type = BitVec.intMin 32 then fail .undefined else pure (toSize (type - 1))

def readIDSet : Action IDSet := do
  let type ← readVarInt
  let result := IDSet.new.setType type
  if result.type ≠ 0 then do
    let length ← announcedIDs result.type
    let ids ← readArray readVarInt length
    pure (result.setIDs ids)
  else do
    let identifier ← readIdentifier
    pure (result.setIdentifier identifier)

end ByteBuffer

/-! ### What comes back -/

variable {e : Bool} {view : ByteBuffer → Bytes → Prop}

namespace IDSet

/-- The same type, and the same identifier or the same ids. -/
def Agrees (idSet idSet' : IDSet) : Prop :=
  idSet'.type = idSet.type ∧
    if idSet.type = 0 then idSet'.identifier.toString = idSet.identifier.toString
    else idSet'.ids = idSet.ids

/-- The type announces the ids that there are. -/
def Fits (idSet : IDSet) : Prop :=
  if idSet.type = 0 then idSet.identifier.toString.length < 2 ^ 31
  else idSet.type ≠ BitVec.intMin 32 ∧ toSize (idSet.type - 1) = idSet.ids.length

theorem Agrees.fits {idSet idSet' : IDSet} (h : idSet.Agrees idSet') (hfits : idSet'.Fits) :
    idSet.Fits := by
  obtain ⟨htype, hrest⟩ := h
  unfold Fits at *
  rw [htype] at hfits
  by_cases hzero : idSet.type = 0
  · rw [if_pos hzero] at hrest hfits ⊢
    rwa [hrest] at hfits
  · rw [if_neg hzero] at hrest hfits ⊢
    rwa [hrest] at hfits

def bytes (idSet : IDSet) : Bytes :=
  varIntBytes idSet.type ++
    if idSet.type = 0 then stringBytes idSet.identifier.toString
    else idSet.ids.flatMap varIntBytes

end IDSet

theorem Writable.writeIDSet (hv : Writable e view) (idSet : IDSet) :
    Produces view (ByteBuffer.writeIDSet idSet) idSet.bytes := by
  refine (hv.writeVarInt idSet.type).bind ?_
  split
  · exact hv.writeIdentifier _
  · exact Produces.forEach varIntBytes idSet.ids fun id _ => hv.writeVarInt id

/-- The type of a list that was announced by a type. -/
theorem toInt_announced {type : BitVec 32} {length : ℕ} (h : toSize (type - 1) = length) :
    toInt (length + 1) = type := by
  have hsum : toInt (length + 1) = toInt length + 1 := by
    rw [toInt, toInt, BitVec.ofNat_add]
    rfl
  rw [hsum, ← h, toInt_toSize, BitVec.sub_add_cancel]

theorem Readable.readIDSet (hv : Readable e view) {idSet : IDSet} (h : idSet.Fits) :
    ∃ idSet', idSet.Agrees idSet' ∧
      Consumes view ByteBuffer.readIDSet idSet.bytes idSet' := by
  have htype := hv.readVarInt idSet.type
  unfold IDSet.Fits at h
  unfold IDSet.Agrees IDSet.bytes
  by_cases hzero : idSet.type = 0
  · rw [if_pos hzero] at h
    obtain ⟨identifier, htext, hread⟩ := hv.readIdentifier h
    refine ⟨(IDSet.new.setType idSet.type).setIdentifier identifier, ⟨hzero.symm, ?_⟩, ?_⟩
    · rwa [if_pos hzero]
    · rw [if_pos hzero]
      apply htype.bind
      rw [if_neg (show ¬ (IDSet.new.setType idSet.type).type ≠ 0 from not_not.mpr hzero)]
      exact hread.bind_pure _
  · rw [if_neg hzero] at h
    obtain ⟨hmin, hlength⟩ := h
    refine ⟨(IDSet.new.setType idSet.type).setIDs idSet.ids, ⟨toInt_announced hlength, ?_⟩, ?_⟩
    · rw [if_neg hzero]
      rfl
    · rw [if_neg hzero]
      apply htype.bind
      rw [if_pos (show (IDSet.new.setType idSet.type).type ≠ 0 from hzero)]
      have hcount : ByteBuffer.announcedIDs (IDSet.new.setType idSet.type).type =
          pure idSet.ids.length := by
        rw [announcedIDs, if_neg (show (IDSet.new.setType idSet.type).type ≠ _ from hmin)]
        exact congrArg pure hlength
      rw [hcount, pure_bind]
      exact (Consumes.replicate varIntBytes idSet.ids fun id _ => hv.readVarInt id).bind_pure _

/-- Whatever a set is read from, its type announces its ids. -/
theorem yields_readIDSet : Yields IDSet.Fits readIDSet := by
  refine Yields.of_bind fun type => ?_
  by_cases hzero : type = 0
  · rw [if_neg (show ¬ (IDSet.new.setType type).type ≠ 0 from not_not.mpr hzero)]
    exact yields_readIdentifier.map _ fun identifier h => h
  · rw [if_pos (show (IDSet.new.setType type).type ≠ 0 from hzero)]
    by_cases hmin : type = BitVec.intMin 32
    · intro buffer p h
      rw [announcedIDs, if_pos (show (IDSet.new.setType type).type = _ from hmin)] at h
      cases h
    · rw [announcedIDs, if_neg (show ¬ (IDSet.new.setType type).type = _ from hmin), pure_bind]
      refine (Yields.replicate (P := fun _ => True) (fun _ _ _ => trivial) _).map _ fun ids h => ?_
      have htype : toInt (ids.length + 1) = type := toInt_announced h.1.symm
      change if toInt (ids.length + 1) = 0 then _
        else toInt (ids.length + 1) ≠ _ ∧ toSize (toInt (ids.length + 1) - 1) = ids.length
      rw [htype, if_neg hzero]
      exact ⟨hmin, h.1.symm⟩

/-- A set comes back exactly when its type announces its ids. -/
theorem restores_idSet_iff (idSet : IDSet) :
    Restores e (writeIDSet idSet) (fun _ => readIDSet) idSet.Agrees ↔ idSet.Fits := by
  constructor
  · intro h
    obtain ⟨idSet', hagrees, hfits⟩ := h.exists_yields fun _ => yields_readIDSet
    exact hagrees.fits hfits
  · intro h
    obtain ⟨idSet', hagrees, hread⟩ := (readable_stored e).readIDSet h
    exact restores_of_consumes (m := 0) ((writable_stored e).writeIDSet idSet)
      (fun _ _ => hread) hagrees

/-! ### Runs of calls -/

namespace IDSet

/-- The public constructors. -/
inductive Start where
  | new
  | ofIdentifier (identifier : Identifier)
  | ofIDs (ids : List (BitVec 32))

def Start.make : Start → IDSet
  | new => .new
  | ofIdentifier identifier => .ofIdentifier identifier
  | ofIDs ids => .ofIDs ids

inductive Call where
  | setIdentifier (identifier : Identifier)
  | setIDs (ids : List (BitVec 32))
  | setType (type : BitVec 32)

def Call.apply (call : Call) (idSet : IDSet) : IDSet :=
  match call with
  | setIdentifier identifier => idSet.setIdentifier identifier
  | setIDs ids => idSet.setIDs ids
  | setType type => idSet.setType type

/-- Runs of calls behind a constructor. -/
abbrev CallRun (start : Start) : Past IDSet Call → IDSet → Prop :=
  Run (· = start.make) fun idSet call idSet' => idSet' = call.apply idSet

/-- `m_type == 0 or m_type == m_ids.size() + 1`. -/
def InStep (idSet : IDSet) : Prop := idSet.type = 0 ∨ idSet.type.toInt = idSet.ids.length + 1

/-- The type is in step with the ids, and the set comes back. -/
def Sound (e : Bool) (idSet : IDSet) : Prop :=
  idSet.InStep ∧ Restores e (writeIDSet idSet) (fun _ => readIDSet) idSet.Agrees

/-- A text or a list whose size an `int` holds, or whose size makes the type 0. -/
def Start.Keeps : Start → Prop
  | new => False
  | ofIdentifier identifier => identifier.toString.length < 2 ^ 31
  | ofIDs ids => ids.length + 1 < 2 ^ 31 ∨ toInt (ids.length + 1) = 0

/-- The same for the setters; a type is 0 or the one of the ids that there are. -/
def Call.Keeps (idSet : IDSet) : Call → Prop
  | setIdentifier identifier => identifier.toString.length < 2 ^ 31
  | setIDs ids => ids.length + 1 < 2 ^ 31 ∨ toInt (ids.length + 1) = 0
  | setType type => type = 0 ∨ type.toInt = idSet.ids.length + 1

/-- An `int` that is a number of elements plus one. -/
theorem toInt_eq_succ_iff {type : BitVec 32} {n : ℕ} :
    type.toInt = n + 1 ↔ n + 1 < 2 ^ 31 ∧ type = toInt (n + 1) := by
  constructor
  · intro h
    have hlt : type.toNat < 2 ^ 31 := toInt_nonneg_iff.mp (by omega)
    rw [toInt_eq_toNat hlt] at h
    have hn : type.toNat = n + 1 := by exact_mod_cast h
    refine ⟨by omega, ?_⟩
    rw [toInt, ← hn, BitVec.ofNat_toNat, BitVec.setWidth_eq]
  · rintro ⟨hlt, rfl⟩
    have hn : (toInt (n + 1)).toNat = n + 1 := by
      rw [toInt, BitVec.toNat_ofNat, Nat.mod_eq_of_lt (by omega)]
    rw [toInt_eq_toNat (by omega), hn]
    rfl

theorem fits_of_count {idSet : IDSet} (h : idSet.type.toInt = idSet.ids.length + 1) :
    idSet.Fits := by
  obtain ⟨hlt, htype⟩ := toInt_eq_succ_iff.mp h
  have hzero : idSet.type ≠ 0 := by
    intro hzero
    rw [hzero] at h
    change (0 : ℤ) = _ at h
    omega
  have hmin : idSet.type ≠ BitVec.intMin 32 := by
    intro hmin
    rw [hmin, BitVec.toInt_intMin_of_pos (by decide)] at h
    omega
  have hlast : toInt (idSet.ids.length + 1) - 1 = toInt idSet.ids.length := by
    rw [toInt, toInt, BitVec.ofNat_add]
    exact BitVec.add_sub_cancel _ _
  rw [Fits, if_neg hzero]
  refine ⟨hmin, ?_⟩
  rw [htype, hlast]
  exact toSize_ofNat (by omega)

theorem sound_iff_or (idSet : IDSet) : idSet.Sound e ↔
    (idSet.type = 0 ∧ idSet.identifier.toString.length < 2 ^ 31) ∨
      idSet.type.toInt = idSet.ids.length + 1 := by
  rw [Sound, restores_idSet_iff]
  constructor
  · rintro ⟨hzero | hcount, hfits⟩
    · rw [Fits, if_pos hzero] at hfits
      exact .inl ⟨hzero, hfits⟩
    · exact .inr hcount
  · rintro (⟨hzero, htext⟩ | hcount)
    · exact ⟨.inl hzero, by rwa [Fits, if_pos hzero]⟩
    · exact ⟨.inr hcount, fits_of_count hcount⟩

/-- The identifier of a set, whether its type uses it or not. -/
def HasText (idSet : IDSet) : Prop := idSet.identifier.toString.length < 2 ^ 31

theorem hasText_new : HasText .new := by
  unfold HasText
  decide +kernel

theorem sound_setIDs_iff {idSet : IDSet} (htext : idSet.HasText) (ids : List (BitVec 32)) :
    (idSet.setIDs ids).Sound e ↔ ids.length + 1 < 2 ^ 31 ∨ toInt (ids.length + 1) = 0 := by
  rw [sound_iff_or, toInt_eq_succ_iff]
  change toInt (ids.length + 1) = 0 ∧ idSet.HasText ∨
    ids.length + 1 < 2 ^ 31 ∧ toInt (ids.length + 1) = toInt (ids.length + 1) ↔ _
  rw [and_iff_left htext, and_iff_left rfl, or_comm]

/-- A constructor makes a sound set when it keeps to its condition. -/
theorem Start.sound_make_iff (start : Start) :
    (start.make.Sound e ↔ start.Keeps) ∧ (start.Keeps → start.make.HasText) := by
  cases start with
  | new =>
    refine ⟨iff_of_false ?_ id, fun h => h.elim⟩
    rw [sound_iff_or]
    decide
  | ofIdentifier identifier =>
    refine ⟨?_, id⟩
    rw [sound_iff_or]
    refine ⟨fun h => h.elim And.right fun hcount => ?_, fun h => .inl ⟨rfl, h⟩⟩
    change (0 : ℤ) = (0 : ℤ) + 1 at hcount
    omega
  | ofIDs ids => exact ⟨sound_setIDs_iff hasText_new ids, fun _ => hasText_new⟩

/-- A call on a sound set leaves a sound set when it keeps to its condition. -/
theorem Call.sound_apply_iff {idSet : IDSet} (htext : idSet.HasText) (call : Call) :
    ((call.apply idSet).Sound e ↔ call.Keeps idSet) ∧
      (call.Keeps idSet → (call.apply idSet).HasText) := by
  cases call with
  | setIdentifier identifier =>
    refine ⟨?_, id⟩
    rw [sound_iff_or]
    refine ⟨fun h => h.elim And.right fun hcount => ?_, fun h => .inl ⟨rfl, h⟩⟩
    change (0 : ℤ) = _ at hcount
    omega
  | setIDs ids => exact ⟨sound_setIDs_iff htext ids, fun _ => htext⟩
  | setType type =>
    refine ⟨?_, fun _ => htext⟩
    rw [sound_iff_or]
    change type = 0 ∧ idSet.HasText ∨
      type.toInt = ((if type = 0 then [] else idSet.ids : List (BitVec 32)).length : ℤ) + 1 ↔
        type = 0 ∨ type.toInt = idSet.ids.length + 1
    rw [and_iff_left htext]
    by_cases hzero : type = 0
    · exact iff_of_true (.inl hzero) (.inl hzero)
    · rw [if_neg hzero]

variable {start : Start} {past : Past IDSet Call} {idSet : IDSet}

/-- Every set that a run comes to is sound exactly when the constructor and all calls keep to
their conditions. -/
theorem CallRun.allSound_iff (e : Bool) (h : CallRun start past idSet) :
    ((∀ x ∈ past, x.1.Sound e) ∧ idSet.Sound e) ↔
      start.Keeps ∧ ∀ x ∈ past, x.2.Keeps x.1 := by
  have hall : (((∀ x ∈ past, x.1.Sound e) ∧ idSet.Sound e) ↔
      start.Keeps ∧ ∀ x ∈ past, x.2.Keeps x.1) ∧
      (start.Keeps ∧ (∀ x ∈ past, x.2.Keeps x.1) → idSet.HasText) := by
    induction h with
    | start h =>
      subst h
      obtain ⟨hiff, htext⟩ := start.sound_make_iff (e := e)
      simpa using ⟨hiff, htext⟩
    | @next past idSet idSet' call _ hstep ih =>
      subst hstep
      obtain ⟨hiff, htext⟩ := ih
      simp only [List.forall_mem_append, List.forall_mem_singleton]
      constructor
      · constructor
        · rintro ⟨⟨hpast, hlast⟩, hcall⟩
          have hkeeps := hiff.mp ⟨hpast, hlast⟩
          exact ⟨hkeeps.1, hkeeps.2, ((call.sound_apply_iff (htext hkeeps)).1).mp hcall⟩
        · rintro ⟨hstart, hpast, hcall⟩
          have hsound := hiff.mpr ⟨hstart, hpast⟩
          exact ⟨hsound, ((call.sound_apply_iff (htext ⟨hstart, hpast⟩)).1).mpr hcall⟩
      · rintro ⟨hstart, hpast, hcall⟩
        exact (call.sound_apply_iff (e := e) (htext ⟨hstart, hpast⟩)).2 hcall
  exact hall.1

theorem CallRun.allSound_iff_three : ∃ past idSet, CallRun (.ofIDs [1, 2]) past idSet ∧
    (((∀ x ∈ past, x.1.Sound true) ∧ idSet.Sound true) ↔
      (Start.ofIDs [1, 2]).Keeps ∧ ∀ x ∈ past, x.2.Keeps x.1) := by
  have hstart : CallRun (.ofIDs [1, 2]) [] (ofIDs [1, 2]) := .start rfl
  have hrun : CallRun (.ofIDs [1, 2]) [(ofIDs [1, 2], .setType 3)] ((ofIDs [1, 2]).setType 3) :=
    hstart.next rfl
  exact ⟨_, _, hrun, hrun.allSound_iff true⟩

/-- The default set announces -2 ids. -/
theorem not_sound_new : CallRun .new [] new ∧ ¬ new.InStep ∧
    ¬ Restores true (writeIDSet new) (fun _ => readIDSet) new.Agrees := by
  refine ⟨.start rfl, by unfold InStep; decide, ?_⟩
  rw [restores_idSet_iff, Fits]
  decide

end IDSet

end Zinc.Buffer
