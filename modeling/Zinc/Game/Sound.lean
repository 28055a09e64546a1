import Zinc.Buffer.Containers
import Zinc.Text.Codec

/-! Sound events, and the instruments and juke boxes around them. A byte says whether a sound
event has a fixed range. The writer writes a range behind it in either case, the reader reads
one only if there is one; so an event without a range leaves the range in front of whatever
follows. -/

namespace Zinc.Game

open Throw Buffer Buffer.ByteBuffer Text

structure SoundEvent where
  identifier : Identifier
  fixedRange : Option (BitVec 32)

namespace SoundEvent

/-- `SoundEvent(const Identifier&)`. -/
def ofIdentifier (identifier : Identifier) : SoundEvent := ⟨identifier, none⟩

/-- The default constructor. -/
instance : Inhabited SoundEvent := ⟨ofIdentifier .new⟩

def hasFixedRange (soundEvent : SoundEvent) : Bool := soundEvent.fixedRange.isSome

def getFixedRange (soundEvent : SoundEvent) : BitVec 32 :=
  match soundEvent.fixedRange with
  | some fixedRange => fixedRange
  | none => 0

def setFixedRange (fixedRange : BitVec 32) (soundEvent : SoundEvent) : SoundEvent :=
  { soundEvent with fixedRange := some fixedRange }

/-- The text of the identifier, and the optional range bit by bit. -/
def Agrees (soundEvent soundEvent' : SoundEvent) : Prop :=
  soundEvent'.identifier.toString = soundEvent.identifier.toString ∧
    soundEvent'.fixedRange = soundEvent.fixedRange

end SoundEvent

def writeSoundEvent (soundEvent : SoundEvent) : Action Unit := do
  writeIdentifier soundEvent.identifier
  writeByte (boolByte soundEvent.hasFixedRange)
  writeNumeric (k := 4) soundEvent.getFixedRange

def readSoundEvent : Action SoundEvent := do
  let identifier ← readIdentifier
  let hasFixedRange ← readByte
  if hasFixedRange ≠ 0 then do
    let fixedRange ← readNumeric 4
    pure ((SoundEvent.ofIdentifier identifier).setFixedRange fixedRange)
  else pure (.ofIdentifier identifier)

structure Instrument where
  soundEvent : IDorX SoundEvent
  soundRange : BitVec 32
  range : BitVec 32
  description : TextComponent

structure JukeBox where
  soundEvent : IDorX SoundEvent
  description : TextComponent
  duration : BitVec 32
  output : BitVec 32

def Instrument.toBytes (instrument : Instrument) : Except Fault Bytes := bytesOf do
  writeIDorX instrument.soundEvent writeSoundEvent
  writeNumeric (k := 4) instrument.soundRange
  writeNumeric (k := 4) instrument.range
  writeTextComponent instrument.description

def JukeBox.toBytes (jukeBox : JukeBox) : Except Fault Bytes := bytesOf do
  writeIDorX jukeBox.soundEvent writeSoundEvent
  writeTextComponent jukeBox.description
  writeNumeric (k := 4) jukeBox.duration
  writeVarInt jukeBox.output

def writeInstrument (instrument : Instrument) : Action Unit := fun buffer => do
  let bytes ← instrument.toBytes
  writeByteArray bytes buffer

def readInstrument (n : ℕ) : Action Instrument := do
  let soundEvent ← readIDorX readSoundEvent
  let soundRange ← readNumeric 4
  let range ← readNumeric 4
  let description ← readTextComponent n
  pure { soundEvent, soundRange, range, description }

def writeJukeBox (jukeBox : JukeBox) : Action Unit := fun buffer => do
  let bytes ← jukeBox.toBytes
  writeByteArray bytes buffer

def readJukeBox (n : ℕ) : Action JukeBox := do
  let soundEvent ← readIDorX readSoundEvent
  let description ← readTextComponent n
  let duration ← readNumeric 4
  let output ← readVarInt
  pure { soundEvent, description, duration, output }

/-- All fields but the description. -/
def Instrument.Agrees (instrument instrument' : Instrument) : Prop :=
  IDorX.Equal SoundEvent.Agrees instrument.soundEvent instrument'.soundEvent ∧
    instrument'.soundRange = instrument.soundRange ∧ instrument'.range = instrument.range

/-- All fields but the description. -/
def JukeBox.Agrees (jukeBox jukeBox' : JukeBox) : Prop :=
  IDorX.Equal SoundEvent.Agrees jukeBox.soundEvent jukeBox'.soundEvent ∧
    jukeBox'.duration = jukeBox.duration ∧ jukeBox'.output = jukeBox.output

/-! ### Sound events -/

variable {e : Bool} {view : ByteBuffer → Bytes → Prop}

/-- The word of a sound event. -/
def soundBytes (e : Bool) (soundEvent : SoundEvent) : Bytes :=
  stringBytes soundEvent.identifier.toString ++
    ([boolByte soundEvent.hasFixedRange] ++ numericBytes e (k := 4) soundEvent.getFixedRange)

theorem produces_writeSoundEvent (hv : Writable e view) (soundEvent : SoundEvent) :
    Produces view (writeSoundEvent soundEvent) (soundBytes e soundEvent) :=
  (hv.writeIdentifier _).bind ((hv.writeByte _).bind (hv.writeNumeric (k := 4) _))

/-- What a sound event with a range in some byte order is read as. Without a range the word that
is read ends at the flag. -/
theorem consumes_readSoundEvent (hv : Readable e view) (b : Bool) {soundEvent : SoundEvent}
    (h : soundEvent.identifier.toString.length < 2 ^ 31) : ∃ identifier,
      identifier.toString = soundEvent.identifier.toString ∧
      Consumes view readSoundEvent (stringBytes soundEvent.identifier.toString ++
        ([boolByte soundEvent.hasFixedRange] ++
          if soundEvent.hasFixedRange then numericBytes b (k := 4) soundEvent.getFixedRange
          else []))
        ⟨identifier, soundEvent.fixedRange.map fun range =>
          numericOfBytes e 4 (numericBytes b (k := 4) range)⟩ := by
  obtain ⟨identifier, htext, hread⟩ := hv.readIdentifier h
  refine ⟨identifier, htext, hread.bind ?_⟩
  rcases soundEvent with ⟨identifier₀, - | range⟩
  · exact (hv.readByte 0).bind (Consumes.pure _)
  · apply (hv.readByte 1).bind
    have hlength := length_numericBytes b (k := 4) range
    exact (hv.readNumericOfBytes (by decide) hlength).bind_pure _

/-- No event has a longer text than an `int` can announce. -/
theorem yields_readSoundEvent :
    Yields (fun soundEvent => soundEvent.identifier.toString.length < 2 ^ 31) readSoundEvent := by
  refine yields_readIdentifier.bind fun identifier hidentifier => Yields.of_bind fun flag => ?_
  by_cases hflag : flag ≠ 0
  · rw [if_pos hflag]
    exact Yields.of_bind fun fixedRange => Yields.pure hidentifier
  · rw [if_neg hflag]
    exact Yields.pure hidentifier

/-- An event with a range is read from the word that was written. -/
theorem consumes_soundBytes (hv : Readable e view) {soundEvent : SoundEvent}
    (hrange : soundEvent.hasFixedRange)
    (htext : soundEvent.identifier.toString.length < 2 ^ 31) : ∃ soundEvent',
      soundEvent.Agrees soundEvent' ∧
      Consumes view readSoundEvent (soundBytes e soundEvent) soundEvent' := by
  obtain ⟨identifier, hidentifier, hread⟩ := consumes_readSoundEvent hv e htext
  rw [if_pos hrange] at hread
  refine ⟨_, ⟨hidentifier, ?_⟩, hread⟩
  simp [numericOfBytes_numericBytes]

/-- A sound event comes back exactly when it has a range and a text that an `int` can
announce. -/
theorem restores_soundEvent_iff (soundEvent : SoundEvent) :
    Restores e (writeSoundEvent soundEvent) (fun _ => readSoundEvent) soundEvent.Agrees ↔
      soundEvent.hasFixedRange ∧ soundEvent.identifier.toString.length < 2 ^ 31 := by
  have hwrite := produces_writeSoundEvent (writable_stored e) soundEvent
  constructor
  · intro h
    obtain ⟨soundEvent', hagrees, hlength⟩ := h.exists_yields fun _ => yields_readSoundEvent
    rw [hagrees.1] at hlength
    refine ⟨?_, hlength⟩
    by_contra hrange
    obtain ⟨identifier, -, hread⟩ := consumes_readSoundEvent (readable_stored e) e hlength
    rw [if_neg hrange, List.append_nil] at hread
    rw [soundBytes, ← List.append_assoc] at hwrite
    rw [restores_iff (m := 0) hwrite fun _ _ => hread] at h
    have hsize := congrArg List.length h.1
    rw [length_numericBytes] at hsize
    cases hsize
  · rintro ⟨hrange, htext⟩
    obtain ⟨soundEvent', hagrees, hread⟩ := consumes_soundBytes (readable_stored e) hrange htext
    exact restores_of_consumes (m := 0) hwrite (fun _ _ => hread) hagrees

/-! ### Sound events behind the id 0 -/

theorem produces_writeIDorX_ofValue (hv : Writable e view) (soundEvent : SoundEvent) :
    Produces view (writeIDorX (.ofValue soundEvent) writeSoundEvent)
      (varIntBytes 0 ++ soundBytes e soundEvent) :=
  (hv.writeVarInt 0).bind (produces_writeSoundEvent hv soundEvent)

theorem consumes_readIDorX_ofValue (hv : Readable e view) {soundEvent : SoundEvent}
    (hrange : soundEvent.hasFixedRange)
    (htext : soundEvent.identifier.toString.length < 2 ^ 31) : ∃ idOrX,
      IDorX.Equal SoundEvent.Agrees (.ofValue soundEvent) idOrX ∧
      Consumes view (readIDorX readSoundEvent) (varIntBytes 0 ++ soundBytes e soundEvent)
        idOrX := by
  obtain ⟨soundEvent', hagrees, hread⟩ := consumes_soundBytes hv hrange htext
  exact ⟨.ofValue soundEvent', ⟨rfl, hagrees⟩, (hv.readVarInt 0).bind (hread.bind_pure _)⟩

theorem restores_instrument {soundEvent : SoundEvent} (hrange : soundEvent.hasFixedRange)
    (htext : soundEvent.identifier.toString.length < 2 ^ 31) {instrument : Instrument}
    (hsound : instrument.soundEvent = .ofValue soundEvent) (hsmall : instrument.description.Small) :
    Restores true (writeInstrument instrument) readInstrument instrument.Agrees := by
  rcases instrument with ⟨_, soundRange, range, description⟩
  subst hsound
  obtain ⟨idOrX, hequal, hread⟩ :=
    consumes_readIDorX_ofValue (readable_stored true) hrange htext
  obtain ⟨bound, hbound⟩ := consumes_readTextComponent hsmall
  have hfresh := writable_fresh true
  have hwrite := (writable_stored true).writeBytesOf <|
    (produces_writeIDorX_ofValue hfresh soundEvent).bind <|
      (hfresh.writeNumeric (k := 4) soundRange).bind <|
        (hfresh.writeNumeric (k := 4) range).bind (produces_writeTextComponent hfresh hsmall)
  refine restores_of_consumes (m := bound)
    (a := ⟨idOrX, soundRange, range, description.stripped⟩) hwrite (fun n hn => ?_)
    ⟨hequal, rfl, rfl⟩
  have hrecord := readable_stored true
  exact hread.bind <| (hrecord.readNumeric (k := 4) (by decide) soundRange).bind <|
    (hrecord.readNumeric (k := 4) (by decide) range).bind ((hbound n hn).bind_pure _)

theorem restores_jukeBox {soundEvent : SoundEvent} (hrange : soundEvent.hasFixedRange)
    (htext : soundEvent.identifier.toString.length < 2 ^ 31) {jukeBox : JukeBox}
    (hsound : jukeBox.soundEvent = .ofValue soundEvent) (hsmall : jukeBox.description.Small) :
    Restores true (writeJukeBox jukeBox) readJukeBox jukeBox.Agrees := by
  rcases jukeBox with ⟨_, description, duration, output⟩
  subst hsound
  obtain ⟨idOrX, hequal, hread⟩ :=
    consumes_readIDorX_ofValue (readable_stored true) hrange htext
  obtain ⟨bound, hbound⟩ := consumes_readTextComponent hsmall
  have hfresh := writable_fresh true
  have hwrite := (writable_stored true).writeBytesOf <|
    (produces_writeIDorX_ofValue hfresh soundEvent).bind <|
      (produces_writeTextComponent hfresh hsmall).bind <|
        (hfresh.writeNumeric (k := 4) duration).bind (hfresh.writeVarInt output)
  refine restores_of_consumes (m := bound)
    (a := ⟨idOrX, description.stripped, duration, output⟩) hwrite (fun n hn => ?_)
    ⟨hequal, rfl, rfl⟩
  have hrecord := readable_stored true
  exact hread.bind <| (hbound n hn).bind <|
    (hrecord.readNumeric (k := 4) (by decide) duration).bind
      ((hrecord.readVarInt output).bind_pure _)

/-! ### The codec in its contexts -/

/-- A sound event comes back alone in any byte order, and in the instruments and juke boxes
that have it inline. -/
def SoundEvent.ComesBack (soundEvent : SoundEvent) : Prop :=
  (∀ e, Restores e (writeSoundEvent soundEvent) (fun _ => readSoundEvent) soundEvent.Agrees) ∧
  (∀ instrument : Instrument, instrument.soundEvent = .ofValue soundEvent →
    instrument.description.Small →
    Restores true (writeInstrument instrument) readInstrument instrument.Agrees) ∧
  (∀ jukeBox : JukeBox, jukeBox.soundEvent = .ofValue soundEvent →
    jukeBox.description.Small → Restores true (writeJukeBox jukeBox) readJukeBox jukeBox.Agrees)

theorem SoundEvent.comesBack_iff (soundEvent : SoundEvent) : soundEvent.ComesBack ↔
    soundEvent.hasFixedRange ∧ soundEvent.identifier.toString.length < 2 ^ 31 := by
  constructor
  · rintro ⟨halone, -, -⟩
    exact (restores_soundEvent_iff soundEvent).mp (halone true)
  · rintro ⟨hrange, htext⟩
    refine ⟨fun e => (restores_soundEvent_iff soundEvent).mpr ⟨hrange, htext⟩, ?_, ?_⟩
    · exact fun instrument hsound hsmall => restores_instrument hrange htext hsound hsmall
    · exact fun jukeBox hsound hsmall => restores_jukeBox hrange htext hsound hsmall

/-- An event without a range. -/
theorem SoundEvent.not_restores_default :
    ¬ Restores true (writeSoundEvent default) (fun _ => readSoundEvent) (Agrees default) := by
  rw [restores_soundEvent_iff]
  exact fun h => absurd h.1 (by decide)

end Zinc.Game
