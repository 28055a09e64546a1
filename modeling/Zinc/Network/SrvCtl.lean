import Zinc.Base.Pacing
import Zinc.Network.Frame

/-! The control port. A frame is a length of eight bytes and as many bytes as that, which
begin with the id of a packet. `onRead` takes one frame a call: what is left behind it
waits for the next event, and an input that does not hold a whole frame is answered with
an error and thrown away. -/

namespace Zinc.Network

open Throw Buffer Buffer.ByteBuffer Pacing

/-- `SrvCtlConnection::State`. -/
inductive SrvCtlState where
  | handshake
  | login
  | config
  | execution
  deriving DecidableEq

/-- `SrvCtlConnection` with the two ends of its socket. -/
structure SrvCtlConnection where
  input : Bytes
  output : List Bytes
  state : SrvCtlState

namespace SrvCtlConnection

def new : SrvCtlConnection := ⟨[], [], .handshake⟩

/-- The status message: its length, the id -1 and a state. -/
def writeStatus (state : UInt8) : Action Unit := do
  writeNumeric (k := 8) (BitVec.ofNat 64 (1 + getVarNumericLength (k := 4) (-1)))
  writeVarInt (-1)
  writeByte state

def sendStatus (state : UInt8) (connection : SrvCtlConnection) : Except Fault SrvCtlConnection := do
  let ((), resultBuffer) ← writeStatus state .new
  return { connection with output := connection.output ++ [resultBuffer.getBytes] }

/-- The answer to an input without a whole frame. -/
def reject (buffer : ByteBuffer) (connection : SrvCtlConnection) : Except Fault SrvCtlConnection :=
  { connection with input := TCPUtil.drain connection.input buffer.size }.sendStatus (-1)

/-- The handlers of a packet. -/
def switch (packetId : BitVec 32) (connection : SrvCtlConnection) : Except Fault SrvCtlConnection :=
  match connection.state with
  | .handshake => { connection with state := .login }.sendStatus 1
  | .login => if packetId = 0 then .ok connection else connection.sendStatus (-1)
  | _ => connection.sendStatus (-2)

/-- `SrvCtlServer::onRead`, with the bytes of the frame if there was one. -/
def onRead (connection : SrvCtlConnection) : Except Fault (Option Bytes × SrvCtlConnection) := do
  let buffer ← TCPUtil.read connection.input
  if buffer.size < 9 then do
    let connection ← connection.reject buffer
    return (none, connection)
  else
    let (length, buffer) ← readNumeric 8 buffer
    if buffer.size < (length.toNat + 8) % sizeRange then do
      let connection ← connection.reject buffer
      return (none, connection)
    else
      let (packetId, _) ← readVarInt buffer
      let drained := (8 + length.toNat) % sizeRange
      let frame := connection.input.take drained
      let connection := { connection with input := TCPUtil.drain connection.input drained }
      let connection ← connection.switch packetId
      return (some frame, connection)

/-- Chunks that arrive one after another, each followed by a call of `onRead`. -/
def onReads : List Bytes → SrvCtlConnection → Except Fault (List (Option Bytes) × SrvCtlConnection)
  | [], connection => .ok ([], connection)
  | chunk :: chunks, connection => do
    let (frame, connection) ← onRead { connection with input := connection.input ++ chunk }
    let (frames, connection) ← onReads chunks connection
    return (frame :: frames, connection)

end SrvCtlConnection

/-- A control frame: the length and the bytes that it counts. -/
structure ControlFrame where
  data : Bytes
  length_pos : 1 ≤ data.length
  length_lt : data.length < 2 ^ 64

def ControlFrame.bytes (frame : ControlFrame) : Bytes :=
  numericBytes (k := 8) true (BitVec.ofNat 64 frame.data.length) ++ frame.data

/-! ### One call -/

namespace SrvCtlConnection

variable {connection connection' : SrvCtlConnection} {input : Bytes}

/-- The size that the first eight bytes announce. -/
def frameSize (input : Bytes) : ℕ := (8 + (numericOfBytes true 8 (input.take 8)).toNat) % sizeRange

/-- What a call does to the input. -/
def receive : Receiver UInt8 := fun input =>
  if maxSize < input.length then none
  else if input.length < 9 ∨ input.length < frameSize input then some (none, [])
  else some (some (input.take (frameSize input)), input.drop (frameSize input))

/-- The bytes of a status message. -/
def statusBytes (state : UInt8) : Bytes :=
  numericBytes (k := 8) true (BitVec.ofNat 64 (1 + getVarNumericLength (k := 4) (-1))) ++
    (varNumericBytes (varNumericMaxSize 4) (-1 : BitVec 32) ++ [state])

theorem sendStatus_eq (state : UInt8) (connection : SrvCtlConnection) : connection.sendStatus state =
    .ok { connection with output := connection.output ++ [statusBytes state] } := by
  have hv := writable_fresh true
  have hwrite : Produces (Fresh true) (writeStatus state) (statusBytes state) :=
    (hv.writeNumeric (k := 8) (BitVec.ofNat 64 (1 + getVarNumericLength (k := 4) (-1)))).bind
      ((hv.writeVarNumeric (k := 4) (-1)).bind (hv.writeByte state))
  obtain ⟨buffer, hbuffer, hfresh⟩ := hwrite .new [] fresh_new
  have hbytes : buffer.getBytes = statusBytes state := hfresh.getBytes
  rw [sendStatus, hbuffer, ok_bind]
  simp only [hbytes, pure_eq]

/-- No handler touches the input. -/
theorem switch_total (packetId : BitVec 32) (connection : SrvCtlConnection) : ∃ output state,
    connection.switch packetId = .ok { connection with output := output, state := state } := by
  unfold switch
  simp only [sendStatus_eq]
  split
  · exact ⟨_, .login, rfl⟩
  · split
    · exact ⟨connection.output, connection.state, rfl⟩
    · exact ⟨_, connection.state, rfl⟩
  · exact ⟨_, connection.state, rfl⟩

theorem reject_eq (buffer : ByteBuffer) (hsize : buffer.size = connection.input.length) :
    connection.reject buffer =
      .ok { connection with input := [], output := connection.output ++ [statusBytes (-1)] } := by
  rw [reject, sendStatus_eq, TCPUtil.drain, hsize, List.drop_length]

theorem readNumeric_ahead {size : ℕ} {buffer : ByteBuffer} {a : Bytes} (h : Ahead true size buffer a)
    (ha : 8 ≤ a.length) : ∃ buffer', readNumeric 8 buffer = .ok (numericOfBytes true 8 (a.take 8), buffer') ∧
      Ahead true size buffer' (a.drop 8) := by
  have hlength : (a.take 8).length = 8 := List.length_take_of_le ha
  have hread := (readable_ahead true size).readBytes (a.take 8) (by rw [hlength]; decide)
  rw [hlength] at hread
  obtain ⟨buffer', hbuffer, hahead⟩ := hread buffer (a.drop 8) (by rwa [List.take_append_drop])
  refine ⟨buffer', ?_, hahead⟩
  rw [readNumeric, hbuffer, ok_bind]
  simp only [hahead.endian, pure_eq]

/-- A call without a whole frame answers with an error and keeps nothing; every other call
takes one frame. -/
theorem onRead_eq (hmax : connection.input.length ≤ maxSize) : connection.onRead =
    if connection.input.length < 9 ∨ connection.input.length < frameSize connection.input then
      .ok (none, ⟨[], connection.output ++ [statusBytes (-1)], connection.state⟩)
    else do
      let connection' ← { connection with
        input := connection.input.drop (frameSize connection.input) }.switch
          (varInt ((memory connection.input).drop 8))
      return (some (connection.input.take (frameSize connection.input)), connection') := by
  obtain ⟨hwrite, hfresh⟩ := writeBytes_new connection.input
  have hsize := hfresh.size
  have hmemory : 4096 ≤ (memory connection.input).length := length_memory connection.input
  have hread : TCPUtil.read connection.input = .ok (ofBytes connection.input) := by
    rw [TCPUtil.read, if_neg (Nat.not_lt.mpr hmax), hwrite]
    rfl
  unfold onRead
  rw [hread, ok_bind]
  by_cases hshort : connection.input.length < 9
  · have hrejected : connection.input.length < 9 ∨
        connection.input.length < frameSize connection.input := .inl hshort
    rw [if_pos hrejected, if_pos (by rwa [hsize]), reject_eq _ hsize]
    rfl
  · rw [if_neg (by rwa [hsize])]
    obtain ⟨buffer₁, h₁, hahead₁⟩ := readNumeric_ahead hfresh.ahead (by omega)
    have htake : (memory connection.input).take 8 = connection.input.take 8 :=
      List.take_append_of_le_length (by omega)
    have hsize₁ := hahead₁.size_eq
    rw [h₁, ok_bind, htake]
    have hannounced : ((numericOfBytes true 8 (connection.input.take 8)).toNat + 8) % sizeRange =
        frameSize connection.input := by
      rw [frameSize, Nat.add_comm]
    simp only [hannounced, hsize₁]
    by_cases hpart : connection.input.length < frameSize connection.input
    · simp only [if_pos hpart, if_pos (Or.inr hpart), reject_eq _ hsize₁, ok_bind]
      rfl
    · obtain ⟨buffer₂, h₂, -⟩ := readVarInt_ahead hahead₁ (by rw [List.length_drop]; omega)
      rw [if_neg hpart, if_neg (not_or.mpr ⟨hshort, hpart⟩)]
      simp only [h₂, ok_bind]
      rfl

/-- A call does to the input what `receive` says. -/
theorem onRead_of_receive {taken : Option Bytes} {rest : Bytes}
    (h : receive connection.input = some (taken, rest)) :
    ∃ output state, connection.onRead = .ok (taken, ⟨rest, output, state⟩) := by
  unfold receive at h
  split at h
  next => cases h
  next hmax =>
    rw [onRead_eq (Nat.not_lt.mp hmax)]
    split at h
    next hpart =>
      cases h
      rw [if_pos hpart]
      exact ⟨_, connection.state, rfl⟩
    next hwhole =>
      cases h
      obtain ⟨output, state, hswitch⟩ := switch_total (varInt ((memory connection.input).drop 8))
        { connection with input := connection.input.drop (frameSize connection.input) }
      rw [if_neg hwhole, hswitch]
      exact ⟨output, state, rfl⟩

theorem onRead_of_receive_none (h : receive connection.input = none) :
    connection.onRead = .error .lengthError := by
  unfold receive at h
  split at h
  next hmax =>
    rw [onRead, TCPUtil.read, if_pos hmax]
    rfl
  next =>
    split at h <;> cases h

/-- Calls for chunks take the frames that the receiver takes. -/
theorem onReads_of_feed {chunks : List Bytes} {takens : List (Option Bytes)} {rest : Bytes}
    (h : feed receive chunks connection.input = some (takens, rest)) :
    ∃ output state, connection.onReads chunks = .ok (takens, ⟨rest, output, state⟩) := by
  induction chunks generalizing connection takens with
  | nil =>
    cases h
    exact ⟨connection.output, connection.state, rfl⟩
  | cons chunk chunks ih =>
    obtain ⟨taken, rest₁, takens₁, hreceive, hlater, rfl⟩ := feed_cons.mp h
    obtain ⟨output₁, state₁, hone⟩ := @onRead_of_receive
      { connection with input := connection.input ++ chunk } taken rest₁ hreceive
    obtain ⟨output, state, hmore⟩ := @ih ⟨rest₁, output₁, state₁⟩ takens₁ hlater
    refine ⟨output, state, ?_⟩
    rw [onReads, hone, ok_bind]
    change (onReads chunks ⟨rest₁, output₁, state₁⟩ >>= _) = _
    rw [hmore]
    rfl

theorem onReads_of_feed_none {chunks : List Bytes} (h : feed receive chunks connection.input = none) :
    connection.onReads chunks = .error .lengthError := by
  induction chunks generalizing connection with
  | nil => cases h
  | cons chunk chunks ih =>
    rw [onReads]
    cases hreceive : receive (connection.input ++ chunk) with
    | none =>
      rw [@onRead_of_receive_none { connection with input := connection.input ++ chunk } hreceive]
      rfl
    | some received =>
      obtain ⟨taken, rest₁⟩ := received
      obtain ⟨output₁, state₁, hone⟩ := @onRead_of_receive
        { connection with input := connection.input ++ chunk } taken rest₁ hreceive
      have hlater : feed receive chunks rest₁ = none := by
        rw [feed, hreceive] at h
        cases hfeed : feed receive chunks rest₁ with
        | none => rfl
        | some later => simp [hfeed] at h
      rw [hone, ok_bind]
      change (onReads chunks ⟨rest₁, output₁, state₁⟩ >>= _) = _
      rw [@ih ⟨rest₁, output₁, state₁⟩ hlater]
      rfl

/-! ### Frames -/

theorem regular_receive : Regular receive maxSize where
  full buffered h := if_pos h
  empty := by
    rw [receive, if_neg (by simp), if_pos (.inl (by simp))]
  drops buffered rest h := by
    unfold receive at h
    split at h
    next => cases h
    next =>
      split at h
      next => exact ((Prod.mk.inj (Option.some.inj h)).2).symm
      next => cases h
  conserves buffered taken rest h := by
    unfold receive at h
    split at h
    next => cases h
    next =>
      split at h
      next =>
        cases h
        simp
      next =>
        cases h
        rw [Option.getD_some, ← List.length_append, List.take_append_drop]

end SrvCtlConnection

namespace ControlFrame

open SrvCtlConnection

variable (frame : ControlFrame)

theorem length_bytes : frame.bytes.length = 8 + frame.data.length := by
  rw [bytes, List.length_append, length_numericBytes]

/-- The length in front of a frame that fits does not wrap. -/
theorem frameSize_bytes (rest : Bytes) (h : frame.bytes.length ≤ maxSize) :
    frameSize (frame.bytes ++ rest) = frame.bytes.length := by
  have htake : (frame.bytes ++ rest).take 8 =
      numericBytes (k := 8) true (BitVec.ofNat 64 frame.data.length) := by
    rw [bytes, List.append_assoc, List.take_left' (length_numericBytes ..)]
  have hlength := frame.length_bytes
  rw [frameSize, htake, numericOfBytes_numericBytes, BitVec.toNat_ofNat, Nat.mod_eq_of_lt frame.length_lt,
    ← hlength, Nat.mod_eq_of_lt]
  exact lt_of_le_of_lt h (by decide)

theorem takes_bytes : Takes receive maxSize frame.bytes := by
  have hpos := frame.length_pos
  have hlength := frame.length_bytes
  refine ⟨fun hnil => ?_, fun rest hlimit => ?_⟩
  · rw [hnil, List.length_nil] at hlength
    omega
  · have hfits : frame.bytes.length ≤ maxSize := by
      rw [List.length_append] at hlimit
      omega
    have hsize := frame.frameSize_bytes rest hfits
    have hwhole : ¬ ((frame.bytes ++ rest).length < 9 ∨
        (frame.bytes ++ rest).length < frameSize (frame.bytes ++ rest)) := by
      rw [hsize, List.length_append]
      omega
    rw [receive, if_neg (Nat.not_lt.mpr hlimit), if_neg hwhole, hsize, List.take_left, List.drop_left]

end ControlFrame

open SrvCtlConnection

/-- Frames in chunks are processed in order, each once and all of them, and no chunk that ends
inside a frame is turned away. -/
def Processes (frames : List ControlFrame) (chunks : List Bytes) (connection : SrvCtlConnection) : Prop :=
  ∃ processed connection', connection.onReads chunks = .ok (processed, connection') ∧
    Delivers (frames.map ControlFrame.bytes) chunks processed

/-- The calls are paced: each finds nothing or the whole frame at the front, within what a
vector can hold, and the last frame is taken as well. -/
def PacedCalls (frames : List ControlFrame) (chunks : List Bytes) : Prop :=
  Paced maxSize 0 (frames.map fun frame => 8 + frame.data.length) (chunks.map List.length)

theorem processes_iff_feed {frames : List ControlFrame} {chunks : List Bytes} {connection : SrvCtlConnection}
    (hinput : connection.input = []) : Processes frames chunks connection ↔
      ∃ takens rest, feed receive chunks [] = some (takens, rest) ∧
        Delivers (frames.map ControlFrame.bytes) chunks takens := by
  constructor
  · rintro ⟨processed, connection', hreads, hdelivers⟩
    cases hfeed : feed receive chunks connection.input with
    | none =>
      rw [onReads_of_feed_none hfeed] at hreads
      cases hreads
    | some result =>
      obtain ⟨takens, rest⟩ := result
      obtain ⟨output, state, hok⟩ := onReads_of_feed hfeed
      obtain ⟨rfl, -⟩ := Prod.mk.inj (Except.ok.inj (hok.symm.trans hreads))
      rw [hinput] at hfeed
      exact ⟨takens, rest, hfeed, hdelivers⟩
  · rintro ⟨takens, rest, hfeed, hdelivers⟩
    rw [← hinput] at hfeed
    obtain ⟨output, state, hok⟩ := onReads_of_feed hfeed
    exact ⟨takens, _, hok, hdelivers⟩

theorem processes_iff_paced {frames : List ControlFrame} {chunks : List Bytes}
    {connection : SrvCtlConnection} (hinput : connection.input = [])
    (hstream : chunks.flatten = (frames.map ControlFrame.bytes).flatten) :
    Processes frames chunks connection ↔ PacedCalls frames chunks := by
  have htakes : ∀ frame ∈ frames.map ControlFrame.bytes, Takes receive maxSize frame := by
    intro bytes hmem
    obtain ⟨frame, -, rfl⟩ := List.mem_map.mp hmem
    exact frame.takes_bytes
  have hlengths : (frames.map ControlFrame.bytes).map List.length =
      frames.map fun frame => 8 + frame.data.length := by
    rw [List.map_map]
    exact List.map_congr_left fun frame _ => frame.length_bytes
  rw [processes_iff_feed hinput, delivers_iff_paced regular_receive htakes hstream, hlengths, PacedCalls]

/-- A frame with one byte. -/
def smallFrame : ControlFrame := ⟨[0], by decide, by decide⟩

/-- Two frames that arrive one by one. -/
theorem processes_iff_paced_each : Processes [smallFrame, smallFrame] [smallFrame.bytes, smallFrame.bytes] .new := by
  have hpaced : PacedCalls [smallFrame, smallFrame] [smallFrame.bytes, smallFrame.bytes] := by
    simp only [PacedCalls, List.map_cons, List.map_nil, ControlFrame.length_bytes, smallFrame,
      List.length_singleton, Paced]
    decide
  exact (processes_iff_paced rfl rfl).mpr hpaced

/-- A frame that arrives in two pieces is turned away twice. -/
theorem not_processes : ¬ Processes [smallFrame] [smallFrame.bytes.take 4, smallFrame.bytes.drop 4] .new := by
  intro h
  obtain ⟨takens, rest, hfeed, hdelivers⟩ := (processes_iff_feed rfl).mp h
  have htwice : feed receive [smallFrame.bytes.take 4, smallFrame.bytes.drop 4] [] = some ([none, none], []) := by
    decide +kernel
  rw [htwice] at hfeed
  cases hfeed
  have hcomplete := hdelivers.complete
  cases hcomplete

/-! ### Lengths near the end of a `size_t` -/

/-- The length in the first eight bytes. -/
def announced (input : Bytes) : ℕ := (numericOfBytes true 8 (input.take 8)).toNat

/-- A call that takes a frame finds all of it in the input and drains it, whatever its length. -/
def TakesAnnounced (connection : SrvCtlConnection) : Prop :=
  ∀ frame connection', connection.onRead = .ok (some frame, connection') →
    8 + announced connection.input ≤ connection.input.length ∧
      connection'.input = connection.input.drop (8 + announced connection.input)

/-- A sum that does not wrap is the size of the frame; otherwise it is less than eight. -/
theorem frameSize_of_lt {input : Bytes} (h : 8 + announced input < 2 ^ 64) :
    frameSize input = 8 + announced input := Nat.mod_eq_of_lt h

theorem frameSize_lt_of_le {input : Bytes} (h : 2 ^ 64 ≤ 8 + announced input) : frameSize input < 8 := by
  have hlt : announced input < 2 ^ 64 := (numericOfBytes true 8 (input.take 8)).isLt
  change (8 + announced input) % 2 ^ 64 < 8
  omega

theorem onRead_takes {connection : SrvCtlConnection} (hmax : connection.input.length ≤ maxSize)
    (hnine : 9 ≤ connection.input.length)
    (hwhole : frameSize connection.input ≤ connection.input.length) : ∃ output state,
    connection.onRead = .ok (some (connection.input.take (frameSize connection.input)),
      ⟨connection.input.drop (frameSize connection.input), output, state⟩) := by
  apply onRead_of_receive
  rw [receive, if_neg (Nat.not_lt.mpr hmax), if_neg (by omega)]

/-- A short input is not taken, and one that is longer than a vector is not read; every other call
relies on a sum that does not wrap. -/
theorem takesAnnounced_iff (connection : SrvCtlConnection) : TakesAnnounced connection ↔
    connection.input.length < 9 ∨ maxSize < connection.input.length ∨
      8 + announced connection.input < 2 ^ 64 := by
  constructor
  · intro h
    by_contra hnot
    obtain ⟨hnine, hmax, hwraps⟩ : 9 ≤ connection.input.length ∧ connection.input.length ≤ maxSize ∧
        2 ^ 64 ≤ 8 + announced connection.input := by omega
    have hsmall := frameSize_lt_of_le hwraps
    obtain ⟨output, state, hread⟩ := onRead_takes hmax hnine (by omega)
    have hholds := (h _ _ hread).1
    unfold maxSize at hmax
    omega
  · intro h frame connection' hread
    by_cases hmax : connection.input.length ≤ maxSize
    · by_cases hwhole : 9 ≤ connection.input.length ∧
          frameSize connection.input ≤ connection.input.length
      · obtain ⟨output, state, htaken⟩ := onRead_takes hmax hwhole.1 hwhole.2
        obtain ⟨-, rfl⟩ := Prod.mk.inj (Except.ok.inj (htaken.symm.trans hread))
        have hfits : 8 + announced connection.input < 2 ^ 64 := by omega
        rw [← frameSize_of_lt hfits]
        exact ⟨hwhole.2, rfl⟩
      · rw [onRead_eq hmax, if_pos (by omega)] at hread
        cases hread
    · rw [onRead_of_receive_none (if_pos (Nat.not_le.mp hmax))] at hread
      cases hread

/-- A length of `2 ^ 64 - 1` in front of one byte: the sum is 7, and seven bytes are drained. -/
theorem not_takesAnnounced : ¬ ∀ connection, TakesAnnounced connection := by
  intro h
  have hmax : (List.replicate 8 255 ++ [0] : Bytes).length ≤ maxSize := show 9 ≤ maxSize by
    unfold maxSize
    omega
  have hsize : frameSize (List.replicate 8 255 ++ [0]) = 7 := by decide +kernel
  obtain ⟨output, state, hread⟩ := @onRead_takes ⟨List.replicate 8 255 ++ [0], [], .handshake⟩ hmax
    (by decide) (by rw [hsize]; decide)
  have hholds := (h _ _ _ hread).1
  exact absurd hholds (by decide +kernel)

end Zinc.Network
