import Zinc.Buffer.RoundTrip
import Zinc.Loader.ServerMessenger

/-! The replies of `ZincServerMessenger::parseMessage`. A request begins with a flag, the id of a
callback if the flag is set, and a type. The reply begins with the size of the id, narrowed to
a byte, as its flag; the id itself is written whenever it is not empty. A `value` and a `call` of
anything but `base.test` are answered by this header alone. -/

namespace Zinc.Loader

open Throw Buffer ByteBuffer ZincMessengerBridge

/-! ### Parsing -/

/-- The flag, the callback id and the type of a packet. -/
def readHeader : Action (Bytes × Bytes) := do
  let hasCallbackId ← readByte
  let callbackId ← if hasCallbackId ≠ 0 then readPrefixedArray readUnsignedByte else pure []
  let type ← readString
  pure (callbackId, type)

def writeReplyHeader (callbackId : Bytes) : Action Unit := do
  writeByte (UInt8.ofNat callbackId.length)
  if callbackId.length ≠ 0 then writePrefixedArray callbackId writeUnsignedByte else pure ()

def writeTestReply : Action Unit := do
  writeString (utf8 "value")
  writeString (utf8 "bool")
  writeByte 1

def writeWrongPacket : Action Unit := do
  writeString (utf8 "value")
  writeString (utf8 "error")
  writeString (utf8 "wrong_packet")
  writeString (utf8 "Unknown SDK packet type")

/-- The reply buffer of `parseMessage`. -/
def reply (message : Bytes) : Except Fault ByteBuffer := do
  let ((), buffer) ← writeArray message writeUnsignedByte .new
  let ((callbackId, type), buffer) ← readHeader buffer
  let ((), replyBuffer) ← writeReplyHeader callbackId .new
  if type = utf8 "value" then
    let (_valueType, _) ← readString buffer
    return replyBuffer
  else if type = utf8 "call" then
    let (operation, _) ← readString buffer
    if operation = utf8 "base.test" then
      let ((), replyBuffer) ← writeTestReply replyBuffer
      return replyBuffer
    else return replyBuffer
  else
    let ((), replyBuffer) ← writeWrongPacket replyBuffer
    return replyBuffer

def parseMessage (sender message : Bytes) (messaging : Messaging) : Except Fault Messaging := do
  let replyBuffer ← reply message
  if replyBuffer.size ≠ 0 then
    let (data, _) ← readArray readUnsignedByte replyBuffer.size replyBuffer
    return { messaging with
      bridge := messaging.bridge.send sender messaging.messenger.serverMessengerId data }
  else return messaging

/-! ### Requests -/

/-- The pieces of a message; the argument is the string behind the types that have one. -/
structure Request where
  flag : UInt8
  callbackId : Bytes
  type : Bytes
  argument : Bytes
  rest : Bytes

namespace Request

def HasArgument (request : Request) : Prop :=
  request.type = utf8 "value" ∨ request.type = utf8 "call"

instance (request : Request) : Decidable request.HasArgument := inferInstanceAs (Decidable (_ ∨ _))

structure WellFormed (request : Request) : Prop where
  callbackId_of_flag : request.flag ≠ 0 →
    0 < request.callbackId.length ∧ request.callbackId.length < 2 ^ 31
  callbackId_of_not : request.flag = 0 → request.callbackId = []
  type : request.type.length < 2 ^ 31
  argument : request.argument.length < 2 ^ 31

end Request

/-- A flag, and the id behind it if the flag is set. -/
def headerBytes (flag : UInt8) (callbackId : Bytes) : Bytes :=
  flag :: if flag ≠ 0 then prefixedBytes (fun c => [c]) callbackId else []

namespace Request

def bytes (request : Request) : Bytes :=
  headerBytes request.flag request.callbackId ++ stringBytes request.type ++
    ((if request.HasArgument then stringBytes request.argument else []) ++ request.rest)

/-- A call of `base.test`, or a packet of an unknown type. -/
def Answered (request : Request) : Prop :=
  request.type ≠ utf8 "value" ∧ (request.type = utf8 "call" → request.argument = utf8 "base.test")

instance (request : Request) : Decidable request.Answered := inferInstanceAs (Decidable (_ ∧ _))

/-- The type of the reply, if it has one. -/
def replyType (request : Request) : Option Bytes :=
  if request.Answered then some (utf8 "value") else none

/-- What the reply has behind its type. -/
def replyRest (request : Request) : Bytes :=
  if request.type = utf8 "call" then stringBytes (utf8 "bool") ++ [1]
  else stringBytes (utf8 "error") ++
    (stringBytes (utf8 "wrong_packet") ++ stringBytes (utf8 "Unknown SDK packet type"))

/-- What the reply has behind its header. -/
def replyBody (request : Request) : Bytes :=
  match request.replyType with
  | some type => stringBytes type ++ request.replyRest
  | none => []

/-- The reply. -/
def replyBytes (request : Request) : Bytes :=
  UInt8.ofNat request.callbackId.length ::
      (if request.callbackId ≠ [] then prefixedBytes (fun c => [c]) request.callbackId else []) ++
    request.replyBody

end Request

variable {e : Bool} {view : ByteBuffer → Bytes → Prop} {flag : UInt8} {callbackId type : Bytes}
  {request : Request}

/-! ### Headers -/

theorem consumes_readHeader (hv : Readable e view) (hid : flag = 0 → callbackId = [])
    (hcount : callbackId.length < 2 ^ 31) (htype : type.length < 2 ^ 31) :
    Consumes view readHeader (headerBytes flag callbackId ++ stringBytes type) (callbackId, type) := by
  have hstring : Consumes view (readString >>= fun type => pure (callbackId, type))
      (stringBytes type) (callbackId, type) := (hv.readString htype).bind_pure (callbackId, ·)
  refine (hv.readByte flag).bind (v := [flag]) ?_
  by_cases hflag : flag = 0
  · obtain rfl := hid hflag
    simp only [hflag, ne_eq, not_true_eq_false, if_false]
    exact (Consumes.pure []).bind (v := []) hstring
  · have harray : Consumes view (readPrefixedArray readUnsignedByte)
        (prefixedBytes (fun c => [c]) callbackId) (callbackId.map id) :=
      hv.readPrefixedArray_map (counted_of_lt hcount) fun c _ => hv.readByte c
    rw [List.map_id] at harray
    simp only [hflag, ne_eq, not_false_eq_true, if_true]
    exact harray.bind hstring

/-- Behind the flag 0 no id is read. -/
theorem fst_of_readHeader (hv : Readable e view) {rest : Bytes} {buffer buffer' : ByteBuffer}
    (hbuffer : view buffer (0 :: rest))
    (h : readHeader buffer = .ok ((callbackId, type), buffer')) : callbackId = [] := by
  obtain ⟨behind, hflag, -⟩ := hv.readByte 0 buffer rest hbuffer
  rw [readHeader, bind_of_eq_ok hflag] at h
  simp only [ne_eq, not_true_eq_false, if_false] at h
  rw [pure_bind, bind_apply] at h
  obtain ⟨⟨type', buffer''⟩, -, hpair⟩ := bind_eq_ok.mp h
  cases hpair
  rfl

theorem produces_writeReplyHeader (hv : Writable e view) (callbackId : Bytes) :
    Produces view (writeReplyHeader callbackId) (UInt8.ofNat callbackId.length ::
      if callbackId ≠ [] then prefixedBytes (fun c => [c]) callbackId else []) := by
  have hid : Produces view
      (if callbackId.length ≠ 0 then writePrefixedArray callbackId writeUnsignedByte else pure ())
      (if callbackId ≠ [] then prefixedBytes (fun c => [c]) callbackId else []) := by
    cases callbackId with
    | nil => exact Produces.pure
    | cons c cs => exact hv.writePrefixedArray fun c _ => hv.writeByte c
  exact (hv.writeByte _).bind hid

theorem produces_writeTestReply (hv : Writable e view) : Produces view writeTestReply
    (stringBytes (utf8 "value") ++ (stringBytes (utf8 "bool") ++ [1])) :=
  (hv.writeString _).bind ((hv.writeString _).bind (hv.writeByte 1))

theorem produces_writeWrongPacket (hv : Writable e view) : Produces view writeWrongPacket
    (stringBytes (utf8 "value") ++ (stringBytes (utf8 "error") ++
      (stringBytes (utf8 "wrong_packet") ++ stringBytes (utf8 "Unknown SDK packet type")))) :=
  (hv.writeString _).bind ((hv.writeString _).bind ((hv.writeString _).bind (hv.writeString _)))

/-! ### Replies -/

theorem Request.replyBody_of (h : request.Answered) :
    request.replyBody = stringBytes (utf8 "value") ++ request.replyRest := by
  rw [replyBody, replyType, if_pos h]

theorem Request.replyBody_of_not (h : ¬ request.Answered) : request.replyBody = [] := by
  rw [replyBody, replyType, if_neg h]

theorem Request.WellFormed.length_lt (h : request.WellFormed) :
    request.callbackId.length < 2 ^ 31 := by
  by_cases hflag : request.flag = 0
  · rw [h.callbackId_of_not hflag]
    decide
  · exact (h.callbackId_of_flag hflag).2

/-- What `parseMessage` writes for a well-formed request. -/
theorem reply_bytes (h : request.WellFormed) :
    ∃ replyBuffer, reply request.bytes = .ok replyBuffer ∧ Fresh true replyBuffer request.replyBytes := by
  obtain ⟨buffer, hwrite, hfresh⟩ := writeArray_new request.bytes
  obtain ⟨behind, hheader, hbehind⟩ := consumes_readHeader (readable_stored true)
    h.callbackId_of_not h.length_lt h.type buffer _ hfresh.1
  obtain ⟨headed, hreply, hheaded⟩ := produces_writeReplyHeader (writable_fresh true)
    request.callbackId .new [] fresh_new
  have hargument : request.HasArgument →
      ∃ rest, readString behind = .ok (request.argument, rest) := by
    intro harg
    rw [if_pos harg] at hbehind
    obtain ⟨rest, hread, -⟩ := (readable_stored true).readString h.argument behind _ hbehind
    exact ⟨rest, hread⟩
  rw [List.nil_append] at hheaded
  rw [reply, hwrite, ok_bind]
  dsimp only
  rw [hheader, ok_bind]
  dsimp only
  rw [hreply, ok_bind]
  dsimp only
  have hbody : request.replyBytes = (UInt8.ofNat request.callbackId.length ::
      if request.callbackId ≠ [] then prefixedBytes (fun c => [c]) request.callbackId else []) ++
        request.replyBody := rfl
  rw [hbody]
  by_cases hvalue : request.type = utf8 "value"
  · obtain ⟨rest, hread⟩ := hargument (.inl hvalue)
    have hnone := Request.replyBody_of_not fun hanswered => hanswered.1 hvalue
    rw [if_pos hvalue, hread, ok_bind, hnone, List.append_nil]
    exact ⟨headed, rfl, hheaded⟩
  rw [if_neg hvalue]
  by_cases hcall : request.type = utf8 "call"
  · obtain ⟨rest, hread⟩ := hargument (.inr hcall)
    rw [if_pos hcall, hread, ok_bind]
    dsimp only
    by_cases htest : request.argument = utf8 "base.test"
    · obtain ⟨written, htested, hwritten⟩ := produces_writeTestReply (writable_fresh true) headed _ hheaded
      have hsome : request.replyBody = stringBytes (utf8 "value") ++ (stringBytes (utf8 "bool") ++ [1]) := by
        rw [Request.replyBody_of ⟨hvalue, fun _ => htest⟩, Request.replyRest, if_pos hcall]
      rw [if_pos htest, htested, ok_bind, hsome]
      exact ⟨written, rfl, hwritten⟩
    · have hnone := Request.replyBody_of_not fun hanswered => htest (hanswered.2 hcall)
      rw [if_neg htest, hnone, List.append_nil]
      exact ⟨headed, rfl, hheaded⟩
  · obtain ⟨written, hwrong, hwritten⟩ := produces_writeWrongPacket (writable_fresh true) headed _ hheaded
    have hsome : request.replyBody = stringBytes (utf8 "value") ++ (stringBytes (utf8 "error") ++
        (stringBytes (utf8 "wrong_packet") ++ stringBytes (utf8 "Unknown SDK packet type"))) := by
      rw [Request.replyBody_of ⟨hvalue, fun h => absurd h hcall⟩, Request.replyRest, if_neg hcall]
    rw [if_neg hcall, hwrong, ok_bind, hsome]
    exact ⟨written, rfl, hwritten⟩

/-- The reply reaches the bridge. -/
theorem parseMessage_eq (h : request.WellFormed) (sender : Bytes) (messaging : Messaging) :
    parseMessage sender request.bytes messaging = .ok { messaging with
      bridge := messaging.bridge.send sender messaging.messenger.serverMessengerId
        request.replyBytes } := by
  obtain ⟨replyBuffer, hreply, hfresh⟩ := reply_bytes h
  obtain ⟨rest, hread⟩ := readArray_fresh hfresh
  have hsize : replyBuffer.size ≠ 0 := by
    rw [hfresh.size]
    exact Nat.succ_ne_zero _
  rw [parseMessage, hreply, ok_bind, if_pos hsize, hread]
  rfl

theorem ofNat_eq_zero_iff (n : ℕ) : UInt8.ofNat n = 0 ↔ n % 256 = 0 := by
  rw [← UInt8.toNat_inj, UInt8.toNat_ofNat']
  rfl

/-- An answered request is replied to with the id, if the flag says so, and a type. -/
theorem replyBytes_of_answered (h : request.Answered)
    (hsize : request.callbackId.length % 256 = 0 → request.callbackId = []) :
    request.replyBytes = headerBytes (UInt8.ofNat request.callbackId.length) request.callbackId ++
      stringBytes (utf8 "value") ++ request.replyRest := by
  have hflag : UInt8.ofNat request.callbackId.length ≠ 0 ↔ request.callbackId ≠ [] := by
    rw [ne_eq, ofNat_eq_zero_iff]
    refine not_congr ⟨hsize, fun hempty => ?_⟩
    rw [hempty]
    rfl
  rw [Request.replyBytes, Request.replyBody_of h, headerBytes, ← List.append_assoc]
  simp only [hflag]

/-- The reply to a well-formed request begins with the id and the type of a packet exactly when
the request is answered and the size of its id is no multiple of 256 other than 0. -/
theorem reply_header_iff (sender : Bytes) (messaging : Messaging) (request : Request)
    (h : request.WellFormed) : ∃ reply,
    parseMessage sender request.bytes messaging = .ok { messaging with
      bridge := messaging.bridge.send sender messaging.messenger.serverMessengerId reply } ∧
    ((∃ type buffer', request.replyType = some type ∧
        readHeader (ofBytes reply) = .ok ((request.callbackId, type), buffer')) ↔
      request.Answered ∧ (request.callbackId.length % 256 = 0 → request.callbackId = [])) := by
  refine ⟨request.replyBytes, parseMessage_eq h sender messaging, ?_⟩
  have hstored := (writeBytes_new request.replyBytes).2.1
  constructor
  · rintro ⟨type, buffer', htype, hread⟩
    have hanswered : request.Answered := by
      by_contra hnot
      rw [Request.replyType, if_neg hnot] at htype
      cases htype
    refine ⟨hanswered, fun hzero => ?_⟩
    rw [Request.replyBytes, (ofNat_eq_zero_iff _).mpr hzero] at hstored hread
    exact fst_of_readHeader (readable_stored true) hstored hread
  · rintro ⟨hanswered, hsize⟩
    have hid : UInt8.ofNat request.callbackId.length = 0 → request.callbackId = [] := fun hzero =>
      hsize ((ofNat_eq_zero_iff _).mp hzero)
    rw [replyBytes_of_answered hanswered hsize] at hstored ⊢
    obtain ⟨buffer', hread, -⟩ := consumes_readHeader (readable_stored true) hid h.length_lt
      (by decide) _ _ hstored
    exact ⟨utf8 "value", buffer', if_pos hanswered, hread⟩

/-- A call of `base.test` whose callback has the given id. -/
def testCall (callbackId : Bytes) : Request := ⟨1, callbackId, utf8 "call", utf8 "base.test", []⟩

theorem wellFormed_testCall {callbackId : Bytes} (h : 0 < callbackId.length)
    (hlt : callbackId.length < 2 ^ 31) : (testCall callbackId).WellFormed where
  callbackId_of_flag _ := ⟨h, hlt⟩
  callbackId_of_not hflag := absurd hflag (show (1 : UInt8) ≠ 0 by decide)
  type := show (utf8 "call").length < 2 ^ 31 by decide
  argument := show (utf8 "base.test").length < 2 ^ 31 by decide

theorem answered_testCall (callbackId : Bytes) : (testCall callbackId).Answered :=
  ⟨show utf8 "call" ≠ utf8 "value" by decide, fun _ => rfl⟩

theorem reply_header_short : ∃ reply,
    parseMessage [1] (testCall [9]).bytes (.start [7]) = .ok ⟨(Messaging.start [7]).bridge.send [1]
      (Messaging.start [7]).messenger.serverMessengerId reply, (Messaging.start [7]).messenger⟩ ∧
    ∃ type buffer', readHeader (ofBytes reply) = .ok (([9], type), buffer') := by
  obtain ⟨reply, hsent, hiff⟩ := reply_header_iff [1] (.start [7]) (testCall [9])
    (wellFormed_testCall (by decide) (by decide))
  obtain ⟨type, buffer', -, hread⟩ := hiff.mpr ⟨answered_testCall [9], by decide⟩
  exact ⟨reply, hsent, type, buffer', hread⟩

/-- An id of so many bytes is written behind the flag 0. -/
theorem not_readHeader_testCall {callbackId : Bytes} (hempty : callbackId ≠ [])
    (hzero : callbackId.length % 256 = 0) : ¬ ∃ type buffer',
      readHeader (ofBytes (testCall callbackId).replyBytes) = .ok ((callbackId, type), buffer') := by
  rintro ⟨type, buffer', hread⟩
  have hstored := (writeBytes_new (testCall callbackId).replyBytes).2.1
  rw [Request.replyBytes, show (testCall callbackId).callbackId = callbackId from rfl,
    (ofNat_eq_zero_iff _).mpr hzero] at hstored hread
  exact hempty (fst_of_readHeader (readable_stored true) hstored hread)

/-- The reply to a call whose id has 256 bytes. -/
theorem reply_header_long : (testCall (List.replicate 256 9)).WellFormed ∧
    (testCall (List.replicate 256 9)).Answered ∧
    parseMessage [1] (testCall (List.replicate 256 9)).bytes (.start [7]) =
      .ok ⟨(Messaging.start [7]).bridge.send [1] (Messaging.start [7]).messenger.serverMessengerId
        (testCall (List.replicate 256 9)).replyBytes, (Messaging.start [7]).messenger⟩ ∧
    ¬ ∃ type buffer', readHeader (ofBytes (testCall (List.replicate 256 9)).replyBytes) =
      .ok ((List.replicate 256 9, type), buffer') := by
  have hlen : (List.replicate 256 (9 : UInt8)).length = 256 := List.length_replicate
  have hwell : (testCall (List.replicate 256 9)).WellFormed :=
    wellFormed_testCall (by omega) (by omega)
  have hempty : List.replicate 256 (9 : UInt8) ≠ [] := List.ne_nil_of_length_pos (by omega)
  exact ⟨hwell, answered_testCall _, parseMessage_eq hwell _ _,
    not_readHeader_testCall hempty (by omega)⟩

end Zinc.Loader
