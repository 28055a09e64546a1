import Zinc.Network.Send

/-! The frame of compressed data. The vector in which `compress` returns the output of zlib keeps
the length of the bound that it was made for, and the frame is made of the whole vector: its
length counts the zeros behind the output, and they are sent as well. -/

namespace Zinc.Network

open Throw Buffer Buffer.ByteBuffer ZincConnection

/-- The id and the data of a packet, which are compressed together. -/
def ZincPacket.content (packet : ZincPacket) : Bytes := intBytes packet.id ++ packet.data.getBytes

/-- The `int` that is compared with the threshold. -/
def ZincPacket.dataLength (packet : ZincPacket) : BitVec 32 := toInt packet.content.length

/-- The frame that carries the output of zlib and no more. -/
def exactFrame (packet : ZincPacket) (out : Bytes) : Bytes :=
  intBytes (toInt ((intBytes packet.dataLength).length + out.length)) ++
    (intBytes packet.dataLength ++ out)

/-- The frame of a packet, and what is sent of it without encryption, carry the output of zlib
and no more. -/
structure EmitsExactly (libs : Libraries) (threshold : BitVec 32) (packet : ZincPacket)
    (connection : ZincConnection) (out : Bytes) : Prop where
  frame : ∃ tmpData, connection.frame libs threshold packet = .ok tmpData ∧
    tmpData.getBytes = exactFrame packet out
  wire : connection.isEncrypted = false → connection.send libs threshold packet =
    .ok { connection with output := connection.output ++
      [⟨connection.state, packet.id, packet.data.getBytes, exactFrame packet out⟩] }

theorem length_compress {libs : Libraries} {buffer out : Bytes}
    (h : libs.compress2 buffer = some out) :
    (compress libs buffer).length = libs.compressBound buffer.length := by
  rw [compress, h, List.length_take, List.length_append, length_zeros]
  omega

/-- Without a gap below the bound, the vector is the output. -/
theorem compress_eq_iff {libs : Libraries} {buffer out : Bytes}
    (h : libs.compress2 buffer = some out) :
    compress libs buffer = out ↔ libs.compressBound buffer.length = out.length := by
  constructor
  · intro heq
    rw [← length_compress h, heq]
  · intro hbound
    rw [compress, h, hbound]
    exact List.take_left

/-- A frame determines what is behind the two numbers in it. -/
theorem frame_inj {size : BitVec 32} {bytes bytes' : Bytes} {length length' : BitVec 32}
    (h : intBytes length ++ (intBytes size ++ bytes) =
      intBytes length' ++ (intBytes size ++ bytes')) :
    bytes = bytes' := by
  have hbehind := congrArg afterVarInt h
  rw [(varInt_intBytes _ _).2, (varInt_intBytes _ _).2] at hbehind
  exact List.append_cancel_left hbehind

variable {libs : Libraries} {threshold : BitVec 32} {packet : ZincPacket}
  {connection : ZincConnection} {out : Bytes}

theorem frameBytes_compressed (hlarge : threshold.toInt ≤ packet.dataLength.toInt) :
    frameBytes libs threshold true packet.id packet.data.getBytes =
      exactFrame packet (compress libs packet.content) := by
  have hlength : packet.dataLength =
      toInt (Base128.size packet.id.toNat + packet.data.getBytes.length) := by
    rw [ZincPacket.dataLength, ZincPacket.content, List.length_append, length_intBytes]
  have hge : ¬ packet.dataLength.slt threshold = true := by
    rw [BitVec.slt_iff_toInt_lt]
    omega
  unfold frameBytes exactFrame
  rw [← hlength, if_pos rfl, if_neg hge, length_intBytes]
  rfl

/-- The frame is exact if the vector is. -/
theorem emitsExactly_iff_compress (hcompressed : connection.isCompressed = true)
    (hlarge : threshold.toInt ≤ packet.dataLength.toInt) :
    EmitsExactly libs threshold packet connection out ↔ compress libs packet.content = out := by
  have hbytes := @frameBytes_compressed libs threshold packet hlarge
  obtain ⟨tmpData, hframe, hfresh⟩ := frame_fresh libs threshold packet connection
  rw [hcompressed, hbytes] at hfresh
  constructor
  · rintro ⟨⟨tmpData', hframe', hexact⟩, -⟩
    obtain rfl := Except.ok.inj (hframe.symm.trans hframe')
    rw [hfresh.getBytes] at hexact
    exact frame_inj hexact
  · rintro rfl
    refine ⟨⟨tmpData, hframe, hfresh.getBytes⟩, fun hplain => ?_⟩
    rw [send_plain libs threshold packet hplain, hcompressed, hbytes]

/-- A compressed packet is sent in an exact frame if its output is as long as the bound. -/
theorem emitsExactly_iff (hcompressed : connection.isCompressed = true)
    (hlarge : threshold.toInt ≤ packet.dataLength.toInt)
    (hout : libs.compress2 packet.content = some out) :
    EmitsExactly libs threshold packet connection out ↔
      libs.compressBound packet.content.length = out.length := by
  rw [emitsExactly_iff_compress hcompressed hlarge, compress_eq_iff hout]

/-- Libraries with the output of zlib for the byte 0 and its bound. -/
def deflating : Libraries :=
  { copying with
    compressBound := fun size => size + 11
    compress2 := fun buffer =>
      if buffer = [0] then some [0x78, 0x9c, 0x63, 0x00, 0x00, 0x00, 0x01, 0x00, 0x01] else none }

theorem content_ofId (id : BitVec 32) : (ZincPacket.ofId id).content = intBytes id := by
  have hempty : (ZincPacket.ofId id).data.getBytes = [] := fresh_new.getBytes
  rw [ZincPacket.content, hempty, List.append_nil]
  rfl

/-- Behind the nine bytes of the output, three zeros are sent. -/
theorem not_emitsExactly_zero :
    ¬ EmitsExactly deflating 0 (.ofId 0) { waiting [] with isCompressed := true }
      [0x78, 0x9c, 0x63, 0x00, 0x00, 0x00, 0x01, 0x00, 0x01] := by
  intro hexact
  have hcontent : (ZincPacket.ofId 0).content = [0] := content_ofId 0
  have hlarge : (0 : BitVec 32).toInt ≤ (ZincPacket.ofId 0).dataLength.toInt := by
    rw [ZincPacket.dataLength, hcontent]
    decide
  have hbound := (emitsExactly_iff rfl hlarge (by rw [hcontent]; rfl)).mp hexact
  rw [hcontent] at hbound
  exact absurd hbound (by decide)

/-- A packet of one byte is enough. -/
theorem not_emitsExactly : ¬ ∀ (libs : Libraries) (threshold : BitVec 32) (packet : ZincPacket)
    (connection : ZincConnection) (out : Bytes), connection.isCompressed = true →
    threshold.toInt ≤ packet.dataLength.toInt → libs.compress2 packet.content = some out →
    EmitsExactly libs threshold packet connection out := by
  intro h
  have hcontent : (ZincPacket.ofId 0).content = [0] := content_ofId 0
  have hlarge : (0 : BitVec 32).toInt ≤ (ZincPacket.ofId 0).dataLength.toInt := by
    rw [ZincPacket.dataLength, hcontent]
    decide
  have hexact := h deflating 0 (.ofId 0) { waiting [] with isCompressed := true }
    [0x78, 0x9c, 0x63, 0x00, 0x00, 0x00, 0x01, 0x00, 0x01] rfl hlarge (by rw [hcontent]; rfl)
  rw [emitsExactly_iff_compress rfl hlarge, hcontent] at hexact
  exact absurd hexact (by decide)

end Zinc.Network
