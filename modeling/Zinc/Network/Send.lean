import Zinc.Network.Stream

/-! What `ZincConnection::send` puts on the wire, and the other end of the wire.
A frame is built from writers alone, so it never fails; its bytes are given by
`frameBytes`. Without encryption they are the bytes on the wire, and `read` takes
them back. With encryption they are as many, unless a key or a register is
missing: then nothing is sent. -/

namespace Zinc.Network

open Throw Traced Buffer Buffer.ByteBuffer ZincConnection

/-! ### Frames -/

/-- The bytes of a frame before encryption. -/
def frameBytes (libs : Libraries) (threshold : BitVec 32) (isCompressed : Bool) (id : BitVec 32)
    (data : Bytes) : Bytes :=
  let dataLength := toInt (Base128.size id.toNat + data.length)
  if isCompressed then
    if dataLength.slt threshold then
      intBytes (1 + dataLength) ++ (intBytes 0 ++ (intBytes id ++ data))
    else
      let compressed := compress libs (intBytes id ++ data)
      intBytes (toInt (Base128.size dataLength.toNat + compressed.length)) ++
        (intBytes dataLength ++ compressed)
  else intBytes dataLength ++ (intBytes id ++ data)

/-- Writing to a buffer that was only written to. -/
theorem fresh_of_produces {x : Action Unit} {w : Bytes} (h : Produces (Fresh true) x w) {buffer : ByteBuffer}
    (hbuffer : Fresh true buffer []) : ∃ buffer', x buffer = .ok ((), buffer') ∧ Fresh true buffer' w :=
  h buffer [] hbuffer

theorem produces_writeVarInt (value : BitVec 32) :
    Produces (Fresh true) (writeVarInt value) (intBytes value) :=
  (writable_fresh true).writeVarNumeric (k := 4) value

theorem produces_writeBytes (bytes : Bytes) : Produces (Fresh true) (writeBytes bytes) bytes :=
  (writable_fresh true).writeBytes bytes

/-- `getData` copies what was written. -/
theorem getData_eq (packet : ZincPacket) : ∃ data, packet.getData = .ok data ∧
    data.getBytes = packet.data.getBytes ∧ data.size = packet.data.getBytes.length := by
  have hnew : Fresh packet.data.isBigEndian ⟨.new, packet.data.isBigEndian⟩ [] :=
    ⟨⟨InternalByteBuffer.holds_new, rfl⟩, rfl, rfl, rfl⟩
  obtain ⟨buffer, hwrite, hfresh⟩ :=
    (writable_fresh _).writeBytes packet.data.getBytes _ [] hnew
  rw [List.nil_append] at hfresh
  rw [ZincPacket.getData, hwrite]
  exact ⟨_, rfl, hfresh.getBytes, hfresh.size⟩

theorem frame_fresh (libs : Libraries) (threshold : BitVec 32) (packet : ZincPacket)
    (connection : ZincConnection) : ∃ tmpData,
    connection.frame libs threshold packet = .ok tmpData ∧
      Fresh true tmpData (frameBytes libs threshold connection.isCompressed packet.id
        packet.data.getBytes) := by
  rcases getData_eq packet with ⟨data, hdata, hbytes, hsize⟩
  have hcontent := (produces_writeVarInt packet.id).bind (produces_writeBytes packet.data.getBytes)
  unfold frame frameBytes
  simp only [hdata, ok_bind, hbytes, hsize, getVarNumericLength_int packet.id]
  generalize toInt (Base128.size packet.id.toNat + packet.data.getBytes.length) = dataLength
  split
  · split
    · have hall := (produces_writeVarInt (1 + dataLength)).bind
        ((produces_writeVarInt 0).bind hcontent)
      rcases fresh_of_produces hall fresh_new with ⟨tmpData, hwrite, hfresh⟩
      rw [hwrite]
      exact ⟨tmpData, rfl, hfresh⟩
    · rcases fresh_of_produces hcontent fresh_new with ⟨tmpData, hwrite, hfresh⟩
      rw [hwrite]
      simp only [ok_bind, hfresh.getBytes]
      generalize compress libs (intBytes packet.id ++ packet.data.getBytes) = compressed
      rcases writeBytes_new compressed with ⟨hwrite', hfresh'⟩
      have hclear : Fresh true tmpData.clear [] := by
        have := fresh_clear tmpData hfresh.2.recycle_eq.symm
        rwa [hfresh.1.2] at this
      have hall := (produces_writeVarInt (toInt (Base128.size dataLength.toNat + compressed.length))).bind
        ((produces_writeVarInt dataLength).bind (produces_writeBytes compressed))
      rcases fresh_of_produces hall hclear with ⟨tmpData', hwrite'', hfresh''⟩
      simp only [hwrite', ok_bind, hfresh'.getBytes, hfresh'.size, getVarNumericLength_int,
        writeByteArray, hwrite'']
      exact ⟨tmpData', rfl, hfresh''⟩
  · have hall := (produces_writeVarInt dataLength).bind hcontent
    rcases fresh_of_produces hall fresh_new with ⟨tmpData, hwrite, hfresh⟩
    rw [hwrite]
    exact ⟨tmpData, rfl, hfresh⟩

/-! ### The wire -/

theorem send_plain (libs : Libraries) (threshold : BitVec 32) (packet : ZincPacket)
    {connection : ZincConnection} (h : connection.isEncrypted = false) :
    connection.send libs threshold packet = .ok { connection with
      output := connection.output ++ [⟨connection.state, packet.id, packet.data.getBytes,
        frameBytes libs threshold connection.isCompressed packet.id packet.data.getBytes⟩] } := by
  rcases frame_fresh libs threshold packet connection with ⟨tmpData, hframe, hfresh⟩
  rcases writeBytes_new (frameBytes libs threshold connection.isCompressed packet.id
    packet.data.getBytes) with ⟨hwrite, hfresh'⟩
  rw [ZincConnection.send, hframe, ok_bind, if_neg (Bool.not_eq_true _ ▸ h)]
  simp only [hfresh.getBytes, hwrite, ok_bind, hfresh'.getBytes, pure_eq]

/-- With a key and a register, encryption keeps the number of bytes. -/
theorem send_eq_ok {libs : Libraries} {threshold : BitVec 32} {packet : ZincPacket}
    {connection connection' : ZincConnection}
    (h : connection.send libs threshold packet = .ok connection') :
    ∃ encrypt wire, connection' = { connection with
        encrypt := encrypt
        output := connection.output ++ [⟨connection.state, packet.id, packet.data.getBytes, wire⟩] } ∧
      connection.encrypt.Rolls encrypt ∧
      ((connection.isEncrypted = true → connection.encrypt.ready = true) →
        wire.length = (frameBytes libs threshold connection.isCompressed packet.id
          packet.data.getBytes).length) := by
  by_cases henc : connection.isEncrypted = true
  · rcases frame_fresh libs threshold packet connection with ⟨tmpData, hframe, hfresh⟩
    rcases readArray_fresh hfresh with ⟨rest, hread⟩
    rw [ZincConnection.send, hframe, ok_bind, if_pos henc, hread, ok_bind] at h
    rcases bind_eq_ok.mp h with ⟨⟨bytes, encrypt⟩, hencrypt, h⟩
    rcases writeArray_new bytes with ⟨data, hwrite, hfresh'⟩
    simp only [hwrite, ok_bind, pure_eq, hfresh'.getBytes] at h
    refine ⟨encrypt, bytes, (Except.ok.inj h).symm, AESWrapper.encryptCFB8_rolls hencrypt, ?_⟩
    intro hready
    exact AESWrapper.length_encryptCFB8 (hready henc) hencrypt
  · rw [send_plain libs threshold packet (Bool.not_eq_true _ ▸ henc)] at h
    exact ⟨connection.encrypt, _, (Except.ok.inj h).symm, AESWrapper.Rolls.refl _, fun _ => rfl⟩

/-- Only a frame that is too long for the cipher is not sent. -/
theorem send_total {libs : Libraries} {threshold : BitVec 32} {packet : ZincPacket}
    {connection : ZincConnection} (h : (frameBytes libs threshold connection.isCompressed packet.id
      packet.data.getBytes).length < 2 ^ 31) :
    ∃ connection', connection.send libs threshold packet = .ok connection' := by
  by_cases henc : connection.isEncrypted = true
  · rcases frame_fresh libs threshold packet connection with ⟨tmpData, hframe, hfresh⟩
    rcases readArray_fresh hfresh with ⟨rest, hread⟩
    rcases AESWrapper.encryptCFB8_total libs h connection.encrypt with ⟨out, encrypt, hencrypt⟩
    rcases writeArray_new out with ⟨data, hwrite, hfresh'⟩
    rw [ZincConnection.send, hframe, ok_bind, if_pos henc, hread, ok_bind]
    simp only [hencrypt, ok_bind, hwrite, pure_eq]
    exact ⟨_, rfl⟩
  · exact ⟨_, send_plain libs threshold packet (Bool.not_eq_true _ ▸ henc)⟩

theorem length_frameBytes_le (libs : Libraries) (threshold id : BitVec 32) (data : Bytes) :
    (frameBytes libs threshold false id data).length ≤ data.length + 10 := by
  have hid := size_toNat_le id
  have hlen := size_toNat_le (toInt (Base128.size id.toNat + data.length))
  rw [frameBytes, if_neg Bool.false_ne_true, List.length_append, List.length_append,
    length_intBytes, length_intBytes]
  omega

/-! ### The other end -/

/-- What is relied on of zlib: compression succeeds within its bound, and
decompression inverts it and ignores what stands behind the stream. The bound
stays below twice the size. -/
structure Zlib (libs : Libraries) : Prop where
  compress2 : ∀ data, ∃ out, libs.compress2 data = some out ∧
    out.length ≤ libs.compressBound data.length ∧
    ∀ rest, libs.uncompress2 (out ++ rest) data.length = some data
  compressBound_le : ∀ size, libs.compressBound size ≤ size + size / 2 + 16

/-- The vector that `compress` returns is still a compressed stream. -/
theorem Zlib.compress {libs : Libraries} (h : Zlib libs) (data : Bytes) :
    (compress libs data).length ≤ data.length + data.length / 2 + 16 ∧
      libs.uncompress2 (Zinc.Network.compress libs data) data.length = some data := by
  rcases h.compress2 data with ⟨out, hout, hle, hinverse⟩
  have hbound := h.compressBound_le data.length
  rw [Zinc.Network.compress, hout]
  simp only [List.take_append, List.take_of_length_le hle, List.length_append, List.length_take,
    length_zeros]
  exact ⟨by omega, hinverse _⟩

/-- Every frame is a header and one of the ways to put the packet into a frame. -/
theorem frameBytes_eq {libs : Libraries} (hzlib : Zlib libs) (threshold : BitVec 32)
    (isCompressed : Bool) (id : BitVec 32) {data : Bytes} (hdata : data.length ≤ 2 ^ 30) :
    ∃ body, FrameOf libs id data isCompressed body ∧ body.length < 2 ^ 31 ∧
      frameBytes libs threshold isCompressed id data = header body.length ++ body := by
  have hid := size_toNat_le id
  have hcontent : (intBytes id ++ data).length = Base128.size id.toNat + data.length := by
    rw [List.length_append, length_intBytes]
  unfold frameBytes
  rw [← hcontent]
  cases isCompressed with
  | false => exact ⟨_, .plain, by omega, by simp [header, toInt]⟩
  | true =>
    rw [if_pos rfl]
    split
    · refine ⟨_, .small, ?_, ?_⟩
      · rw [List.length_append, length_intBytes]
        change 1 + _ < _
        omega
      · have hone : (intBytes 0 ++ (intBytes id ++ data)).length = 1 + (intBytes id ++ data).length :=
          List.length_append
        rw [header, hone, BitVec.ofNat_add]
        rfl
    · rcases hzlib.compress (intBytes id ++ data) with ⟨hlen, hinverse⟩
      have hval : (toInt (intBytes id ++ data).length).toNat = (intBytes id ++ data).length := by
        rw [toInt, BitVec.toNat_ofNat, Nat.mod_eq_of_lt (by omega)]
      have hsize := size_toNat_le (toInt (intBytes id ++ data).length)
      have hbody : (intBytes (toInt (intBytes id ++ data).length) ++
          compress libs (intBytes id ++ data)).length =
          Base128.size (toInt (intBytes id ++ data).length).toNat +
            (compress libs (intBytes id ++ data)).length := by
        rw [List.length_append, length_intBytes]
      refine ⟨_, .compressed (intBytes id ++ data).length _ rfl (by omega) hinverse, ?_, ?_⟩
      · exact lt_of_eq_of_lt hbody (by omega)
      · exact congrArg (fun n => intBytes (toInt n) ++ _) hbody.symm

/-- A call on a frame with anything behind it. -/
theorem read_frame_append {libs : Libraries} {id : BitVec 32} {data body rest : Bytes}
    {connection : ZincConnection} (h : FrameOf libs id data connection.isCompressed body)
    (hbody : body.length < 2 ^ 31) (henc : connection.isEncrypted = false)
    (hinput : connection.input = header body.length ++ body ++ rest)
    (hmax : connection.input.length ≤ maxSize) :
    (connection.read libs).result =
      .ok (packetOf id data, { connection with input := rest, shouldContinue := false }) := by
  have hwhole : ¬ (header body.length ++ (body ++ rest)).length < body.length := by
    rw [List.length_append, List.length_append]
    omega
  have hdrop : connection.input.drop ((header body.length).length + body.length) = rest := by
    rw [hinput, List.drop_left' (by rw [List.length_append])]
  rw [read_eq, plain_of_not_encrypted libs henc hmax, lift_ok_bind]
  change (readPlain libs connection.input connection).result = _
  rw [hinput, List.append_assoc, readPlain_header libs connection hbody, if_neg hwhole, result_bind,
    List.append_assoc, result_of_frameOf h hbody, ok_bind]
  change Except.ok (packetOf id data, { connection with
    input := connection.input.drop ((header body.length).length + body.length)
    shouldContinue := false }) = _
  rw [hdrop]

/-- What one end sends, the other end reads, whatever stands behind it; an input
has at most as many bytes as a vector can hold. -/
theorem read_send {libs : Libraries} (hzlib : Zlib libs) (threshold : BitVec 32) (packet : ZincPacket)
    (hdata : packet.data.getBytes.length ≤ 2 ^ 30) {sender : ZincConnection}
    (hsender : sender.isEncrypted = false) :
    ∃ wire, sender.send libs threshold packet = .ok { sender with
        output := sender.output ++ [⟨sender.state, packet.id, packet.data.getBytes, wire⟩] } ∧
      ∀ (receiver : ZincConnection) (rest : Bytes), receiver.isEncrypted = false →
        receiver.isCompressed = sender.isCompressed → receiver.input = wire ++ rest →
        receiver.input.length ≤ maxSize →
        ∃ received, received.id = packet.id ∧ received.data.getBytes = packet.data.getBytes ∧
          (receiver.read libs).result =
            .ok (received, { receiver with input := rest, shouldContinue := false }) := by
  refine ⟨_, send_plain libs threshold packet hsender, ?_⟩
  intro receiver rest hreceiver hcompressed hinput hmax
  rcases frameBytes_eq hzlib threshold sender.isCompressed packet.id hdata with
    ⟨body, hframe, hbody, hbytes⟩
  rw [hbytes] at hinput
  rw [← hcompressed] at hframe
  exact ⟨packetOf packet.id packet.data.getBytes, rfl, (writeBytes_new _).2.getBytes,
    read_frame_append hframe hbody hreceiver hinput hmax⟩

/-- Libraries that store what they compress. -/
def storing : Libraries := ⟨fun _ _ => 0, fun size => size, some, fun bs size => some (bs.take size)⟩

theorem zlib_storing : Zlib storing where
  compress2 data := ⟨data, rfl, le_rfl, fun rest => congrArg some (List.take_left' rfl)⟩
  compressBound_le size := by
    change size ≤ _
    omega

/-- A packet above the threshold, and another byte behind it. -/
theorem read_send_sample : ∃ received : ZincPacket, received.id = 3 ∧
    received.data.getBytes = [9, 8, 7] ∧
    ({ waiting [5, 4, 3, 9, 8, 7, 1] with isCompressed := true }.read storing).result =
      .ok (received, { waiting [1] with isCompressed := true, shouldContinue := false }) := by
  have hbytes : (packetOf 3 [9, 8, 7]).data.getBytes = [9, 8, 7] := (writeBytes_new _).2.getBytes
  have hdata : (packetOf 3 [9, 8, 7]).data.getBytes.length ≤ 2 ^ 30 := by
    rw [hbytes]
    decide
  have hframe : frameBytes storing 2 true 3 [9, 8, 7] = [5, 4, 3, 9, 8, 7] := by decide
  rcases @read_send storing zlib_storing 2 (packetOf 3 [9, 8, 7]) hdata
    { waiting [] with isCompressed := true } rfl with ⟨wire, hsend, hread⟩
  rw [@send_plain storing 2 (packetOf 3 [9, 8, 7]) { waiting [] with isCompressed := true } rfl] at hsend
  have hwire : wire = [5, 4, 3, 9, 8, 7] := by
    have houtput := congrArg ZincConnection.output (Except.ok.inj hsend)
    have hlast := List.singleton_inj.mp (List.append_cancel_left houtput)
    rw [hbytes] at hlast
    exact (congrArg Sent.wire hlast).symm.trans hframe
  rw [hwire, hbytes] at hread
  exact hread { waiting [5, 4, 3, 9, 8, 7, 1] with isCompressed := true } [1] rfl rfl rfl
    (le_maxSize (show 7 < 2 ^ 31 by omega))

end Zinc.Network
