import Zinc.Buffer.View
import Zinc.Network.Connection

/-! `ZincConnection::read` on byte sequences. A call sees the decrypted input
followed by the zeros up to the end of the last block, and takes a VarInt or a
number of bytes from the front. `read_eq` gives the packet, the connection and
the reported calls of `read` in these terms, for every input. -/

namespace Zinc.Network

open Throw Buffer Buffer.ByteBuffer ZincConnection

/-! ### Pieces of a frame -/

/-- The value of the VarInt in front of a memory of at least five bytes. -/
def varInt (a : Bytes) : BitVec 32 := BitVec.ofNat 32 ((Base128.decode 5 a).getD 0)

/-- The memory behind that VarInt. -/
def afterVarInt (a : Bytes) : Bytes :=
  if Base128.decode 5 a = none then a.drop 5 else a.drop (Base128.span 5 a)

theorem length_afterVarInt (a : Bytes) : a.length ≤ (afterVarInt a).length + 5 := by
  unfold afterVarInt
  have := Base128.span_le 5 a
  split <;> rw [List.length_drop] <;> omega

theorem varInt_of_decode {a : Bytes} {n : ℕ} (h : Base128.decode 5 a = some n) :
    varInt a = BitVec.ofNat 32 n ∧ afterVarInt a = a.drop (Base128.span 5 a) := by
  simp [varInt, afterVarInt, h]

/-- A VarInt of one byte. -/
theorem varInt_cons {c : UInt8} (hc : c.toNat < 128) (a : Bytes) :
    varInt (c :: a) = BitVec.ofNat 32 c.toNat ∧ afterVarInt (c :: a) = a := by
  have hdec : Base128.decode 5 (c :: a) = some c.toNat := if_pos hc
  have hspan : Base128.span 5 (c :: a) = 1 := if_pos hc
  obtain ⟨hval, hafter⟩ := varInt_of_decode hdec
  rw [hspan] at hafter
  exact ⟨hval, hafter⟩

theorem readVarInt_ahead {size : ℕ} {buffer : ByteBuffer} {a : Bytes}
    (h : Ahead true size buffer a) (ha : 5 ≤ a.length) :
    ∃ buffer', readVarInt buffer = .ok (varInt a, buffer') ∧
      Ahead true size buffer' (afterVarInt a) := by
  have hv := readable_ahead true size
  unfold varInt afterVarInt
  cases hdec : Base128.decode 5 a with
  | some n =>
    rw [if_neg (by simp)]
    exact hv.readVarNumeric (k := 4) true (by decide) h hdec
  | none =>
    rw [if_pos rfl]
    exact hv.readVarNumeric_overflow (k := 4) true (by decide) h hdec ha

/-- `length` bytes of memory, or all that is left. -/
@[irreducible] def slice (length : ℕ) (a : Bytes) : Read Bytes :=
  .call (.readBytes length) (if maxSize < length then .error .lengthError else .ok (a.take length))

theorem readSized_ahead {size : ℕ} {buffer : ByteBuffer} {a : Bytes} (h : Ahead true size buffer a)
    {α : Type} (length : ℕ) (f : Bytes → Read α) :
    (readSized length buffer >>= fun p => f p.1) = slice length a >>= f := by
  unfold readSized slice
  split
  next hmax =>
    have hread : readBytes length buffer = .error .lengthError := by
      rw [readBytes, InternalByteBuffer.read, if_pos hmax, error_bind]
    rw [hread]
    rfl
  next hmax =>
    obtain ⟨b, hread, -⟩ := h.shape.read (Nat.le_of_not_lt hmax)
    have hbytes : readBytes length buffer =
        .ok (a.take length, { buffer with internalBuffer := b }) := by
      rw [readBytes, hread, h.ahead_eq]
      rfl
    rw [hbytes]
    rfl

/-- The id and the data of a packet, with the number of bytes counted in front of it. -/
def idAndData (length counted : ℕ) (a : Bytes) : Read (BitVec 32 × Bytes) := do
  let n ← subSize length (Base128.size (varInt a).toNat + counted)
  let data ← slice n (afterVarInt a)
  pure (varInt a, data)

/-- What stands behind the length of a frame. -/
def frameBody (libs : Libraries) (isCompressed : Bool) (length : ℕ) (a : Bytes) :
    Read (BitVec 32 × Bytes) :=
  if isCompressed then
    let dataLength := toSize (varInt a)
    if dataLength ≠ 0 then do
      let n ← subSize length (Base128.size (varInt a).toNat)
      let compressed ← slice n (afterVarInt a)
      let uncompressed ← .call (.uncompress dataLength) (uncompress libs compressed dataLength)
      idAndData dataLength 0 (memory uncompressed)
    else idAndData length 1 (afterVarInt a)
  else idAndData length 0 a

theorem toInt_toSize (value : BitVec 32) : toInt (toSize value) = value := by
  rw [toInt, toSize, BitVec.ofNat_toNat]
  ext i hi
  simp only [BitVec.getElem_setWidth, BitVec.getLsbD_signExtend]
  simp [hi, show i < 64 by omega]

theorem getVarNumericLength_int (value : BitVec 32) :
    getVarNumericLength (k := 4) value = Base128.size value.toNat := getVarNumericLength_eq _

theorem readIdAndData_eq {size : ℕ} {buffer : ByteBuffer} {a : Bytes}
    (h : Ahead true size buffer a) (ha : 5 ≤ a.length) (length counted : ℕ) :
    readIdAndData length counted buffer = idAndData length counted a := by
  obtain ⟨buffer₁, h₁, hs₁⟩ := readVarInt_ahead h ha
  unfold readIdAndData idAndData
  rw [h₁, Traced.lift_ok_bind]
  change (subSize _ (getVarNumericLength (k := 4) (varInt a) + _) >>= _) = _
  rw [getVarNumericLength_int]
  refine bind_congr fun n => ?_
  exact readSized_ahead hs₁ n fun data => pure (varInt a, data)

/-- The compressed content of a frame. -/
theorem readCompressed_eq (libs : Libraries) (dataLength n : ℕ) {size : ℕ} {buffer : ByteBuffer}
    {a : Bytes} (h : Ahead true size buffer a) :
    (do
      let (compressed, _) ← readSized n buffer
      let ((), tmpBuffer) ← .lift (writeBytes compressed .new)
      let uncompressed ← .call (.uncompress dataLength)
        (uncompress libs tmpBuffer.getBytes dataLength)
      let ((), buffer) ← .lift (writeBytes uncompressed .new)
      readIdAndData dataLength 0 buffer) = (do
      let compressed ← slice n a
      let uncompressed ← .call (.uncompress dataLength) (uncompress libs compressed dataLength)
      idAndData dataLength 0 (memory uncompressed)) := by
  rw [← readSized_ahead h n]
  refine bind_congr fun p => ?_
  obtain ⟨compressed, rest⟩ := p
  obtain ⟨hwrite, hfresh⟩ := writeBytes_new compressed
  change (Traced.lift (writeBytes compressed .new) >>= _) = _
  rw [hwrite, Traced.lift_ok_bind]
  change (Traced.call _ (uncompress libs (ofBytes compressed).getBytes dataLength) >>= _) = _
  rw [hfresh.getBytes]
  refine bind_congr fun uncompressed => ?_
  obtain ⟨hwrite', hfresh'⟩ := writeBytes_new uncompressed
  have hmem := length_memory uncompressed
  change (Traced.lift (writeBytes uncompressed .new) >>= _) = _
  rw [hwrite', Traced.lift_ok_bind]
  exact readIdAndData_eq hfresh'.ahead (by simp only [blockSize] at hmem; omega) _ _

theorem readFrame_eq (libs : Libraries) (isCompressed : Bool) (length : ℕ) {size : ℕ}
    {buffer : ByteBuffer} {a : Bytes} (h : Ahead true size buffer a) (ha : 10 ≤ a.length) :
    readFrame libs isCompressed length buffer = frameBody libs isCompressed length a := by
  have hlen := length_afterVarInt a
  unfold readFrame frameBody
  split
  · obtain ⟨buffer₁, h₁, hs₁⟩ := readVarInt_ahead h (by omega)
    rw [h₁, Traced.lift_ok_bind]
    change (if toSize (varInt a) ≠ 0 then _ else _) = (if toSize (varInt a) ≠ 0 then _ else _)
    split
    · rw [toInt_toSize, getVarNumericLength_int]
      exact bind_congr fun n => readCompressed_eq libs _ n hs₁
    · exact readIdAndData_eq hs₁ (by omega) _ _
  · exact readIdAndData_eq h (by omega) _ _

/-! ### The whole call -/

/-- The packet with a given id and data. -/
def packetOf (id : BitVec 32) (data : Bytes) : ZincPacket := ⟨id, ofBytes data⟩

theorem ofData_ofBytes (id : BitVec 32) (data : Bytes) :
    ZincPacket.ofData id (ofBytes data) = .ok (packetOf id data) := by
  obtain ⟨hwrite, hfresh⟩ := writeBytes_new data
  have hbig : (ofBytes data).isBigEndian = true := hfresh.1.2
  have hoff : (ofBytes data).internalBuffer.enableBlockRecycle = false := hfresh.2.recycle_eq.symm
  have hnew : ({ ByteBuffer.new with isBigEndian := true } : ByteBuffer) = .new := rfl
  rw [ZincPacket.ofData, ZincPacket.setData, ZincPacket.ofId, hfresh.getBytes, hbig, hnew, hwrite,
    ok_bind, hoff, packetOf]
  simp only [InternalByteBuffer.toggleBlockRecycle, ← hoff]
  rfl

/-- The decrypted input. -/
def plain (libs : Libraries) (connection : ZincConnection) : Except Fault (Bytes × ZincConnection) :=
  if maxSize < connection.input.length then .error .lengthError
  else if connection.isEncrypted then do
    let (data, decrypt) ← connection.decrypt.decryptCFB8 libs connection.input
    return (data, { connection with decrypt })
  else .ok (connection.input, connection)

theorem plain_eq_ok {libs : Libraries} {connection connection' : ZincConnection} {content : Bytes}
    (h : plain libs connection = .ok (content, connection')) :
    content.length ≤ maxSize ∧ ∃ decrypt, connection' = { connection with decrypt } := by
  unfold plain at h
  split at h
  next => simp at h
  next hmax =>
    split at h
    next =>
      obtain ⟨⟨data, decrypt⟩, hdec, hpair⟩ := bind_eq_ok.mp h
      obtain ⟨rfl, rfl⟩ := Prod.mk.inj (Except.ok.inj hpair)
      exact ⟨(AESWrapper.length_decryptCFB8 hdec).trans (Nat.not_lt.mp hmax), decrypt, rfl⟩
    next =>
      obtain ⟨rfl, rfl⟩ := Prod.mk.inj (Except.ok.inj h)
      exact ⟨Nat.not_lt.mp hmax, connection.decrypt, rfl⟩

theorem plain_of_not_encrypted (libs : Libraries) {connection : ZincConnection}
    (h : connection.isEncrypted = false) (hlen : connection.input.length ≤ maxSize) :
    plain libs connection = .ok (connection.input, connection) := by
  rw [plain, if_neg (Nat.not_lt.mpr hlen), h]
  rfl

theorem plain_of_encrypted {libs : Libraries} {connection : ZincConnection} {content : Bytes}
    {decrypt : AESWrapper} (h : connection.isEncrypted = true)
    (hlen : connection.input.length ≤ maxSize)
    (hdec : connection.decrypt.decryptCFB8 libs connection.input = .ok (content, decrypt)) :
    plain libs connection = .ok (content, { connection with decrypt }) := by
  rw [plain, if_neg (Nat.not_lt.mpr hlen), if_pos h, hdec]
  rfl

/-- Reading the whole content byte by byte. -/
theorem readArray_ofBytes (bs : Bytes) : ∃ buffer,
    readArray readUnsignedByte (ofBytes bs).size (ofBytes bs) = .ok (bs, buffer) := by
  obtain ⟨-, hfresh⟩ := writeBytes_new bs
  have hall := Consumes.replicate (fun c => [c]) bs fun c _ => (readable_stored true).readByte c
  rw [List.flatMap_singleton', ← hfresh.size] at hall
  obtain ⟨buffer, hread, -⟩ := hall (ofBytes bs) [] (by rw [List.append_nil]; exact hfresh.1)
  exact ⟨buffer, hread⟩

theorem receive_of_plain (libs : Libraries) {connection connection' : ZincConnection}
    {content : Bytes} (h : plain libs connection = .ok (content, connection')) :
    ∃ buffer, connection.receive libs = .ok (buffer, connection') ∧ Fresh true buffer content := by
  obtain ⟨hwrite, hfresh⟩ := writeBytes_new connection.input
  unfold plain at h
  unfold receive TCPUtil.read
  split at h
  next => simp at h
  next hmax =>
    rw [if_neg hmax, hwrite]
    simp only [ok_bind, pure_eq]
    split at h
    next henc =>
      obtain ⟨⟨data, decrypt⟩, hdec, hpair⟩ := bind_eq_ok.mp h
      obtain ⟨rfl, rfl⟩ := Prod.mk.inj (Except.ok.inj hpair)
      obtain ⟨rest, hread⟩ := readArray_ofBytes connection.input
      obtain ⟨buffer, hwrite', hfresh'⟩ := writeArray_new data
      rw [if_pos henc, hread]
      simp only [ok_bind, hdec, hwrite']
      exact ⟨buffer, rfl, hfresh'⟩
    next henc =>
      obtain ⟨rfl, rfl⟩ := Prod.mk.inj (Except.ok.inj h)
      rw [if_neg henc, hfresh.getBytes, hwrite]
      exact ⟨_, rfl, hfresh⟩

theorem receive_of_plain_error (libs : Libraries) {connection : ZincConnection} {f : Fault}
    (h : plain libs connection = .error f) : connection.receive libs = .error f := by
  obtain ⟨hwrite, hfresh⟩ := writeBytes_new connection.input
  unfold plain at h
  unfold receive TCPUtil.read
  split at h
  next hmax =>
    rw [if_pos hmax]
    exact congrArg _ (Except.error.inj h)
  next hmax =>
    rw [if_neg hmax, hwrite]
    simp only [ok_bind, pure_eq]
    split at h
    next henc =>
      obtain ⟨rest, hread⟩ := readArray_ofBytes connection.input
      rw [if_pos henc, hread]
      cases hdec : connection.decrypt.decryptCFB8 libs connection.input with
      | ok p => simp [hdec] at h
      | error f' =>
        rw [hdec] at h
        simp only [ok_bind, hdec]
        exact congrArg _ (Except.error.inj h)
    next => simp at h

/-- `read` behind the decryption, on the byte sequences that it sees. -/
def readPlain (libs : Libraries) (content : Bytes) (connection : ZincConnection) :
    Read (ZincPacket × ZincConnection) :=
  let value := varInt (memory content)
  if content.length < toSize value then pure (.ofId (-1), connection)
  else do
    let q ← frameBody libs connection.isCompressed (toSize value) (afterVarInt (memory content))
    pure (packetOf q.1 q.2,
      { connection with
        input := connection.input.drop (Base128.size value.toNat + toSize value)
        shouldContinue := false })

theorem readPlain_of_lt {libs : Libraries} {content : Bytes} {connection : ZincConnection}
    (h : content.length < toSize (varInt (memory content))) :
    readPlain libs content connection = pure (.ofId (-1), connection) := if_pos h

theorem readPlain_of_le {libs : Libraries} {content : Bytes} {connection : ZincConnection}
    (h : toSize (varInt (memory content)) ≤ content.length) :
    readPlain libs content connection = (do
      let q ← frameBody libs connection.isCompressed (toSize (varInt (memory content)))
        (afterVarInt (memory content))
      pure (packetOf q.1 q.2,
        { connection with
          input := connection.input.drop (Base128.size (varInt (memory content)).toNat +
            toSize (varInt (memory content)))
          shouldContinue := false })) := if_neg (Nat.not_lt.mpr h)

theorem read_eq (libs : Libraries) (connection : ZincConnection) :
    ZincConnection.read libs connection =
      .lift (plain libs connection) >>= fun p => readPlain libs p.1 p.2 := by
  unfold ZincConnection.read
  cases hplain : plain libs connection with
  | error f =>
    rw [receive_of_plain_error libs hplain]
    rfl
  | ok p =>
    obtain ⟨content, connection'⟩ := p
    obtain ⟨buffer, hrec, hfresh⟩ := receive_of_plain libs hplain
    have hmem := length_memory content
    simp only [blockSize] at hmem
    obtain ⟨buffer₁, h₁, hs₁⟩ := readVarInt_ahead hfresh.ahead (by omega)
    have hafter := length_afterVarInt (memory content)
    rw [hrec, Traced.lift_ok_bind, Traced.lift_ok_bind]
    change (Traced.lift (readVarInt buffer) >>= _) = _
    rw [h₁, Traced.lift_ok_bind]
    change (if buffer₁.size < toSize (varInt (memory content)) then _ else _) =
      readPlain libs content connection'
    rw [hs₁.size_eq]
    split
    next h => rw [readPlain_of_lt h]
    next h =>
      rw [readPlain_of_le (Nat.not_lt.mp h)]
      change (readFrame libs connection'.isCompressed (toSize (varInt (memory content))) buffer₁ >>= _)
        = _
      rw [readFrame_eq libs _ _ hs₁ (by omega)]
      refine bind_congr fun q => ?_
      obtain ⟨id, data⟩ := q
      change (Traced.lift (writeBytes data .new) >>= _) = _
      rw [(writeBytes_new data).1, Traced.lift_ok_bind]
      change (Traced.lift (ZincPacket.ofData id (ofBytes data)) >>= _) = _
      rw [ofData_ofBytes, Traced.lift_ok_bind, toInt_toSize, getVarNumericLength_int]
      rfl

/-! ### Sample values -/

/-- Libraries that copy. -/
def copying : Libraries := ⟨fun _ _ => 0, fun n => n, some, fun bs _ => some bs⟩

/-- A new connection with a given input. -/
def waiting (input : Bytes) : ZincConnection :=
  { ZincConnection.new [] ⟨[], 0, 0, [], 0⟩ ⟨[], 0, 0, false, 0, 0, false, false, 0⟩ with input }

theorem plain_waiting (libs : Libraries) {input : Bytes} (h : input.length ≤ maxSize) :
    plain libs (waiting input) = .ok (input, waiting input) := plain_of_not_encrypted libs rfl h

end Zinc.Network
