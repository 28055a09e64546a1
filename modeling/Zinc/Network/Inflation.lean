import Zinc.Network.Framing

/-! What `ZincConnection::read` makes of compressed data that is broken. A vector of the
announced size is filled with what zlib makes of the data, and is empty if zlib rejects it; the
id of the packet is read from it either way, and the zeros behind it are read as bytes of the
packet. So a packet that is read need not have been in its frame. -/

namespace Zinc.Network

open Throw Traced Buffer Buffer.ByteBuffer

/-! ### VarInts in any encoding -/

/-- The bytes are a VarInt with a given value, in any of its encodings. -/
def IsVarInt (value : BitVec 32) (bytes : Bytes) : Prop :=
  ∃ n, Base128.decode 5 bytes = some n ∧ Base128.span 5 bytes = bytes.length ∧
    BitVec.ofNat 32 n = value

variable {value : BitVec 32} {bytes : Bytes}

theorem IsVarInt.append (h : IsVarInt value bytes) (a : Bytes) :
    varInt (bytes ++ a) = value ∧ afterVarInt (bytes ++ a) = a := by
  obtain ⟨n, hdec, hspan, rfl⟩ := h
  obtain ⟨hval, hafter⟩ := varInt_append hdec a
  rw [hspan, List.drop_length, List.nil_append] at hafter
  exact ⟨hval.trans (varInt_of_decode hdec).1, hafter⟩

theorem isVarInt_intBytes (value : BitVec 32) : IsVarInt value (intBytes value) := by
  obtain ⟨hdec, hspan⟩ := Base128.decode_encode_append (c := 5) (by decide) (toNat_lt_pow value) []
  rw [← intBytes_eq, List.append_nil] at hdec hspan
  rw [← length_intBytes] at hspan
  exact ⟨value.toNat, hdec, hspan, BitVec.ofNat_toNat ..⟩

/-- The number in front of the bytes ends in them and is a negative `int`. -/
def Negative (a : Bytes) : Prop := ∃ n, Base128.decode 5 a = some n ∧ (BitVec.ofNat 32 n).toInt < 0

/-- Zeros behind the bytes do not make their number negative. -/
theorem negative_iff (a : Bytes) {k : ℕ} (hk : 0 < k) :
    (varInt (a ++ zeros k)).toInt < 0 ↔ Negative a := by
  obtain ⟨j, rfl⟩ : ∃ j, k = j + 1 := ⟨k - 1, by omega⟩
  cases hdec : Base128.decode 5 a with
  | some n =>
    rw [(varInt_append hdec _).1, (varInt_of_decode hdec).1]
    constructor
    · intro h
      exact ⟨n, hdec, h⟩
    · rintro ⟨m, hm, h⟩
      rwa [Option.some.inj (hdec.symm.trans hm)]
  | none =>
    refine iff_of_false (fun h => ?_) (fun ⟨n, hn, _⟩ => by simp [hdec] at hn)
    by_cases hshort : a.length < 5
    · have hmore := Base128.decode_eq_none_iff.mp hdec
      rw [List.take_of_length_le (by omega)] at hmore
      have hval : (varInt (a ++ zeros (j + 1))).toNat = Base128.value a :=
        (varInt_of_short hmore hshort (d := 0) (by decide) (zeros j)).1.trans (Nat.add_zero _)
      have hvalue := Base128.value_lt a
      have hpow : 128 ^ a.length ≤ 128 ^ 4 := Nat.pow_le_pow_right (by decide) (by omega)
      rw [BitVec.toInt_eq_toNat_of_lt (by omega)] at h
      omega
    · rw [(varInt_of_overflow hdec (Nat.not_lt.mp hshort) _).1] at h
      exact absurd h (by decide)

/-- A vector of the announced size, or an empty one. -/
theorem negative_uncompress {libs : Libraries} {compressed uncompressed : Bytes} {size : ℕ}
    (h : uncompress libs compressed size = .ok uncompressed) :
    (varInt (memory uncompressed)).toInt < 0 ↔
      ∃ out, libs.uncompress2 compressed size = some out ∧ Negative (out.take size) := by
  have hpad := Nat.mod_lt uncompressed.length InternalByteBuffer.blockSize_pos
  unfold uncompress at h
  split at h
  next => simp at h
  next =>
    rw [memory_eq, padding]
    split at h
    next out hout =>
      have hvector : uncompressed = out.take size ++ zeros (size - out.length) := by
        rw [← Except.ok.inj h, List.take_append, zeros, List.take_replicate, min_eq_left (by omega),
          zeros]
      obtain ⟨k, hk⟩ : ∃ k, k = blockSize - uncompressed.length % blockSize := ⟨_, rfl⟩
      rw [← hk, hvector, List.append_assoc, zeros_append, negative_iff _ (by omega), hout]
      simp
    next hnone =>
      rw [negative_iff _ (by omega), ← Except.ok.inj h, hnone]
      simp [Negative, Base128.decode]

/-! ### Announced data -/

/-- zlib inflates the bytes to exactly the announced size. -/
def Inflates (libs : Libraries) (bytes : Bytes) (size : ℕ) : Prop :=
  ∃ out, libs.uncompress2 bytes size = some out ∧ out.length = size

/-- The front of a frame with compressed data: the length of the frame and the positive size of
the data, in any encoding. -/
structure Announced where
  length : BitVec 32
  dataLength : BitVec 32
  lengthBytes : Bytes
  dataLengthBytes : Bytes
  isLength : IsVarInt length lengthBytes
  isDataLength : IsVarInt dataLength dataLengthBytes
  positive : 0 < dataLength.toInt

namespace Announced

variable (frame : Announced) (libs : Libraries) (data : Bytes)

/-- The input with some data behind the front. -/
def content : Bytes := frame.lengthBytes ++ (frame.dataLengthBytes ++ data)

/-- The compressed data of the frame, or what has arrived of it. -/
def payload : Bytes := data.take (toSize frame.length - frame.dataLengthBytes.length)

/-- What is passed to zlib: as many bytes as a canonical size leaves of the frame, up to the zeros
behind the input. -/
def passed : Bytes :=
  (data ++ padding (frame.content data)).take
    (toSize frame.length - Base128.size frame.dataLength.toNat)

/-- With a canonical size and all of its data, a frame is passed to zlib as it is. -/
theorem passed_eq_payload (hcanonical : frame.dataLengthBytes = intBytes frame.dataLength)
    (hwhole : toSize frame.length ≤ frame.dataLengthBytes.length + data.length) :
    frame.passed data = frame.payload data := by
  have hlen : frame.dataLengthBytes.length = Base128.size frame.dataLength.toNat := by
    rw [hcanonical, length_intBytes]
  rw [passed, payload, ← hlen, List.take_append_of_le_length (by omega)]

/-- A packet that is read was inflated from the compressed data to the announced size. -/
def ReadsInflated (connection : ZincConnection) : Prop :=
  ∀ packet connection', (connection.read libs).result = .ok (packet, connection') →
    0 ≤ packet.id.toInt → Inflates libs (frame.payload data) frame.dataLength.toNat

/-- No packet can be read: there are fewer bytes than the length, or the length has no room for the
size, or zlib accepts what it gets and its output begins with a negative id. -/
def ReadsNothing : Prop :=
  (frame.content data).length < toSize frame.length ∨
    toSize frame.length < Base128.size frame.dataLength.toNat ∨
    ∃ out, libs.uncompress2 (frame.passed data) frame.dataLength.toNat = some out ∧
      Negative (out.take frame.dataLength.toNat)

/-! ### One call -/

/-- The length in front of the memory, and what is behind it. -/
theorem varInt_content : varInt (memory (frame.content data)) = frame.length ∧
    afterVarInt (memory (frame.content data)) =
      frame.dataLengthBytes ++ (data ++ padding (frame.content data)) := by
  have hmemory : memory (frame.content data) =
      frame.lengthBytes ++ (frame.dataLengthBytes ++ (data ++ padding (frame.content data))) := by
    rw [memory_eq, content]
    simp only [List.append_assoc]
  rw [hmemory]
  exact frame.isLength.append _

theorem toSize_dataLength : toSize frame.dataLength = frame.dataLength.toNat ∧
    0 < frame.dataLength.toNat ∧ frame.dataLength.toNat < 2 ^ 31 := by
  have hpos := frame.positive
  rw [BitVec.toInt_eq_toNat_cond] at hpos
  have hlt := frame.dataLength.isLt
  have hsmall : frame.dataLength.toNat < 2 ^ 31 := by
    split at hpos <;> omega
  exact ⟨toSize_of_lt hsmall, by split at hpos <;> omega, hsmall⟩

variable {libs data} {connection : ZincConnection}

/-- The packet that is read from uncompressed bytes. -/
def packetIn (uncompressed : Bytes) : ZincPacket :=
  packetOf (varInt (memory uncompressed)) ((afterVarInt (memory uncompressed)).take
    (frame.dataLength.toNat - Base128.size (varInt (memory uncompressed)).toNat))

/-- A call on a frame that is long enough reads the packet from what zlib has made of the data. -/
theorem result_readPlain (hcompressed : connection.isCompressed = true)
    (hmax : (frame.content data).length ≤ maxSize)
    (hwhole : toSize frame.length ≤ (frame.content data).length) :
    (readPlain libs (frame.content data) connection).result =
      if Base128.size frame.dataLength.toNat ≤ toSize frame.length then (do
        let uncompressed ← uncompress libs (frame.passed data) frame.dataLength.toNat
        return (frame.packetIn uncompressed, { connection with
          input := connection.input.drop (Base128.size frame.length.toNat + toSize frame.length)
          shouldContinue := false }))
      else .error .lengthError := by
  obtain ⟨hsize, hpos, hlt⟩ := frame.toSize_dataLength
  obtain ⟨hlength, hafter⟩ := frame.varInt_content data
  obtain ⟨hdata, hbehind⟩ := frame.isDataLength.append (data ++ padding (frame.content data))
  have hint := toSize_of_le_maxSize (hwhole.trans hmax)
  have hne : frame.dataLength ≠ 0 := by
    intro hzero
    rw [hzero] at hpos
    exact absurd hpos (by decide)
  rw [readPlain_of_le (by rwa [hlength]), hlength, hafter, result_bind, hcompressed,
    result_frameBody_compressed (by omega) (by rwa [hdata]), hdata, hbehind]
  split
  next hroom =>
    rw [hsize, ← passed]
    cases hu : uncompress libs (frame.passed data) frame.dataLength.toNat with
    | ok uncompressed =>
      rw [ok_bind, result_of_uncompress hpos hlt hu]
      rfl
    | error f => rfl
  next => rw [error_bind]

/-- Data that is not inflated to the announced size is delivered unless nothing can be read. -/
theorem readsInflated_iff (hcompressed : connection.isCompressed = true)
    {decrypted : ZincConnection}
    (hplain : plain libs connection = .ok (frame.content data, decrypted)) :
    frame.ReadsInflated libs data connection ↔
      frame.ReadsNothing libs data ∨ Inflates libs (frame.payload data) frame.dataLength.toNat := by
  obtain ⟨hmax, decrypt, hdecrypted⟩ := plain_eq_ok hplain
  have hmode : decrypted.isCompressed = true := by rw [hdecrypted, hcompressed]
  unfold ReadsInflated ReadsNothing
  rw [read_eq, hplain, lift_ok_bind]
  change (∀ packet connection', (readPlain libs (frame.content data) decrypted).result = _ → _) ↔ _
  by_cases hwhole : toSize frame.length ≤ (frame.content data).length
  · rw [frame.result_readPlain hmode hmax hwhole]
    by_cases hroom : Base128.size frame.dataLength.toNat ≤ toSize frame.length
    · obtain ⟨-, -, hlt⟩ := frame.toSize_dataLength
      obtain ⟨uncompressed, hu⟩ := exists_uncompress libs (frame.passed data) (le_maxSize hlt)
      rw [if_pos hroom, hu, ok_bind, pure_eq, ← negative_uncompress hu]
      constructor
      · intro h
        by_cases hneg : (varInt (memory uncompressed)).toInt < 0
        · exact .inl (.inr (.inr hneg))
        · exact .inr (h _ _ rfl (Int.not_lt.mp hneg))
      · rintro ((hshort | hnoroom | hneg) | hinflates) packet connection' hread hid
        · omega
        · omega
        · obtain ⟨rfl, -⟩ := Prod.mk.inj (Except.ok.inj hread)
          exact absurd hneg (Int.not_lt.mpr hid)
        · exact hinflates
    · rw [if_neg hroom]
      exact iff_of_true (fun packet connection' hread => by cases hread)
        (.inl (.inr (.inl (Nat.not_le.mp hroom))))
  · rw [readPlain_of_lt (by rw [(frame.varInt_content data).1]; exact Nat.not_le.mp hwhole)]
    refine iff_of_true (fun packet connection' hread hid => ?_) (.inl (.inl (Nat.not_le.mp hwhole)))
    obtain ⟨rfl, -⟩ := Prod.mk.inj (Except.ok.inj hread)
    exact absurd hid (by decide)

end Announced

/-! ### Sample frames -/

/-- A frame of two bytes and some data, which announces one byte of inflated data. -/
def announcing (length : BitVec 32) : Announced where
  length := length
  dataLength := 1
  lengthBytes := intBytes length
  dataLengthBytes := intBytes 1
  isLength := isVarInt_intBytes length
  isDataLength := isVarInt_intBytes 1
  positive := by decide

/-- The byte 7 as a zlib stream with one stored block. -/
def storedSeven : Bytes := [0x78, 0x01, 0x01, 0x01, 0x00, 0xfe, 0xff, 0x07, 0x00, 0x08, 0x00, 0x08]

/-- Libraries that know no other stream. -/
def inflating : Libraries :=
  { copying with uncompress2 := fun bytes size =>
      if bytes = storedSeven ∧ 1 ≤ size then some [7] else none }

/-- A connection in compressed mode with a given input. -/
def compressedWaiting (input : Bytes) : ZincConnection :=
  { waiting input with isCompressed := true }

theorem plain_compressedWaiting (libs : Libraries) {input : Bytes} (h : input.length ≤ maxSize) :
    plain libs (compressedWaiting input) = .ok (input, compressedWaiting input) :=
  plain_of_not_encrypted libs rfl h

theorem readsInflated_storedSeven :
    (announcing 13).ReadsInflated inflating storedSeven
      (compressedWaiting ([13, 1] ++ storedSeven)) := by
  have hmax : ([13, 1] ++ storedSeven : Bytes).length ≤ maxSize :=
    le_maxSize (show 14 < 2 ^ 31 by decide)
  have hpayload : (announcing 13).payload storedSeven = storedSeven := by decide
  exact (@Announced.readsInflated_iff (announcing 13) inflating storedSeven
    (compressedWaiting ([13, 1] ++ storedSeven)) rfl _ (plain_compressedWaiting inflating hmax)).mpr
    (.inr ⟨[7], by rw [hpayload]; rfl, rfl⟩)

/-- A frame with data that zlib rejects is delivered as a packet with the id 0. -/
theorem not_readsInflated : ¬ ∀ (libs : Libraries) (frame : Announced) (data : Bytes)
    (connection decrypted : ZincConnection), connection.isCompressed = true →
    plain libs connection = .ok (frame.content data, decrypted) →
    frame.ReadsInflated libs data connection := by
  intro h
  have hmax : ([2, 1, 0] : Bytes).length ≤ maxSize := le_maxSize (show 3 < 2 ^ 31 by decide)
  have hreads := h inflating (announcing 2) [0] (compressedWaiting [2, 1, 0]) _ rfl
    (plain_compressedWaiting inflating hmax)
  have hread : ((compressedWaiting [2, 1, 0]).read inflating).result =
      .ok ((announcing 2).packetIn [], { compressedWaiting [] with shouldContinue := false }) := by
    rw [read_eq, plain_compressedWaiting inflating hmax, lift_ok_bind]
    exact (announcing 2).result_readPlain rfl hmax (by decide)
  have hid : ((announcing 2).packetIn []).id = 0 := (varInt_cons (c := 0) (by decide) _).1
  obtain ⟨out, hout, -⟩ := hreads _ _ hread (by rw [hid]; decide)
  have hnone : inflating.uncompress2 ((announcing 2).payload [0]) (announcing 2).dataLength.toNat =
      none := by decide
  rw [hnone] at hout
  cases hout

end Zinc.Network
