import Zinc.Network.Framing

/-! A peer that sends packets as one encrypted stream, and the calls of
`ZincConnection::read` at the other end. Every call decrypts all that is buffered
and keeps the register behind it, but drains one frame at most. The register of
the peer is met again at the next call only if the drained frame was all that
was buffered. -/

namespace Zinc.Network

open Throw Traced Buffer Buffer.ByteBuffer

/-! ### Sent packets -/

/-- The ways to put a packet into a frame. -/
inductive FrameOf (libs : Libraries) (id : BitVec 32) (data : Bytes) : Bool → Bytes → Prop
  | plain : FrameOf libs id data false (intBytes id ++ data)
  | small : FrameOf libs id data true (intBytes 0 ++ (intBytes id ++ data))
  | compressed (size : ℕ) (compressed : Bytes) (hsize : (intBytes id ++ data).length = size)
      (hmax : size < 2 ^ 31)
      (hzlib : libs.uncompress2 compressed size = some (intBytes id ++ data)) :
      FrameOf libs id data true (intBytes (BitVec.ofNat 32 size) ++ compressed)

/-- A packet of the peer with the content of its frame. -/
structure Framed (libs : Libraries) (isCompressed : Bool) where
  id : BitVec 32
  data : Bytes
  body : Bytes
  frameOf : FrameOf libs id data isCompressed body
  id_nonneg : id.msb = false
  length_lt : body.length < 2 ^ 31

theorem result_idAndData_intBytes {length counted : ℕ} {id : BitVec 32} {data : Bytes}
    (hcounted : counted ≤ 1) (hmax : length < 2 ^ 31)
    (hlen : (intBytes id ++ data).length + counted = length) (b : Bytes) :
    (idAndData length counted (intBytes id ++ data ++ b)).result = .ok (id, data) := by
  rw [List.length_append, length_intBytes] at hlen
  obtain ⟨hval, hafter⟩ := varInt_intBytes id (data ++ b)
  rw [List.append_assoc, result_idAndData hmax hcounted, hval, hafter, if_pos (by omega),
    List.take_left' (by omega)]

theorem result_of_frameOf {libs : Libraries} {id : BitVec 32} {data body : Bytes}
    {isCompressed : Bool} (h : FrameOf libs id data isCompressed body) (hmax : body.length < 2 ^ 31)
    (b : Bytes) :
    (frameBody libs isCompressed body.length (body ++ b)).result = .ok (id, data) := by
  cases h with
  | plain => exact result_idAndData_intBytes (by omega) hmax rfl b
  | small =>
    obtain ⟨hzero, hafter⟩ := varInt_intBytes 0 (intBytes id ++ data ++ b)
    rw [List.append_assoc, frameBody_uncompressed hzero, hafter]
    apply result_idAndData_intBytes le_rfl hmax
    have hone : (intBytes 0).length = 1 := rfl
    simp only [List.length_append, hone]
    omega
  | compressed size compressed hsize hlt hzlib =>
    have hpos : 0 < size := by
      have := Base128.size_pos id.toNat
      rw [List.length_append, length_intBytes] at hsize
      omega
    have hval : (BitVec.ofNat 32 size).toNat = size := by
      rw [BitVec.toNat_ofNat, Nat.mod_eq_of_lt (by omega)]
    have hne : BitVec.ofNat 32 size ≠ 0 := by
      intro hz
      have hzero := congrArg BitVec.toNat hz
      rw [hval] at hzero
      change size = 0 at hzero
      omega
    have hlen := length_intBytes (BitVec.ofNat 32 size)
    obtain ⟨hv, hafter⟩ := varInt_intBytes (BitVec.ofNat 32 size) (compressed ++ b)
    have htake : (compressed ++ b).take
        ((intBytes (BitVec.ofNat 32 size) ++ compressed).length -
          Base128.size (BitVec.ofNat 32 size).toNat) = compressed := by
      rw [List.take_left' (by rw [List.length_append]; omega)]
    have hu := uncompress_eq (le_maxSize (show size < 2 ^ 31 by omega)) hzlib
    rw [List.take_left' hsize] at hu
    have hfit : Base128.size (BitVec.ofNat 32 size).toNat ≤
        (intBytes (BitVec.ofNat 32 size) ++ compressed).length := by
      rw [List.length_append]
      omega
    rw [List.append_assoc, result_frameBody_compressed hmax (by rwa [hv]), hv, hafter, if_pos hfit,
      htake, toSize_ofNat hlt, hu, ok_bind, memory_eq]
    exact result_idAndData_intBytes (by omega) hlt (by omega) _

/-! ### The stream -/

variable {libs : Libraries} {isCompressed : Bool}

/-- The frame of a packet on the wire, before encryption. -/
def Framed.frame (packet : Framed libs isCompressed) : Bytes :=
  header packet.body.length ++ packet.body

/-- What the receiver should see of a packet. -/
def Framed.content (packet : Framed libs isCompressed) : BitVec 32 × Bytes := (packet.id, packet.data)

/-- CFB8 encryption under a key, from a register on. -/
def cfb8 (libs : Libraries) (key register data : Bytes) : Bytes × Bytes :=
  Cfb8.encrypt (libs.cipher key) (· ^^^ ·) register data

/-- One call on exactly one encrypted frame. -/
theorem read_one_frame (packet : Framed libs isCompressed) {connection : ZincConnection}
    {secret register : Bytes} (hsecret : secret.length = 16)
    (henc : connection.isEncrypted = true) (hcomp : connection.isCompressed = isCompressed)
    (hdec : connection.decrypt = ⟨secret, register, true, true⟩)
    (hinput : connection.input = (cfb8 libs secret register packet.frame).1)
    (hlen : packet.frame.length < 2 ^ 31) :
    (ZincConnection.read libs connection).result = .ok (packetOf packet.id packet.data,
      { connection with
        decrypt := ⟨secret, (cfb8 libs secret register packet.frame).2, true, true⟩
        input := []
        shouldContinue := false }) := by
  have hcipher : (cfb8 libs secret register packet.frame).1.length = packet.frame.length :=
    Cfb8.length_encrypt ..
  have hround : connection.decrypt.decryptCFB8 libs connection.input =
      .ok (packet.frame, ⟨secret, (cfb8 libs secret register packet.frame).2, true, true⟩) := by
    rw [hdec, hinput, AESWrapper.decryptCFB8_of_set libs hsecret register (by omega), cfb8,
      Cfb8.decrypt_encrypt _ _ (fun k x => by rw [← UInt8.xor_assoc, UInt8.xor_self, UInt8.zero_xor])]
  have hplain := plain_of_encrypted henc (by rw [hinput, hcipher]; unfold maxSize; omega) hround
  have hdrop : connection.input.drop ((header packet.body.length).length + packet.body.length) = [] := by
    rw [List.drop_eq_nil_iff, hinput, hcipher, Framed.frame, List.length_append]
  have hwhole : ¬ (header packet.body.length ++ packet.body).length < packet.body.length := by
    rw [List.length_append]
    omega
  rw [read_eq, hplain, lift_ok_bind]
  change (readPlain libs (header packet.body.length ++ packet.body) _).result = _
  rw [readPlain_header libs _ packet.length_lt, if_neg hwhole, result_bind]
  change ((frameBody libs connection.isCompressed _ _).result >>= _) = _
  rw [hcomp, result_of_frameOf packet.frameOf packet.length_lt, ok_bind]
  change Except.ok (packetOf packet.id packet.data, ZincConnection.mk _ (connection.input.drop _) ..) = _
  rw [hdrop]

/-- What happens at the receiving end. -/
inductive Event where
  | append (chunk : Bytes)
  | read
  deriving DecidableEq

/-- The bytes that arrive. -/
def arrived : List Event → Bytes
  | [] => []
  | .append chunk :: events => chunk ++ arrived events
  | .read :: events => arrived events

/-- The packets that the calls of a run return, and the connection behind it. -/
def run (libs : Libraries) : ZincConnection → List Event →
    Except Fault (List ZincPacket × ZincConnection)
  | connection, [] => .ok ([], connection)
  | connection, .append chunk :: events =>
    run libs { connection with input := connection.input ++ chunk } events
  | connection, .read :: events => do
    let (packet, connection) ← (ZincConnection.read libs connection).result
    let (packets, connection) ← run libs connection events
    return (packet :: packets, connection)

/-- The packets with an id that is not negative. -/
def delivered (packets : List ZincPacket) : List (BitVec 32 × Bytes) :=
  (packets.filter fun packet => !packet.id.msb).map fun packet => (packet.id, packet.data.getBytes)

/-- The frames of a list of packets. -/
def frames (packets : List (Framed libs isCompressed)) : Bytes := packets.flatMap Framed.frame

/-- The run returns, the packets that it delivers are the first ones that were
sent, and a call that finds a part of the next frame asks for more data and
changes nothing. -/
structure Faithful (packets : List (Framed libs isCompressed)) (connection : ZincConnection)
    (events : List Event) : Prop where
  prefix_sent : ∃ received connection', run libs connection events = .ok (received, connection') ∧
    delivered received <+: packets.map Framed.content
  waits : ∀ before after received connection', events = before ++ .read :: after →
    run libs connection before = .ok (received, connection') →
    (arrived before).length < (frames (packets.take ((delivered received).length + 1))).length →
    Waits libs connection'

/-- Each call finds one whole frame and nothing else; the numbers are the lengths
of the frames and the number of buffered bytes. -/
def Framewise : List ℕ → ℕ → List Event → Prop
  | _, _, [] => True
  | lengths, n, .append chunk :: events => Framewise lengths (n + chunk.length) events
  | [], _, .read :: _ => False
  | length :: lengths, n, .read :: events => n = length ∧ length < 2 ^ 31 ∧ Framewise lengths 0 events

/-- The connection waits for a list of packets, with the register that their
encryption began with. -/
structure Ready (secret : Bytes) (packets : List (Framed libs isCompressed)) (register : Bytes)
    (connection : ZincConnection) (coming : Bytes) : Prop where
  isEncrypted : connection.isEncrypted = true
  isCompressed_eq : connection.isCompressed = isCompressed
  decrypt_eq : connection.decrypt = ⟨secret, register, true, true⟩
  input_prefix : connection.input ++ coming <+: (cfb8 libs secret register (frames packets)).1

theorem delivered_cons (packet : Framed libs isCompressed) (received : List ZincPacket) :
    delivered (packetOf packet.id packet.data :: received) =
      packet.content :: delivered received := by
  have hbytes : (packetOf packet.id packet.data).data.getBytes = packet.data :=
    (writeBytes_new packet.data).2.getBytes
  have hid : (!(packetOf packet.id packet.data).id.msb) = true := by
    rw [packetOf, packet.id_nonneg]
    rfl
  rw [delivered, List.filter_cons_of_pos (p := fun packet : ZincPacket => !packet.id.msb) hid,
    List.map_cons, hbytes]
  rfl

variable {secret register : Bytes} {connection : ZincConnection}

/-- A call in a framewise run. -/
theorem Ready.read {packet : Framed libs isCompressed} {packets : List (Framed libs isCompressed)}
    {coming : Bytes} (hsecret : secret.length = 16)
    (h : Ready secret (packet :: packets) register connection coming)
    (hlen : connection.input.length = packet.frame.length) (hmax : packet.frame.length < 2 ^ 31) :
    ∃ register' connection', (ZincConnection.read libs connection).result =
        .ok (packetOf packet.id packet.data, connection') ∧ connection'.input = [] ∧
      Ready secret packets register' connection' coming := by
  obtain ⟨rest, hrest⟩ := h.input_prefix
  rw [frames, List.flatMap_cons, cfb8, Cfb8.encrypt_append, List.append_assoc] at hrest
  obtain ⟨hinput, hcoming⟩ := List.append_inj hrest (hlen.trans (Cfb8.length_encrypt ..).symm)
  have hread := read_one_frame packet hsecret h.isEncrypted h.isCompressed_eq h.decrypt_eq hinput hmax
  exact ⟨_, _, hread, rfl, h.isEncrypted, h.isCompressed_eq, rfl, rest, hcoming⟩

/-- The first part of a framewise run, and what is still to come. -/
theorem Ready.run (hsecret : secret.length = 16) {packets : List (Framed libs isCompressed)}
    (before after : List Event)
    (h : Ready secret packets register connection (arrived (before ++ after)))
    (hwise : Framewise (packets.map (·.frame.length)) connection.input.length (before ++ after)) :
    ∃ k received connection', Zinc.Network.run libs connection before = .ok (received, connection') ∧
      delivered received = (packets.take k).map Framed.content ∧
      connection.input.length + (arrived before).length =
        (frames (packets.take k)).length + connection'.input.length ∧
      Framewise ((packets.drop k).map (·.frame.length)) connection'.input.length after := by
  induction before generalizing packets register connection with
  | nil => exact ⟨0, [], connection, rfl, rfl, by simp [arrived, frames], hwise⟩
  | cons event before ih =>
    cases event with
    | append chunk =>
      obtain ⟨k, received, connection', hrun, hdel, hcount, hafter⟩ :=
        @ih register { connection with input := connection.input ++ chunk } packets
          ⟨h.isEncrypted, h.isCompressed_eq, h.decrypt_eq, by
            rw [List.append_assoc]
            exact h.input_prefix⟩
          (by rw [List.length_append]; exact hwise)
      refine ⟨k, received, connection', hrun, hdel, ?_, hafter⟩
      rw [List.length_append] at hcount
      rw [arrived, List.length_append]
      omega
    | read =>
      cases packets with
      | nil => exact hwise.elim
      | cons packet packets =>
        obtain ⟨hlen, hmax, hwise'⟩ := hwise
        change connection.input.length = packet.frame.length at hlen
        obtain ⟨register', connection₁, hread, hempty, hready⟩ := h.read hsecret hlen hmax
        have hzero : connection₁.input.length = 0 := by rw [hempty, List.length_nil]
        rw [← hzero] at hwise'
        obtain ⟨k, received, connection', hrun, hdel, hcount, hafter⟩ := ih hready hwise'
        refine ⟨k + 1, packetOf packet.id packet.data :: received, connection', ?_, ?_, ?_, hafter⟩
        · rw [Zinc.Network.run, hread, ok_bind]
          change (Zinc.Network.run libs connection₁ before >>= _) = _
          rw [hrun]
          rfl
        · rw [delivered_cons, hdel, List.take_succ_cons, List.map_cons]
        · rw [hzero] at hcount
          rw [arrived, List.take_succ_cons, frames, List.flatMap_cons, List.length_append]
          change _ = _ + (frames (packets.take k)).length + _
          omega

/-- A stream whose frames are read one by one arrives as it was sent. -/
theorem stream_faithful (hsecret : secret.length = 16) (hinput : connection.input = [])
    (packets : List (Framed libs connection.isCompressed)) {events : List Event}
    (harrived : arrived events <+: (cfb8 libs secret secret (frames packets)).1)
    (hwise : Framewise (packets.map (·.frame.length)) 0 events) :
    Faithful packets (connection.setupEncryption secret) events := by
  have hset : (connection.setupEncryption secret).input = [] := hinput
  have hready : Ready secret packets secret (connection.setupEncryption secret) (arrived events) :=
    ⟨rfl, rfl, AESWrapper.setKey_setIV (.inl hsecret) hsecret _, by rw [hset]; exact harrived⟩
  have hzero : (connection.setupEncryption secret).input.length = 0 := by rw [hset, List.length_nil]
  rw [← hzero] at hwise
  constructor
  · obtain ⟨k, received, connection', hrun, hdel, -⟩ :=
      Ready.run hsecret events [] (by rwa [List.append_nil]) (by rwa [List.append_nil])
    refine ⟨received, connection', hrun, ?_⟩
    rw [hdel, List.map_take]
    exact List.take_prefix k _
  · rintro before after received connection' rfl hrun hlt
    obtain ⟨k, received₁, connection₁, hrun₁, hdel, hcount, hafter⟩ :=
      Ready.run hsecret before (.read :: after) hready hwise
    obtain ⟨rfl, rfl⟩ := Prod.mk.inj (Except.ok.inj (hrun₁.symm.trans hrun))
    exfalso
    cases hdrop : packets.drop k with
    | nil =>
      rw [hdrop] at hafter
      exact hafter
    | cons packet rest =>
      rw [hdrop] at hafter
      have hone : connection₁.input.length = packet.frame.length := hafter.1
      have hcut : k < packets.length := by
        by_contra hge
        rw [List.drop_of_length_le (Nat.not_lt.mp hge)] at hdrop
        simp at hdrop
      have hget : packets[k]? = some packet := by rw [← List.head?_drop, hdrop, List.head?_cons]
      have hcountk : (delivered received₁).length = k := by
        rw [hdel, List.length_map, List.length_take]
        omega
      have htake : frames (packets.take (k + 1)) = frames (packets.take k) ++ packet.frame := by
        rw [List.take_add_one, hget, frames, List.flatMap_append]
        simp [frames]
      rw [hset, List.length_nil] at hcount
      rw [hcountk, htake, List.length_append] at hlt
      omega

/-- A cipher whose byte depends on the last byte of the register. -/
def chaining : Libraries :=
  { copying with cipher := fun _ register => register.getLastD 0 + 1 }

/-- A packet in a plain frame. -/
def chainedPacket (id : BitVec 32) (data : Bytes) (hid : id.msb = false)
    (hlength : (intBytes id ++ data).length < 2 ^ 31) : Framed chaining false :=
  ⟨id, data, intBytes id ++ data, .plain, hid, hlength⟩

/-- Two packets, the first one in two pieces. The second one is encrypted behind the first. -/
theorem stream_faithful_sample :
    Faithful [chainedPacket 0 [5, 6] rfl (by decide), chainedPacket 1 [7] rfl (by decide)]
      ((waiting []).setupEncryption (zeros 16))
      [.append [2, 3], .append [1, 4], .read, .append [7, 9, 13], .read] :=
  @stream_faithful chaining (zeros 16) (waiting []) (length_zeros 16) rfl
    [chainedPacket 0 [5, 6] rfl (by decide), chainedPacket 1 [7] rfl (by decide)]
    [.append [2, 3], .append [1, 4], .read, .append [7, 9, 13], .read] ⟨[], by decide⟩
    ⟨rfl, by decide, rfl, by decide, trivial⟩

theorem frames_sample {libs : Libraries} (packet : Framed libs false) (h : packet.body = [0, 7]) :
    frames [packet] = [2, 0, 7] := by
  rw [frames, List.flatMap_singleton, Framed.frame, h]
  decide

/-- A call on the first byte of a stream moves the register, whatever the cipher. -/
theorem register_of_waits {secret register : Bytes} {c : UInt8} (hsecret : secret.length = 16)
    (henc : connection.isEncrypted = true) (hdec : connection.decrypt = ⟨secret, register, true, true⟩)
    (hinput : connection.input = [c]) (hlength : libs.cipher secret register ^^^ c = 2)
    (h : Waits libs connection) : register = register.tail ++ [c] := by
  have hone : [c].length < 2 ^ 31 := show 1 < 2 ^ 31 by decide
  have hround : connection.decrypt.decryptCFB8 libs connection.input =
      .ok ([2], ⟨secret, register.tail ++ [c], true, true⟩) := by
    rw [hdec, hinput, AESWrapper.decryptCFB8_of_set libs hsecret register hone]
    simp [Cfb8.decrypt, Cfb8.shift, hlength]
  have hmax : connection.input.length ≤ maxSize := by
    rw [hinput]
    unfold maxSize
    simp
  have hmore : ([2] : Bytes).length < toSize (varInt (memory [2])) := by
    have hval : varInt (memory [2]) = 2 := (varInt_cons (c := 2) (by decide) _).1
    rw [hval]
    decide
  rw [Waits, read_eq, plain_of_encrypted henc hmax hround, lift_ok_bind, readPlain_of_lt hmore] at h
  have hiv := congrArg (fun p => p.2.decrypt.iv) (Except.ok.inj h)
  rw [hdec] at hiv
  exact hiv.symm

/-- A part of a frame is decrypted with the register that the rest of it needs. -/
theorem not_stream_faithful : ¬ ∃ libs : Libraries, ∀ (secret : Bytes) (connection : ZincConnection)
    (packets : List (Framed libs connection.isCompressed)) (events : List Event),
    secret.length = 16 → connection.input = [] →
    arrived events <+: (cfb8 libs secret secret (frames packets)).1 →
    Faithful packets (connection.setupEncryption secret) events := by
  rintro ⟨libs, h⟩
  obtain ⟨secret, hsecret⟩ : ∃ secret : Bytes, secret = zeros 15 ++ [1] := ⟨_, rfl⟩
  obtain ⟨c, hc⟩ : ∃ c, c = libs.cipher secret secret ^^^ 2 := ⟨_, rfl⟩
  have hlen : secret.length = 16 := by rw [hsecret]; rfl
  have hxor : libs.cipher secret secret ^^^ c = 2 := by
    rw [hc, ← UInt8.xor_assoc, UInt8.xor_self, UInt8.zero_xor]
  obtain ⟨packet, hpacket⟩ : ∃ packet : Framed libs (waiting []).isCompressed, packet.body = [0, 7] :=
    ⟨⟨0, [7], [0, 7], .plain, rfl, by decide⟩, rfl⟩
  have hframe : frames [packet] = [2, 0, 7] := frames_sample packet hpacket
  have hprefix : arrived [.append [c], .read] <+: (cfb8 libs secret secret (frames [packet])).1 := by
    rw [hframe, cfb8, Cfb8.encrypt, ← hc]
    exact ⟨_, rfl⟩
  have hfaithful := h secret (waiting []) [packet] [.append [c], .read] hlen rfl hprefix
  have hwaits := hfaithful.waits [.append [c]] [] [] _ rfl rfl (by
    have hcount : (delivered []).length + 1 = 1 := rfl
    rw [hcount, List.take_of_length_le (by simp), hframe]
    exact show 1 < 3 by decide)
  have hregister := register_of_waits hlen rfl (AESWrapper.setKey_setIV (.inl hlen) hlen _) rfl hxor hwaits
  have hlast := congrArg (fun register => register[14]?) hregister
  rw [hsecret] at hlast
  exact absurd hlast (by simp [zeros])

end Zinc.Network
