import Zinc.Base.Duplex
import Zinc.Network.Send

/-! Two `ZincConnection`s at the ends of one link. Each packet is sent with the compression
and the register that its direction reached before; `setIsCompressed` and `setupEncryption`
change both directions of an end at once. Frames arrive whole and are read one by one. The
states of a direction at its two ends are the states behind two logs, so a packet that is
read behind the same setups and packets that it was sent behind is read as it was sent. -/

namespace Zinc.Network

open Throw Traced Buffer Buffer.ByteBuffer ZincConnection Duplex

/-! ### The link -/

inductive LinkSetup
  | compress
  | encrypt (secret : Bytes)
  deriving DecidableEq

/-- `setIsCompressed(true)` or `setupEncryption`. -/
def LinkSetup.apply (connection : ZincConnection) : LinkSetup → ZincConnection
  | .compress => { connection with isCompressed := true }
  | .encrypt secret => connection.setupEncryption secret

def ZincPacket.pair (packet : ZincPacket) : BitVec 32 × Bytes := (packet.id, packet.data.getBytes)

/-- One end, with what was sent and read there so far. -/
structure LinkEnd where
  connection : ZincConnection
  logs : Logs LinkSetup (BitVec 32 × Bytes)

abbrev Link := Bool → LinkEnd

inductive LinkOp
  | send (packet : ZincPacket)
  | read
  | setup (k : LinkSetup)

namespace LinkOp

/-- What an end does with the link. The next frame of the other end arrives with the call of
`read` that takes it. -/
def step (libs : Libraries) (thresholds : Bool → BitVec 32) (link : Link) (side : Bool) :
    LinkOp → Except Fault Link
  | .send packet => do
    let connection ← (link side).connection.send libs (thresholds side) packet
    return Function.update link side ⟨connection, (link side).logs.write packet.pair⟩
  | .read => do
    let wires := (link !side).connection.output.map Sent.wire
    let wire := (wires[(messages (link side).logs.inn).length]?).getD []
    let connection := { (link side).connection with input := (link side).connection.input ++ wire }
    let (packet, connection) ← (connection.read libs).result
    return Function.update link side ⟨connection, (link side).logs.take packet.pair⟩
  | .setup k =>
    .ok (Function.update link side ⟨k.apply (link side).connection, (link side).logs.setup k⟩)

def shape : LinkOp → Op LinkSetup
  | .send _ => .write
  | .read => .take
  | .setup k => .setup k

/-- The sizes of packets and secrets in use. -/
def Bounded : LinkOp → Prop
  | .send packet => packet.data.getBytes.length ≤ 2 ^ 30
  | .setup (.encrypt secret) => secret.length = 16
  | _ => True

end LinkOp

namespace Link

def run (libs : Libraries) (thresholds : Bool → BitVec 32) : Link → List (Bool × LinkOp) →
    Except Fault Link
  | link, [] => .ok link
  | link, (side, op) :: ops => do
    let link ← op.step libs thresholds link side
    run libs thresholds link ops

def shape (link : Link) : Bool → Logs LinkSetup Unit := fun side => (link side).logs.shape

/-- Two new connections. -/
structure Fresh (link : Link) : Prop where
  input : ∀ side, (link side).connection.input = []
  output : ∀ side, (link side).connection.output = []
  isCompressed : ∀ side, (link side).connection.isCompressed = false
  isEncrypted : ∀ side, (link side).connection.isEncrypted = false
  logs : ∀ side, (link side).logs = .empty

end Link

/-! ### One direction -/

/-- How the next packet is put into bytes: whether frames are compressed, and the key and the
register if they are encrypted. -/
structure Coding where
  isCompressed : Bool
  cipher : Option (Bytes × Bytes)

namespace Coding

def start : Coding := ⟨false, none⟩

/-- The members of a connection for one direction. -/
structure Of (coding : Coding) (isCompressed isEncrypted : Bool) (aes : AESWrapper) : Prop where
  isCompressed_eq : isCompressed = coding.isCompressed
  isEncrypted_eq : isEncrypted = coding.cipher.isSome
  aes_eq : ∀ key register, coding.cipher = some (key, register) →
    aes = ⟨key, register, true, true⟩ ∧ key.length = 16

end Coding

def linkCodec (libs : Libraries) (threshold : BitVec 32) :
    Codec LinkSetup (BitVec 32 × Bytes) Coding Bytes where
  setup k coding := match k with
    | .compress => { coding with isCompressed := true }
    | .encrypt secret => { coding with cipher := some (secret, secret) }
  pass m coding :=
    let frame := frameBytes libs threshold coding.isCompressed m.1 m.2
    { coding with cipher := coding.cipher.map fun c => (c.1, (cfb8 libs c.1 c.2 frame).2) }
  word m coding :=
    let frame := frameBytes libs threshold coding.isCompressed m.1 m.2
    match coding.cipher with
    | none => frame
    | some (key, register) => (cfb8 libs key register frame).1

variable {libs : Libraries} {threshold : BitVec 32} {coding : Coding} {isCompressed isEncrypted : Bool}
  {aes : AESWrapper}

theorem Coding.Of.compress (h : coding.Of isCompressed isEncrypted aes) :
    ((linkCodec libs threshold).setup .compress coding).Of true isEncrypted aes :=
  ⟨rfl, h.isEncrypted_eq, h.aes_eq⟩

theorem Coding.Of.encrypt (h : coding.Of isCompressed isEncrypted aes) {secret : Bytes}
    (hsecret : secret.length = 16) :
    ((linkCodec libs threshold).setup (.encrypt secret) coding).Of isCompressed true
      ((aes.setKey secret).setIV secret) := by
  refine ⟨h.isCompressed_eq, rfl, fun key register hcipher => ?_⟩
  obtain ⟨rfl, rfl⟩ := Prod.mk.inj (Option.some.inj hcipher)
  exact ⟨AESWrapper.setKey_setIV (.inl hsecret) hsecret aes, hsecret⟩

/-- A frame fits the cipher's `int`. -/
theorem length_frameBytes_lt (hzlib : Zlib libs) (threshold : BitVec 32) (isCompressed : Bool)
    (id : BitVec 32) {data : Bytes} (hdata : data.length ≤ 2 ^ 30) :
    (frameBytes libs threshold isCompressed id data).length < 2 ^ 31 := by
  have hid := size_toNat_le id
  have hlen := fun value => size_toNat_le value
  have hcontent : (intBytes id ++ data).length = Base128.size id.toNat + data.length := by
    rw [List.length_append, length_intBytes]
  have hcompress := (hzlib.compress (intBytes id ++ data)).1
  unfold frameBytes
  rw [← hcontent]
  generalize toInt (intBytes id ++ data).length = dataLength
  have hone := hlen (1 + dataLength)
  have hzero := hlen 0
  have hval := hlen dataLength
  have hall := hlen (toInt (Base128.size dataLength.toNat + (compress libs (intBytes id ++ data)).length))
  cases isCompressed with
  | false =>
    simp only [Bool.false_eq_true, if_false, List.length_append, length_intBytes] at *
    omega
  | true =>
    rw [if_pos rfl]
    cases dataLength.slt threshold <;>
      simp only [Bool.false_eq_true, if_false, if_true, List.length_append, length_intBytes] at * <;>
      omega

theorem length_word (m : BitVec 32 × Bytes) (coding : Coding) :
    ((linkCodec libs threshold).word m coding).length =
      (frameBytes libs threshold coding.isCompressed m.1 m.2).length := by
  unfold linkCodec
  simp only
  split
  · rfl
  · exact Cfb8.length_encrypt ..

theorem encryptCFB8_of_set (libs : Libraries) {key : Bytes} (hkey : key.length = 16)
    (register : Bytes) {data : Bytes} (hdata : data.length < 2 ^ 31) :
    (AESWrapper.mk key register true true).encryptCFB8 libs data =
      .ok ((cfb8 libs key register data).1, ⟨key, (cfb8 libs key register data).2, true, true⟩) :=
  AESWrapper.processCFB8_of_set _ libs (.inl hkey) register hdata

/-- What is sent is the word of the packet, and the state moves past it. -/
theorem send_of_coding (hzlib : Zlib libs) {connection : ZincConnection} {packet : ZincPacket}
    (h : coding.Of connection.isCompressed connection.isEncrypted connection.encrypt)
    (hdata : packet.data.getBytes.length ≤ 2 ^ 30) :
    ∃ encrypt, connection.send libs threshold packet = .ok { connection with
        encrypt
        output := connection.output ++ [⟨connection.state, packet.id, packet.data.getBytes,
          (linkCodec libs threshold).word packet.pair coding⟩] } ∧
      ((linkCodec libs threshold).pass packet.pair coding).Of connection.isCompressed
        connection.isEncrypted encrypt := by
  have hlt := length_frameBytes_lt hzlib threshold connection.isCompressed packet.id hdata
  cases hcipher : coding.cipher with
  | none =>
    have hplain : connection.isEncrypted = false := by rw [h.isEncrypted_eq, hcipher]; rfl
    refine ⟨connection.encrypt, ?_, h.isCompressed_eq, ?_, ?_⟩
    · rw [send_plain libs threshold packet hplain, h.isCompressed_eq]
      simp [linkCodec, hcipher, ZincPacket.pair]
    · rw [h.isEncrypted_eq]
      simp [linkCodec, hcipher]
    · simp [linkCodec, hcipher]
  | some c =>
    obtain ⟨key, register⟩ := c
    obtain ⟨haes, hkey⟩ := h.aes_eq key register hcipher
    have henc : connection.isEncrypted = true := by rw [h.isEncrypted_eq, hcipher]; rfl
    obtain ⟨tmpData, hframe, hfresh⟩ := frame_fresh libs threshold packet connection
    obtain ⟨rest, hread⟩ := readArray_fresh hfresh
    have hencrypt := encryptCFB8_of_set libs hkey register hlt
    rw [← haes] at hencrypt
    obtain ⟨data, hwrite, hfresh'⟩ := writeArray_new
      (cfb8 libs key register (frameBytes libs threshold connection.isCompressed packet.id
        packet.data.getBytes)).1
    refine ⟨⟨key, (cfb8 libs key register (frameBytes libs threshold connection.isCompressed packet.id
      packet.data.getBytes)).2, true, true⟩, ?_, h.isCompressed_eq, ?_, ?_⟩
    · rw [ZincConnection.send, hframe, ok_bind, if_pos henc, hread, ok_bind]
      simp only [hencrypt, ok_bind]
      rw [hwrite, ok_bind]
      simp only [pure_eq, hfresh'.getBytes]
      simp [linkCodec, hcipher, ZincPacket.pair, h.isCompressed_eq]
    · rw [henc]
      simp [linkCodec, hcipher]
    · intro key' register' hcipher'
      simp only [linkCodec, hcipher, Option.map_some, Option.some.injEq, Prod.mk.injEq] at hcipher'
      obtain ⟨rfl, rfl⟩ := hcipher'
      rw [h.isCompressed_eq]
      exact ⟨rfl, hkey⟩

/-- A call that finds one frame behind the decryption, and nothing else. -/
theorem read_of_plain {connection connection' : ZincConnection} {id : BitVec 32} {data body : Bytes}
    (hframe : FrameOf libs id data connection'.isCompressed body) (hbody : body.length < 2 ^ 31)
    (hplain : plain libs connection = .ok (header body.length ++ body, connection'))
    (hinput : connection'.input.length = (header body.length ++ body).length) :
    (ZincConnection.read libs connection).result =
      .ok (packetOf id data, { connection' with input := [], shouldContinue := false }) := by
  have hwhole : ¬ (header body.length ++ body).length < body.length := by
    rw [List.length_append]
    omega
  have hdrop : connection'.input.drop ((header body.length).length + body.length) = [] := by
    rw [List.drop_eq_nil_iff, hinput, List.length_append]
  rw [read_eq, hplain, lift_ok_bind]
  change (readPlain libs (header body.length ++ body) connection').result = _
  rw [readPlain_header libs connection' hbody, if_neg hwhole, result_bind,
    result_of_frameOf hframe hbody, ok_bind, ← hdrop]
  rfl

/-- A word is read as the packet that it was written for. -/
theorem read_of_coding (hzlib : Zlib libs) {connection : ZincConnection} {m : BitVec 32 × Bytes}
    (h : coding.Of connection.isCompressed connection.isEncrypted connection.decrypt)
    (hdata : m.2.length ≤ 2 ^ 30)
    (hinput : connection.input = (linkCodec libs threshold).word m coding) :
    ∃ decrypt, (ZincConnection.read libs connection).result = .ok (packetOf m.1 m.2,
        { connection with decrypt, input := [], shouldContinue := false }) ∧
      ((linkCodec libs threshold).pass m coding).Of connection.isCompressed connection.isEncrypted
        decrypt := by
  obtain ⟨body, hframe, hbody, hbytes⟩ := frameBytes_eq hzlib threshold coding.isCompressed m.1 hdata
  have hlt := length_frameBytes_lt hzlib threshold coding.isCompressed m.1 hdata
  have hlen : connection.input.length = (header body.length ++ body).length := by
    rw [hinput, length_word, hbytes]
  have hmax : connection.input.length ≤ maxSize := by
    rw [hlen, ← hbytes]
    exact le_maxSize hlt
  rw [← h.isCompressed_eq] at hframe
  cases hcipher : coding.cipher with
  | none =>
    have hfalse : connection.isEncrypted = false := by rw [h.isEncrypted_eq, hcipher]; rfl
    have hplain := plain_of_not_encrypted libs hfalse hmax
    have hcontent : connection.input = header body.length ++ body := by
      rw [hinput, ← hbytes]
      simp [linkCodec, hcipher]
    rw [hcontent] at hplain
    refine ⟨connection.decrypt, read_of_plain hframe hbody hplain hlen, h.isCompressed_eq, ?_, ?_⟩
    · rw [h.isEncrypted_eq]
      simp [linkCodec, hcipher]
    · simp [linkCodec, hcipher]
  | some c =>
    obtain ⟨key, register⟩ := c
    obtain ⟨haes, hkey⟩ := h.aes_eq key register hcipher
    have henc : connection.isEncrypted = true := by rw [h.isEncrypted_eq, hcipher]; rfl
    have hcontent : connection.input = (cfb8 libs key register (header body.length ++ body)).1 := by
      rw [hinput, ← hbytes]
      simp [linkCodec, hcipher]
    have hdec : connection.decrypt.decryptCFB8 libs connection.input =
        .ok (header body.length ++ body,
          ⟨key, (cfb8 libs key register (header body.length ++ body)).2, true, true⟩) := by
      rw [haes, AESWrapper.decryptCFB8_of_set libs hkey register (by rw [hlen, ← hbytes]; exact hlt),
        hcontent, cfb8, Cfb8.decrypt_encrypt _ _
          (fun k x => by rw [← UInt8.xor_assoc, UInt8.xor_self, UInt8.zero_xor])]
    generalize hdecrypt :
      AESWrapper.mk key (cfb8 libs key register (header body.length ++ body)).2 true true = decrypt at hdec
    have hread := @read_of_plain libs connection { connection with decrypt } m.1 m.2 body hframe hbody
      (plain_of_encrypted henc hmax hdec) hlen
    refine ⟨decrypt, hread, h.isCompressed_eq, ?_, ?_⟩
    · rw [henc]
      simp [linkCodec, hcipher]
    · intro key' register' hcipher'
      simp only [linkCodec, hcipher, Option.map_some, Option.some.injEq, Prod.mk.injEq] at hcipher'
      obtain ⟨rfl, rfl⟩ := hcipher'
      rw [hbytes]
      exact ⟨hdecrypt.symm, hkey⟩

/-! ### Both directions -/

variable {thresholds : Bool → BitVec 32} {link : Link} {side : Bool}

/-- The members of a connection are what the two logs say. -/
structure LinkEnd.Keeps (libs : Libraries) (written read : BitVec 32) (e : LinkEnd) : Prop where
  input : e.connection.input = []
  writes : ((linkCodec libs written).after .start e.logs.out).Of e.connection.isCompressed
    e.connection.isEncrypted e.connection.encrypt
  reads : ((linkCodec libs read).after .start e.logs.inn).Of e.connection.isCompressed
    e.connection.isEncrypted e.connection.decrypt
  wires : e.connection.output.map Sent.wire = (linkCodec libs written).words .start e.logs.out
  bounded : ∀ m ∈ messages e.logs.out, m.2.length ≤ 2 ^ 30

namespace LinkEnd.Keeps

variable {e : LinkEnd} {written read : BitVec 32}

theorem setup (h : e.Keeps libs written read) {k : LinkSetup} (hk : (LinkOp.setup k).Bounded) :
    (LinkEnd.mk (k.apply e.connection) (e.logs.setup k)).Keeps libs written read := by
  have hwires : (linkCodec libs written).words .start (e.logs.out ++ [.setup k]) = _ :=
    Codec.words_setup ..
  have hbounded : ∀ m ∈ messages (e.logs.out ++ [.setup k]), m.2.length ≤ 2 ^ 30 := by
    intro m hm
    rw [messages_append] at hm
    exact h.bounded m (by simpa [messages] using hm)
  cases k with
  | compress =>
    refine ⟨h.input, ?_, ?_, h.wires.trans hwires.symm, hbounded⟩
    · simpa only [LinkSetup.apply, Logs.setup, Codec.after_setup] using h.writes.compress
    · simpa only [LinkSetup.apply, Logs.setup, Codec.after_setup] using h.reads.compress
  | encrypt secret =>
    refine ⟨h.input, ?_, ?_, h.wires.trans hwires.symm, hbounded⟩
    · simpa only [LinkSetup.apply, setupEncryption, Logs.setup, Codec.after_setup] using h.writes.encrypt hk
    · simpa only [LinkSetup.apply, setupEncryption, Logs.setup, Codec.after_setup] using h.reads.encrypt hk

theorem send (hzlib : Zlib libs) (h : e.Keeps libs written read) {packet : ZincPacket}
    (hpacket : packet.data.getBytes.length ≤ 2 ^ 30) :
    ∃ connection, e.connection.send libs written packet = .ok connection ∧
      (LinkEnd.mk connection (e.logs.write packet.pair)).Keeps libs written read := by
  obtain ⟨encrypt, hsend, hwrites⟩ := send_of_coding hzlib h.writes hpacket
  refine ⟨_, hsend, h.input, ?_, h.reads, ?_, ?_⟩
  · simpa only [Logs.write, Codec.after_message] using hwrites
  · rw [Logs.write, Codec.words_message, List.map_append, h.wires]
    rfl
  · intro m hm
    rw [Logs.write, messages_append, List.mem_append] at hm
    rcases hm with hm | hm
    · exact h.bounded m hm
    · obtain rfl : m = packet.pair := by simpa [messages] using hm
      exact hpacket

theorem take (hzlib : Zlib libs) (h : e.Keeps libs written read) {m : BitVec 32 × Bytes}
    (hm : m.2.length ≤ 2 ^ 30) {input : Bytes} (hinput : input = (linkCodec libs read).word m
      ((linkCodec libs read).after .start e.logs.inn)) :
    ∃ packet connection, (ZincConnection.read libs { e.connection with input }).result =
        .ok (packet, connection) ∧ packet.pair = m ∧
      (LinkEnd.mk connection (e.logs.take m)).Keeps libs written read := by
  obtain ⟨decrypt, hread, hreads⟩ := @read_of_coding libs read _ hzlib
    { e.connection with input } m h.reads hm hinput
  refine ⟨_, _, hread, ?_, rfl, h.writes, ?_, h.wires, h.bounded⟩
  · exact Prod.ext rfl (writeBytes_new m.2).2.getBytes
  · simpa only [Logs.take, Codec.after_message] using hreads

end LinkEnd.Keeps

/-- Both ends keep what their logs say, and each follows the other. -/
structure Link.InStep (libs : Libraries) (thresholds : Bool → BitVec 32) (link : Link) : Prop where
  keeps : ∀ side, (link side).Keeps libs (thresholds side) (thresholds !side)
  follows : ∀ side, Follows (link side).logs.inn (link !side).logs.out

namespace Link

theorem Fresh.inStep (h : Fresh link) : InStep libs thresholds link := by
  constructor
  · intro side
    have hlogs : (link side).logs = ⟨[], []⟩ := h.logs side
    have hstart : ∀ aes, Coding.start.Of (link side).connection.isCompressed
        (link side).connection.isEncrypted aes := fun aes =>
      ⟨h.isCompressed side, h.isEncrypted side, by simp [Coding.start]⟩
    refine ⟨h.input side, ?_, ?_, ?_, ?_⟩ <;> rw [hlogs]
    · exact hstart _
    · exact hstart _
    · rw [h.output side]
      rfl
    · intro m hm
      simp [messages] at hm
  · intro side
    rw [h.logs side]
    exact Follows.of_prefix (List.nil_prefix)

/-- One end moves on. -/
theorem InStep.update (h : InStep libs thresholds link) {e : LinkEnd}
    (hkeeps : e.Keeps libs (thresholds side) (thresholds !side))
    (hinn : Follows e.logs.inn (link !side).logs.out)
    (hout : Follows (link !side).logs.inn e.logs.out) :
    InStep libs thresholds (Function.update link side e) := by
  have hne : (!side) ≠ side := by simp
  constructor
  · intro s
    obtain rfl | rfl := Bool.eq_or_eq_not s side
    · rwa [Function.update_self]
    · rw [Function.update_of_ne hne]
      exact h.keeps _
  · intro s
    obtain rfl | rfl := Bool.eq_or_eq_not s side
    · rwa [Function.update_self, Function.update_of_ne hne]
    · rwa [Bool.not_not, Function.update_self, Function.update_of_ne hne]

theorem shape_update (link : Link) (side : Bool) (e : LinkEnd) :
    shape (Function.update link side e) = Function.update (shape link) side e.logs.shape := by
  funext s
  unfold shape
  by_cases hs : s = side
  · subst hs
    rw [Function.update_self, Function.update_self]
  · rw [Function.update_of_ne hs, Function.update_of_ne hs]

/-- One operation. -/
theorem InStep.step (hzlib : Zlib libs) (h : InStep libs thresholds link) {op : LinkOp}
    (hbounded : op.Bounded) (hallowed : op.shape.Allowed (shape link) side) :
    ∃ link', op.step libs thresholds link side = .ok link' ∧ InStep libs thresholds link' ∧
      shape link' = Function.update (shape link) side (op.shape.next (shape link side)) := by
  have hother := h.follows (!side)
  rw [Bool.not_not] at hother
  cases op with
  | send packet =>
    obtain ⟨connection, hsend, hkeeps⟩ := (h.keeps side).send hzlib hbounded
    refine ⟨_, by rw [LinkOp.step, hsend]; rfl, h.update hkeeps (h.follows side) (hother.write _), ?_⟩
    rw [shape_update, Logs.shape_write]
    rfl
  | setup k =>
    refine ⟨_, rfl, h.update ((h.keeps side).setup hbounded) ((h.follows side).setup k)
      (hother.write _), ?_⟩
    rw [shape_update, Logs.shape_setup]
    rfl
  | read =>
    obtain ⟨m, hnext⟩ := (h.follows side).next hallowed
    have hword := (linkCodec libs (thresholds !side)).words_next hnext .start
    have hmem : m ∈ messages (link !side).logs.out := by
      have hmessages := prefix_messages hnext
      rw [messages_append] at hmessages
      exact hmessages.subset (List.mem_append_right _ (List.mem_singleton.mpr rfl))
    obtain ⟨packet, connection, hread, hpair, hkeeps⟩ :=
      (h.keeps side).take hzlib ((h.keeps !side).bounded m hmem) rfl
    rw [← hpair] at hkeeps hnext
    refine ⟨Function.update link side ⟨connection, (link side).logs.take packet.pair⟩, ?_,
      h.update hkeeps (Follows.of_prefix hnext) hother, ?_⟩
    · simp only [LinkOp.step, (h.keeps !side).wires, hword, (h.keeps side).input, List.nil_append,
        Option.getD_some, hread, ok_bind, pure_eq]
    · rw [shape_update, Logs.shape_take]
      rfl

/-- A whole run. -/
theorem InStep.run (hzlib : Zlib libs) (h : InStep libs thresholds link) (ops : List (Bool × LinkOp))
    (hbounded : ∀ x ∈ ops, x.2.Bounded)
    (horderly : Orderly (shape link) (ops.map fun x => (x.1, x.2.shape))) :
    ∃ link', Link.run libs thresholds link ops = .ok link' ∧ InStep libs thresholds link' := by
  induction ops generalizing link with
  | nil => exact ⟨link, rfl, h⟩
  | cons x ops ih =>
    obtain ⟨side, op⟩ := x
    obtain ⟨hallowed, hrest⟩ := horderly
    obtain ⟨link₁, hstep, hstep', hshape⟩ := h.step hzlib (hbounded _ List.mem_cons_self) hallowed
    obtain ⟨link', hrun, hrun'⟩ :=
      ih hstep' (fun x hx => hbounded x (List.mem_cons_of_mem _ hx)) (by rw [hshape]; exact hrest)
    exact ⟨link', by rw [Link.run, hstep, ok_bind, hrun], hrun'⟩

end Link

/-- What two connected ends read is what was sent at the other end, in order, whatever they do in
which order, as long as each packet is read behind the setups that it was sent behind. -/
theorem link_delivers (hzlib : Zlib libs) (hfresh : link.Fresh) (ops : List (Bool × LinkOp))
    (hbounded : ∀ x ∈ ops, x.2.Bounded)
    (horderly : Orderly (fun _ => .empty) (ops.map fun x => (x.1, x.2.shape))) :
    ∃ link', link.run libs thresholds ops = .ok link' ∧
      ∀ side, messages (link' side).logs.inn <+: messages (link' !side).logs.out := by
  have hshape : link.shape = fun _ => .empty := by
    funext side
    rw [Link.shape, hfresh.logs side]
    rfl
  obtain ⟨link', hrun, hstep⟩ := hfresh.inStep.run hzlib ops hbounded (by rwa [hshape])
  exact ⟨link', hrun, fun side => (hstep.follows side).prefix_messages⟩

/-- A packet in each direction, with encryption from between them on. -/
def shortTalk : List (Bool × LinkOp) :=
  [(false, .send (.ofId 1)), (false, .setup (.encrypt (zeros 16))), (true, .read),
    (true, .setup (.encrypt (zeros 16))), (true, .send (.ofId 2)), (false, .read)]

theorem link_delivers_sample : ∃ link' : Link,
    Link.run storing (fun _ => 256) (fun _ => ⟨waiting [], .empty⟩) shortTalk = .ok link' ∧
      ∀ side, messages (link' side).logs.inn <+: messages (link' !side).logs.out := by
  have hempty : ∀ id, (ZincPacket.ofId id).data.getBytes.length ≤ 2 ^ 30 := by
    intro id
    change ByteBuffer.new.getBytes.length ≤ 2 ^ 30
    rw [fresh_new.getBytes]
    decide
  have hbounded : ∀ x ∈ shortTalk, x.2.Bounded := by
    have hlen := length_zeros 16
    simp only [shortTalk, List.forall_mem_cons, LinkOp.Bounded]
    exact ⟨hempty 1, hlen, trivial, hlen, hempty 2, trivial, by simp⟩
  exact @link_delivers storing (fun _ => 256) (fun _ => ⟨waiting [], .empty⟩) zlib_storing
    ⟨fun _ => rfl, fun _ => rfl, fun _ => rfl, fun _ => rfl, fun _ => rfl⟩ shortTalk hbounded
    ⟨trivial, trivial, ⟨_, rfl⟩, trivial, trivial, ⟨_, rfl⟩, trivial⟩

end Zinc.Network
