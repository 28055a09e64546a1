import Zinc.Network.BanCheck
import Zinc.Network.Completion
import Zinc.Text.Codec

/-! A visit to a server, seen from both ends of its socket. The client is another
`ZincConnection`. It speaks when it has heard what it waits for, and sets up compression and
encryption behind the packets that ask for it. As every packet is read behind the setups that
it was sent behind, the client hears the packets of the server as they were sent, up to the
last one, whatever the server's settings and registries are. -/

namespace Zinc.Network

open Throw Duplex Buffer Buffer.ByteBuffer Nbt Nbt.NBTElement ZincConnection

/-! ### Turns -/

/-- Two ends of a socket, and the packets that the client has read. -/
structure Dialogue where
  server : ZincConnection
  client : ZincConnection
  heard : List (BitVec 32 × Bytes)

/-- What the client does next; a packet finds a moment at the server. -/
inductive Turn
  | say (i : Input)
  | hear
  | tune (k : LinkSetup)

namespace Dialogue

/-- Each frame arrives whole. The client's own frames are compressed from `threshold` on. -/
def step (host : Host) (threshold : BitVec 32) (d : Dialogue) : Turn → Except Fault Dialogue
  | .say i => do
    let client ← d.client.send host.libs threshold i.packet
    let wires := (client.output.drop d.client.output.length).map Sent.wire
    let server := { d.server with input := d.server.input ++ wires.flatten }
    let (server, _) ← onRead host (fun _ => i.moment) 1 i.online server
    return { d with server, client }
  | .hear => do
    let wire := ((d.server.output.map Sent.wire)[d.heard.length]?).getD []
    let client := { d.client with input := d.client.input ++ wire }
    let (packet, client) ← (client.read host.libs).result
    return { d with client, heard := d.heard ++ [packet.pair] }
  | .tune k => .ok { d with client := k.apply d.client }

def run (host : Host) (threshold : BitVec 32) (d : Dialogue) (turns : List Turn) :
    Except Fault Dialogue :=
  turns.foldlM (step host threshold) d

end Dialogue

/-- How the client follows the server. -/
def turn : Item LinkSetup (BitVec 32 × Bytes) → Turn
  | .setup k => .tune k
  | .message _ => .hear

/-! ### Answers -/

variable {host : Host} {threshold : BitVec 32} {c c' c'' : ZincConnection}
  {items items' : List (Item LinkSetup (BitVec 32 × Bytes))}

/-- Behind any logs of an end, these items come next. -/
def Answers (host : Host) (threshold : BitVec 32) (c : ZincConnection)
    (items : List (Item LinkSetup (BitVec 32 × Bytes))) (c' : ZincConnection) : Prop :=
  ∀ logs, (LinkEnd.mk c logs).Keeps host.libs host.config.threshold threshold →
    (LinkEnd.mk c' (logs.answer items)).Keeps host.libs host.config.threshold threshold

namespace Answers

theorem refl (c : ZincConnection) : Answers host threshold c [] c :=
  fun logs h => by rwa [Logs.answer_nil]

theorem trans (h : Answers host threshold c items c') (h' : Answers host threshold c' items' c'') :
    Answers host threshold c (items ++ items') c'' :=
  fun logs hkeeps => by rw [Logs.answer_append]; exact h' _ (h logs hkeeps)

theorem setup {k : LinkSetup} (hk : (LinkOp.setup k).Bounded) (c : ZincConnection) :
    Answers host threshold c [.setup k] (k.apply c) :=
  fun logs h => by rw [Logs.answer_setup]; exact h.setup hk

/-- Only the members that a link depends on matter. -/
theorem of_eq (hinput : c'.input = c.input) (hcompressed : c'.isCompressed = c.isCompressed)
    (hencrypted : c'.isEncrypted = c.isEncrypted) (hencrypt : c'.encrypt = c.encrypt)
    (hdecrypt : c'.decrypt = c.decrypt) (houtput : c'.output = c.output) :
    Answers host threshold c [] c' := by
  intro logs h
  rw [Logs.answer_nil]
  refine ⟨hinput.trans h.input, ?_, ?_, ?_, h.bounded⟩
  · simpa only [hcompressed, hencrypted, hencrypt] using h.writes
  · simpa only [hcompressed, hencrypted, hdecrypt] using h.reads
  · simpa only [houtput] using h.wires

end Answers

/-- A packet that fits is sent. -/
theorem post_answers (hzlib : Zlib host.libs) {id : BitVec 32} {write : Action Unit} {w : Bytes}
    (hwrite : Produces (Fresh true) write w) (hw : w.length ≤ 2 ^ 30) (c : ZincConnection) :
    ∃ encrypt output, c.post host id write = .ok { c with encrypt := encrypt, output := output } ∧
      Answers host threshold c [.message (id, w)] { c with encrypt := encrypt, output := output } := by
  rcases @post_total_zlib host c hzlib id write w hwrite hw with ⟨c', hpost⟩
  rcases post_eq_ok hpost with ⟨encrypt, new, rfl, -⟩
  refine ⟨encrypt, c.output ++ new, hpost, fun logs h => ?_⟩
  rcases fresh_of_produces hwrite fresh_new with ⟨data, hdata, hfresh⟩
  have hpair : (ZincPacket.mk id data).pair = (id, w) := Prod.ext rfl hfresh.getBytes
  have hfits : (ZincPacket.mk id data).data.getBytes.length ≤ 2 ^ 30 := by
    rw [hfresh.getBytes]
    exact hw
  rcases h.send hzlib hfits with ⟨connection, hsend, hkeeps⟩
  rw [post, hdata, ok_bind] at hpost
  obtain rfl := Except.ok.inj (hsend.symm.trans hpost)
  rw [hpair] at hkeeps
  rw [Logs.answer_message]
  exact hkeeps

/-- One packet for each of a list of things. -/
theorem posts_answers {α : Type} (hzlib : Zlib host.libs) {id : BitVec 32} {write : α → Action Unit}
    {word : α → Bytes} (as : List α) (hwrite : ∀ a ∈ as, Produces (Fresh true) (write a) (word a))
    (hword : ∀ a ∈ as, (word a).length ≤ 2 ^ 30) (c : ZincConnection) :
    ∃ encrypt output, as.foldlM (fun c a => c.post host id (write a)) c =
        .ok { c with encrypt := encrypt, output := output } ∧
      Answers host threshold c (as.map fun a => .message (id, word a))
        { c with encrypt := encrypt, output := output } := by
  induction as generalizing c with
  | nil => exact ⟨c.encrypt, c.output, rfl, Answers.refl c⟩
  | cons a as ih =>
    rcases @post_answers host threshold hzlib id _ _ (hwrite a List.mem_cons_self)
      (hword a List.mem_cons_self) c with ⟨encrypt, output, hpost, hanswers⟩
    rcases ih (fun b hb => hwrite b (List.mem_cons_of_mem a hb))
      (fun b hb => hword b (List.mem_cons_of_mem a hb))
      { c with encrypt := encrypt, output := output } with ⟨encrypt', output', hposts, hanswers'⟩
    refine ⟨encrypt', output', ?_, hanswers.trans hanswers'⟩
    rw [List.foldlM_cons, hpost, ok_bind]
    exact hposts

/-! ### Exchanges -/

/-- What the handlers know and keep of a player. -/
structure Face where
  ip : Bytes
  state : State
  networkInfo : NetworkInfo
  playerInfo : PlayerInfo
  settingsInfo : SettingsInfo
  kickAtLogin : ℕ
  loginFinished : Bool

def ZincConnection.face (c : ZincConnection) : Face :=
  ⟨c.ip, c.state, c.networkInfo, c.playerInfo, c.settingsInfo, c.kickAtLogin, c.loginFinished⟩

/-- A packet is handled to its end, with an answer. -/
def Replies (host : Host) (threshold : BitVec 32) (i : Input) (f : Face)
    (items : List (Item LinkSetup (BitVec 32 × Bytes))) (f' : Face) : Prop :=
  ∀ c : ZincConnection, c.face = f → ∃ c', switch host i.moment i.online i.packet c = .ok ⟨c', false⟩ ∧
    c'.face = f' ∧ Answers host threshold c items c'

/-- Everything that was sent has been read. -/
def Dialogue.Level (host : Host) (threshold : BitVec 32) (d : Dialogue) : Prop :=
  ∃ out inn, (LinkEnd.mk d.server ⟨out, inn⟩).Keeps host.libs host.config.threshold threshold ∧
    (LinkEnd.mk d.client ⟨inn, out⟩).Keeps host.libs threshold host.config.threshold ∧
    d.heard = messages out

variable {d : Dialogue}

theorem onRead_of_switch {moments : ℕ → Moment} {online : ℤ} {packet : ZincPacket}
    (hread : (c.read host.libs).result = .ok (packet, c')) (hid : packet.id.msb = false)
    (hswitch : switch host (moments 0) online packet c' = .ok ⟨c'', false⟩) (hinput : c''.input = []) :
    ∃ online', onRead host moments 1 online c = .ok ({ c'' with shouldContinue := true }, online') := by
  have hrest : TCPUtil.read c''.input = .ok (ofBytes []) := by
    rw [hinput, TCPUtil.read, if_neg (by simp), (writeBytes_new []).1]
    rfl
  have hsize : (ofBytes []).size = 0 := (writeBytes_new []).2.size
  refine ⟨onlineAfter packet c' online, ?_⟩
  unfold onRead
  rw [hread, ok_bind]
  simp only [hid, Bool.false_eq_true, if_false, hswitch, ok_bind, hrest, hsize, ne_eq, not_true_eq_false,
    false_and]
  rfl

namespace Dialogue

/-- The server hears a packet and answers. -/
theorem say (hzlib : Zlib host.libs) {out inn : List (Item LinkSetup (BitVec 32 × Bytes))}
    (hserver : (LinkEnd.mk d.server ⟨out, inn⟩).Keeps host.libs host.config.threshold threshold)
    (hclient : (LinkEnd.mk d.client ⟨inn, out⟩).Keeps host.libs threshold host.config.threshold)
    {i : Input} {id : BitVec 32} {bytes : Bytes} (hpacket : i.packet = packetOf id bytes)
    (hid : id.msb = false) (hbytes : bytes.length ≤ 2 ^ 30) {f : Face}
    (hreplies : Replies host threshold i d.server.face items f) :
    ∃ d', d.step host threshold (.say i) = .ok d' ∧ d'.heard = d.heard ∧ d'.server.face = f ∧
      (LinkEnd.mk d'.server ⟨out ++ items, inn ++ .message (id, bytes) :: setups items⟩).Keeps host.libs
        host.config.threshold threshold ∧
      (LinkEnd.mk d'.client ⟨inn ++ [.message (id, bytes)], out⟩).Keeps host.libs threshold
        host.config.threshold := by
  have hget : i.packet.data.getBytes = bytes := by
    rw [hpacket]
    exact (writeBytes_new bytes).2.getBytes
  have hpair : i.packet.pair = (id, bytes) := Prod.ext (by rw [hpacket]; rfl) hget
  have hfits : i.packet.data.getBytes.length ≤ 2 ^ 30 := by
    rw [hget]
    exact hbytes
  rcases send_of_coding hzlib hclient.writes hfits with ⟨encrypt, hsend, -⟩
  rcases hclient.send hzlib hfits with ⟨client, hsend', hclient'⟩
  obtain rfl := Except.ok.inj (hsend.symm.trans hsend')
  rw [hpair] at hclient' hsend
  generalize hword : (linkCodec host.libs threshold).word (id, bytes)
    ((linkCodec host.libs threshold).after .start inn) = word at hsend hclient'
  -- what arrives is the packet, and the server's log goes past it
  rcases @read_of_coding host.libs threshold _ hzlib { d.server with input := word } (id, bytes)
    hserver.reads hbytes hword.symm with ⟨decrypt, hread, -⟩
  rcases hserver.take hzlib hbytes hword.symm with ⟨packet, server, hread', -, hserver'⟩
  obtain ⟨rfl, rfl⟩ := Prod.mk.inj (Except.ok.inj (hread.symm.trans hread'))
  rcases hreplies { d.server with decrypt, input := [], shouldContinue := false } rfl with
    ⟨c', hswitch, hface, hanswers⟩
  have hkeeps := hanswers _ hserver'
  rw [hpacket] at hswitch
  rcases @onRead_of_switch host _ _ c' (fun _ => i.moment) i.online _ hread hid hswitch hkeeps.input
    with ⟨online', honRead⟩
  refine ⟨⟨{ c' with shouldContinue := true }, _, d.heard⟩, ?_, rfl, hface, ?_, hclient'⟩
  · have hsend : d.client.send host.libs threshold i.packet = _ := hsend
    have hinput : d.server.input = [] := hserver.input
    unfold step
    simp only [hsend, ok_bind, List.drop_left, List.map_cons, List.map_nil, List.flatten_cons,
      List.flatten_nil, List.append_nil, hinput, List.nil_append, honRead, pure_eq]
  · have hlogs : ((Logs.mk out inn).take (id, bytes)).answer items =
        ⟨out ++ items, inn ++ .message (id, bytes) :: setups items⟩ := by
      simp [Logs.take, Logs.answer]
    rw [← hlogs]
    exact ⟨hkeeps.input, hkeeps.writes, hkeeps.reads, hkeeps.wires, hkeeps.bounded⟩

/-- The client hears the next packet. -/
theorem hear (hzlib : Zlib host.libs) {out inn inn' : List (Item LinkSetup (BitVec 32 × Bytes))}
    {m : BitVec 32 × Bytes} {rest : List (Item LinkSetup (BitVec 32 × Bytes))}
    (hserver : (LinkEnd.mk d.server ⟨out ++ .message m :: rest, inn⟩).Keeps host.libs
      host.config.threshold threshold)
    (hclient : (LinkEnd.mk d.client ⟨inn', out⟩).Keeps host.libs threshold host.config.threshold)
    (hheard : d.heard = messages out) :
    ∃ client, d.step host threshold .hear = .ok ⟨d.server, client, d.heard ++ [m]⟩ ∧
      (LinkEnd.mk client ⟨inn', out ++ [.message m]⟩).Keeps host.libs threshold
        host.config.threshold := by
  have hnext : out ++ [.message m] <+: out ++ .message m :: rest := by simp
  have hword := (linkCodec host.libs host.config.threshold).words_next hnext .start
  have hm : m.2.length ≤ 2 ^ 30 := hserver.bounded m (by simp [messages])
  rcases hclient.take hzlib hm rfl with ⟨packet, client, hread, rfl, hclient'⟩
  have hwires : d.server.output.map Sent.wire = _ := hserver.wires
  have hinput : d.client.input = [] := hclient.input
  refine ⟨client, ?_, hclient'⟩
  unfold step
  simp only [hwires, hheard, hword, hinput, List.nil_append, Option.getD_some]
  rw [show (ZincConnection.read host.libs { d.client with input := _ }).result = _ from hread]
  rfl

/-- The client follows an answer to its end. -/
theorem follow (hzlib : Zlib host.libs) (items : List (Item LinkSetup (BitVec 32 × Bytes)))
    (hitems : ∀ k, .setup k ∈ items → (LinkOp.setup k).Bounded)
    {out inn : List (Item LinkSetup (BitVec 32 × Bytes))}
    (hserver : (LinkEnd.mk d.server ⟨out ++ items, inn ++ setups items⟩).Keeps host.libs
      host.config.threshold threshold)
    (hclient : (LinkEnd.mk d.client ⟨inn, out⟩).Keeps host.libs threshold host.config.threshold)
    (hheard : d.heard = messages out) :
    ∃ d', d.run host threshold (items.map turn) = .ok d' ∧ d'.server = d.server ∧
      d'.heard = d.heard ++ messages items ∧ d'.Level host threshold := by
  induction items generalizing d out inn with
  | nil =>
    rw [List.append_nil, setups, List.filter_nil, List.append_nil] at hserver
    exact ⟨d, rfl, rfl, (List.append_nil _).symm, out, inn, hserver, hclient, hheard⟩
  | cons item items ih =>
    have hrest : ∀ k, .setup k ∈ items → (LinkOp.setup k).Bounded :=
      fun k hk => hitems k (List.mem_cons_of_mem item hk)
    cases item with
    | setup k =>
      have hclient' := hclient.setup (hitems k List.mem_cons_self)
      rcases ih (d := { d with client := k.apply d.client }) hrest (by simpa [setups] using hserver)
        hclient' (by simpa [messages, Logs.setup] using hheard) with
        ⟨d', hrun, hsame, hheard', hlevel⟩
      exact ⟨d', hrun, hsame, hheard', hlevel⟩
    | message m =>
      rcases hear hzlib hserver hclient hheard with ⟨client, hhear, hclient'⟩
      rcases ih (d := ⟨d.server, client, d.heard ++ [m]⟩) hrest (by simpa [setups] using hserver)
        hclient' (by simp [messages, hheard]) with
        ⟨d', hrun, hsame, hheard', hlevel⟩
      refine ⟨d', ?_, hsame, by simpa [messages] using hheard', hlevel⟩
      rw [run, List.map_cons, List.foldlM_cons]
      change (d.step host threshold .hear >>= _) = _
      rw [hhear, ok_bind]
      exact hrun

/-- A packet, its answer, and the client behind it. -/
theorem exchange (hzlib : Zlib host.libs) (hlevel : d.Level host threshold) {i : Input}
    {id : BitVec 32} {bytes : Bytes} (hpacket : i.packet = packetOf id bytes) (hid : id.msb = false)
    (hbytes : bytes.length ≤ 2 ^ 30) {f f' : Face} (hface : d.server.face = f)
    (hreplies : Replies host threshold i f items f')
    (hitems : ∀ k, .setup k ∈ items → (LinkOp.setup k).Bounded) :
    ∃ d', d.run host threshold (.say i :: items.map turn) = .ok d' ∧ d'.server.face = f' ∧
      d'.heard = d.heard ++ messages items ∧ d'.Level host threshold := by
  subst hface
  rcases hlevel with ⟨out, inn, hserver, hclient, hheard⟩
  rcases say hzlib hserver hclient hpacket hid hbytes hreplies with
    ⟨d₁, hsay, hheard₁, hface, hserver₁, hclient₁⟩
  rw [List.append_cons] at hserver₁
  rcases follow hzlib items hitems hserver₁ hclient₁ (hheard₁.trans hheard) with
    ⟨d', hrun, hsame, hheard', hlevel'⟩
  refine ⟨d', ?_, by rw [hsame]; exact hface, by rw [hheard', hheard₁], hlevel'⟩
  rw [run, List.foldlM_cons, hsay, ok_bind]
  exact hrun

end Dialogue

/-! ### What the server answers -/

variable {moment : Moment} {online : ℤ} {f : Face}

theorem knock_replies (moment : Moment) (online : ℤ) {serverAddr : Bytes} (serverPort : BitVec 16)
    (haddr : serverAddr.length < 2 ^ 31) (hstate : f.state = .handshake) :
    Replies host threshold (knock moment online serverAddr serverPort) f [] { f with
      state := .login
      networkInfo := { f.networkInfo with
        protocolVersion := latestProtocol, serverAddr := serverAddr, serverPort := serverPort } } := by
  rintro c rfl
  refine ⟨{ c with
    networkInfo := { c.networkInfo with
      protocolVersion := latestProtocol, serverAddr := serverAddr, serverPort := serverPort }
    state := .login
    shouldContinue := true }, ?_, rfl, Answers.of_eq rfl rfl rfl rfl rfl rfl⟩
  rw [switch, show c.state = .handshake from hstate]
  exact congrArg Handled.done (handshake_eq latestProtocol serverPort 2 haddr c)

/-- What an encryption request says. -/
def requestBytes (host : Host) (verifyToken : Bytes) : Bytes :=
  stringBytes [] ++ (stringBytes host.publicKeyDER ++ (stringBytes verifyToken ++
    [if host.config.onlineMode then 1 else 0]))

theorem length_stringBytes_le (value : Bytes) : (stringBytes value).length ≤ value.length + 5 := by
  have hsize := size_toNat_le (toInt value.length)
  have hlength := length_intBytes (toInt value.length)
  unfold stringBytes varIntBytes
  unfold intBytes at hlength
  rw [List.length_append]
  omega

theorem length_requestBytes_le (host : Host) (moment : Moment) :
    (requestBytes host (moment.randomBytes 64)).length ≤ host.publicKeyDER.length + 80 := by
  have hempty := length_stringBytes_le []
  have hkey := length_stringBytes_le host.publicKeyDER
  have htoken := length_stringBytes_le (moment.randomBytes 64)
  rw [moment.length_randomBytes] at htoken
  rw [List.length_nil] at hempty
  unfold requestBytes
  simp only [List.length_append, List.length_singleton]
  omega

/-- The answer to Login Start. -/
def requested (host : Host) (moment : Moment) : List (Item LinkSetup (BitVec 32 × Bytes)) :=
  (if (0 : BitVec 32).slt host.config.threshold then
    [.message (3, varIntBytes host.config.threshold), .setup .compress] else []) ++
  [.message (1, requestBytes host (moment.randomBytes 64))]

theorem request_answers (hzlib : Zlib host.libs) (hkey : host.publicKeyDER.length ≤ 2 ^ 29)
    (moment : Moment) (c : ZincConnection) :
    ∃ c', sendEncryptionRequest host moment c = .ok c' ∧
      c'.face = { c.face with
        networkInfo := { c.networkInfo with verifyToken := moment.randomBytes 64 } } ∧
      Answers host threshold c [.message (1, requestBytes host (moment.randomBytes 64))] c' := by
  have hlength := length_requestBytes_le host moment
  let c₁ : ZincConnection :=
    { c with networkInfo := { c.networkInfo with verifyToken := moment.randomBytes 64 } }
  rcases @post_answers host threshold hzlib 1 _ _ (produces_encryptionRequest host (moment.randomBytes 64))
    (show (requestBytes host (moment.randomBytes 64)).length ≤ 2 ^ 30 by omega) c₁ with
    ⟨encrypt, output, hpost, hanswers⟩
  have hsame : Answers host threshold c [] c₁ := Answers.of_eq rfl rfl rfl rfl rfl rfl
  exact ⟨_, hpost, rfl, hsame.trans hanswers⟩

theorem start_replies (hzlib : Zlib host.libs) (hkey : host.publicKeyDER.length ≤ 2 ^ 29)
    (client : Client) (moment : Moment) (hplace : online < host.config.maxPlayerCount)
    (hstate : f.state = .login) (hkick : f.kickAtLogin = 0)
    (hprotocol : f.networkInfo.protocolVersion = latestProtocol) :
    Replies host threshold (client.loginStart moment online) f (requested host moment) { f with
      networkInfo := { f.networkInfo with verifyToken := moment.randomBytes 64 }
      playerInfo := { f.playerInfo with
        playerName := client.playerName, playerUUID := client.playerUUID } } := by
  rintro c rfl
  let c₁ : ZincConnection := { c with
    playerInfo := { c.playerInfo with playerName := client.playerName, playerUUID := client.playerUUID } }
  have hsame : Answers host threshold c [] c₁ := Answers.of_eq rfl rfl rfl rfl rfl rfl
  have hlogin : c₁.state = .login := hstate
  have hswitch : switch host moment online (client.loginStart moment online).packet c =
      loginStart host moment online
        (packetOfValues 0 (loginStartValues client.playerName client.playerUUID)).data c := by
    rw [switch, show c.state = .login from hstate]
    rfl
  have hstart := hswitch.trans (loginStart_request client moment hplace hkick hprotocol)
  unfold requested
  cases hthreshold : (0 : BitVec 32).slt host.config.threshold with
  | false =>
    rcases @request_answers host threshold hzlib hkey moment c₁ with ⟨c', hrequest, hface, hanswers⟩
    refine ⟨c', hstart.trans ?_, hface, hsame.trans hanswers⟩
    rw [hthreshold, if_neg Bool.false_ne_true, ok_bind]
    exact congrArg Handled.done hrequest
  | true =>
    rcases @post_answers host threshold hzlib 3 _ _ (produces_writeVarInt host.config.threshold)
      (show (varIntBytes host.config.threshold).length ≤ 2 ^ 30 by
        have hsize := size_toNat_le host.config.threshold
        rw [← length_intBytes] at hsize
        exact hsize.trans (by decide)) c₁ with ⟨encrypt, output, hpost, hanswers⟩
    have hsetup : c₁.setupCompression host =
        .ok { c₁ with encrypt := encrypt, output := output, isCompressed := true } := by
      rw [setupCompression, if_neg (not_not.mpr hlogin), hpost]
      rfl
    have hcompress := @Answers.setup host threshold .compress trivial
      { c₁ with encrypt := encrypt, output := output }
    rcases @request_answers host threshold hzlib hkey moment
      { c₁ with encrypt := encrypt, output := output, isCompressed := true } with
      ⟨c', hrequest, hface, hanswers'⟩
    refine ⟨c', hstart.trans ?_, hface, ((hsame.trans hanswers).trans hcompress).trans hanswers'⟩
    rw [hthreshold, if_pos rfl, hsetup, ok_bind]
    exact congrArg Handled.done hrequest

/-- The answer to an encryption response. -/
def welcomed (host : Host) (client : Client) (response : Moment) :
    List (Item LinkSetup (BitVec 32 × Bytes)) :=
  [.setup (.encrypt (RSAWrapper.decrypt host client.sharedSecret)),
    .message (2, successBytes (profile host client response).1)]

theorem response_replies {client : Client} {start response : Moment}
    (h : Admissible host client start response) (online : ℤ)
    (hsecret : (RSAWrapper.decrypt host client.sharedSecret).length = 16) (hstate : f.state = .login)
    (hplayer : f.playerInfo = ⟨client.playerName, client.playerUUID, []⟩)
    (hverify : f.networkInfo.verifyToken = start.randomBytes 64) :
    Replies host threshold (client.response response online) f (welcomed host client response) { f with
      networkInfo := { f.networkInfo with verifyToken := [] }
      playerInfo := (profile host client response).1 } := by
  rintro c rfl
  have hsetup := @Answers.setup host threshold (.encrypt (RSAWrapper.decrypt host client.sharedSecret))
    hsecret c
  let c₁ : ZincConnection := { c.setupEncryption (RSAWrapper.decrypt host client.sharedSecret) with
    networkInfo := { c.networkInfo with verifyToken := [] }
    playerInfo := (profile host client response).1 }
  have hsame : Answers host threshold (c.setupEncryption (RSAWrapper.decrypt host client.sharedSecret)) []
      c₁ := Answers.of_eq rfl rfl rfl rfl rfl rfl
  rcases @post_answers host threshold h.zlib 2 _ _ (produces_loginSuccess c₁.playerInfo) h.fits c₁ with
    ⟨encrypt, output, hpost, hanswers⟩
  refine ⟨_, ?_, rfl, (hsetup.trans hsame).trans hanswers⟩
  rw [switch, show c.state = .login from hstate]
  exact (encryptionResponse_success h hplayer hverify).trans (congrArg Handled.done hpost)

theorem loginAck_replies (moment : Moment) (online : ℤ) (hstate : f.state = .login) :
    Replies host threshold (Client.loginAck moment online) f []
      { f with state := .config, loginFinished := true } := by
  rintro c rfl
  refine ⟨loginAck c, ?_, rfl, Answers.of_eq rfl rfl rfl rfl rfl rfl⟩
  rw [switch, show c.state = .login from hstate]
  rfl

/-! ### Configuration -/

/-- The settings that the server keeps. -/
def capped (viewDistance : ℤ) (settings : SettingsInfo) : SettingsInfo :=
  { settings with
    renderDistance :=
      if viewDistance < settings.renderDistance.toNat then UInt8.ofInt viewDistance
      else settings.renderDistance }

theorem consumes_readSettings (viewDistance : ℤ) {settings : SettingsInfo}
    (hlocale : settings.locale.length < 2 ^ 31) :
    Consumes (Stored true) (readSettings viewDistance) (valuesBytes true (settingsValues settings))
      (capped viewDistance settings) := by
  have hv := readable_stored true
  have hflag : ∀ value : Bool, decide ((if value then 1 else 0 : UInt8) ≠ 0) = value := boolByte_ne_zero
  refine (hv.readValue .string settings.locale hlocale).bind
    ((hv.readValue .unsignedByte settings.renderDistance trivial).bind
    ((hv.readValue (.varNumeric 4 true) settings.chatMode (.inl rfl)).bind
    ((hv.readValue .byte (if settings.enableChatColors then 1 else 0) trivial).bind
    ((hv.readValue .unsignedByte settings.skinParts trivial).bind
    ((hv.readValue (.varNumeric 4 true) settings.mainHand (.inl rfl)).bind
    ((hv.readValue .byte (if settings.enableTextFiltering then 1 else 0) trivial).bind
    ((hv.readValue .byte (if settings.enableServerListing then 1 else 0) trivial).bind
    ((hv.readValue (.varNumeric 4 true) settings.particleStatus (.inl rfl)).bind ?_))))))))
  simp only [hflag]
  exact Consumes.pure _

def entryBytes (entry : Bytes × NBTElement) : Bytes :=
  stringBytes entry.1 ++ optionalBytes Text.nbtBytes (some entry.2)

def registryBytes (registry : Bytes × List (Bytes × NBTElement)) : Bytes :=
  stringBytes (utf8 "minecraft:" ++ registry.1) ++ prefixedBytes entryBytes registry.2

/-- Elements that the network form of NBT can hold, and no more bytes of them than a packet has. -/
structure RegistryFits (registry : Bytes × List (Bytes × NBTElement)) : Prop where
  elements : ∀ entry ∈ registry.2, (tree entry.2).WellFormed ∧ entry.2.tag = []
  length_le : (registryBytes registry).length ≤ 2 ^ 30

theorem produces_writeNetworkRegistry {registry : Bytes × List (Bytes × NBTElement)}
    (h : RegistryFits registry) :
    Produces (Fresh true) (writeNetworkRegistry registry) (registryBytes registry) := by
  have hv := writable_fresh true
  refine (hv.writeString _).bind ((hv.writeVarInt _).bind (Produces.forEach entryBytes _ ?_))
  intro entry hentry
  obtain ⟨hwell, htag⟩ := h.elements entry hentry
  exact (hv.writeString entry.1).bind ((hv.writeByte 1).bind (Text.produces_writeNBTElement hv hwell htag))

/-- The answer to a client's settings. -/
def configured (host : Host) (moment : Moment) : List (Item LinkSetup (BitVec 32 × Bytes)) :=
  [.message (6, []), .message (4, numericBytes (k := 8) true (BitVec.ofInt 64 moment.now)),
    .message (5, moment.randomBytes 4),
    .message (12, prefixedBytes (fun identifier : Identifier => stringBytes identifier.toString)
      [⟨utf8 "minecraft", utf8 "vanilla"⟩])] ++
  host.registries.map (fun registry => .message (7, registryBytes registry)) ++
  [.message (2, Text.nbtBytes (TextComponent.plain "Currently WIP").encode)]

theorem sendDisconnect_config (text : NBTElement) (hstate : c.state = .config) :
    c.sendDisconnect host text = c.post host 2 (writeNBTElement text) := by
  rw [sendDisconnect, hstate]

theorem configuration_answers (hzlib : Zlib host.libs)
    (hregistries : ∀ registry ∈ host.registries, RegistryFits registry) (moment : Moment)
    (c : ZincConnection) (hstate : c.state = .config) :
    ∃ c', sendConfiguration host moment c = .ok c' ∧
      c'.face = { c.face with networkInfo := { c.networkInfo with
        lastKeepAlive := BitVec.ofInt 64 moment.now, verifyToken := moment.randomBytes 4 } } ∧
      Answers host threshold c (configured host moment) c' := by
  have hv := writable_fresh true
  rcases @post_answers host threshold hzlib 6 _ _ Produces.pure (by simp) c with ⟨e₁, o₁, h₁, ha₁⟩
  let c₁ : ZincConnection := { c with
    encrypt := e₁
    output := o₁
    networkInfo := { c.networkInfo with
      lastKeepAlive := BitVec.ofInt 64 moment.now, verifyToken := moment.randomBytes 4 } }
  have hsame : Answers host threshold { c with encrypt := e₁, output := o₁ } [] c₁ :=
    Answers.of_eq rfl rfl rfl rfl rfl rfl
  rcases @post_answers host threshold hzlib 4 _ _
    (hv.writeNumeric (k := 8) (BitVec.ofInt 64 moment.now)) (by simp) c₁ with ⟨e₂, o₂, h₂, ha₂⟩
  have hbytes := Produces.forEach (fun b => [b]) (moment.randomBytes 4) fun b _ => hv.writeByte b
  rw [List.flatMap_singleton'] at hbytes
  rcases @post_answers host threshold hzlib 5 _ _ hbytes
    (by rw [moment.length_randomBytes]; decide) { c₁ with encrypt := e₂, output := o₂ } with
    ⟨e₃, o₃, h₃, ha₃⟩
  have hflags := @Writable.writePrefixedArray Identifier _ _ hv ByteBuffer.writeIdentifier
    (fun identifier => stringBytes identifier.toString) [⟨utf8 "minecraft", utf8 "vanilla"⟩]
    fun identifier _ => hv.writeIdentifier identifier
  rcases @post_answers host threshold hzlib 12 _ _ hflags
    (by decide) { c₁ with encrypt := e₃, output := o₃ } with ⟨e₄, o₄, h₄, ha₄⟩
  rcases @posts_answers host threshold _ hzlib 7 writeNetworkRegistry registryBytes host.registries
    (fun registry hmem => produces_writeNetworkRegistry (hregistries registry hmem))
    (fun registry hmem => (hregistries registry hmem).length_le)
    { c₁ with encrypt := e₄, output := o₄ } with ⟨e₅, o₅, h₅, ha₅⟩
  rcases @post_answers host threshold hzlib 2 _ _
    (Text.produces_writeNBTElement hv wellFormed_wip rfl) (by decide +kernel)
    { c₁ with encrypt := e₅, output := o₅ } with ⟨e₆, o₆, h₆, ha₆⟩
  refine ⟨{ c₁ with encrypt := e₆, output := o₆ }, ?_, rfl, ?_⟩
  · unfold sendConfiguration
    rw [h₁, ok_bind]
    refine bind_eq_ok.mpr ⟨_, h₂, bind_eq_ok.mpr ⟨_, h₃, bind_eq_ok.mpr ⟨_, h₄, ?_⟩⟩⟩
    rw [sendInitial_eq, ok_bind]
    have hlast : sendDisconnect host (TextComponent.plain "Currently WIP").encode
        { c₁ with encrypt := e₅, output := o₅ } = .ok { c₁ with encrypt := e₆, output := o₆ } :=
      (@sendDisconnect_config host { c₁ with encrypt := e₅, output := o₅ } _ hstate).trans h₆
    exact bind_eq_ok.mpr ⟨_, h₅, hlast⟩
  · exact (((((ha₁.trans hsame).trans ha₂).trans ha₃).trans ha₄).trans ha₅).trans ha₆

theorem settings_replies (hzlib : Zlib host.libs)
    (hregistries : ∀ registry ∈ host.registries, RegistryFits registry) (moment : Moment) (online : ℤ)
    {settings : SettingsInfo} (hlocale : settings.locale.length < 2 ^ 31) (hstate : f.state = .config)
    (hban : ∀ c : ZincConnection, c.face = f → Continues host moment c) :
    Replies host threshold (Client.configInfo moment online settings) f (configured host moment) { f with
      settingsInfo := capped host.config.viewDistance settings
      networkInfo := { f.networkInfo with
        lastKeepAlive := BitVec.ofInt 64 moment.now, verifyToken := moment.randomBytes 4 } } := by
  rintro c rfl
  rcases hban c rfl with ⟨c₁, hcheck⟩
  obtain rfl := @checkBan_eq_false host c c₁ (Client.configInfo moment online settings) hcheck
  rcases consumes_readSettings host.config.viewDistance hlocale _ []
    (by rw [List.append_nil]; exact stored_packetOfValues 0 (settingsValues settings)) with ⟨rest, hread, -⟩
  rcases @configuration_answers host threshold hzlib hregistries moment
    { c₁ with settingsInfo := capped host.config.viewDistance settings } hstate with
    ⟨c', hsend, hface, hanswers⟩
  have hsame : Answers host threshold c₁ []
      { c₁ with settingsInfo := capped host.config.viewDistance settings } :=
    Answers.of_eq rfl rfl rfl rfl rfl rfl
  refine ⟨c', ?_, hface, hsame.trans hanswers⟩
  rw [switch, show c₁.state = .config from hstate]
  change configInfo host moment (packetOfValues 0 (settingsValues settings)).data c₁ = _
  unfold configInfo
  rw [hcheck, ok_bind]
  simp only [Bool.false_eq_true, if_false, hread, ok_bind, hsend]
  rfl

/-- The ban check looks at the address and the player alone. -/
theorem Continues.congr (h : Continues host moment c) (hip : c'.ip = c.ip)
    (hplayer : c'.playerInfo = c.playerInfo) : Continues host moment c' := by
  have hfor : BanData.isFor host.config c' = BanData.isFor host.config c := by
    funext ban
    unfold BanData.isFor
    rw [hip, hplayer]
  rw [continues_iff] at h ⊢
  rw [matchedBan, hfor]
  exact h

/-! ### The whole visit -/

/-- What a client comes with, and when its five packets are handled. -/
structure Visit where
  client : Client
  secret : Bytes
  serverAddr : Bytes
  serverPort : BitVec 16
  settings : SettingsInfo
  moment : ℕ → Moment
  online : ℕ → ℤ

namespace Visit

/-- The client waits for each answer, and tunes its end where the protocol asks for it. -/
def script (host : Host) (v : Visit) : List Turn :=
  [.say (knock (v.moment 0) (v.online 0) v.serverAddr v.serverPort),
    .say (v.client.loginStart (v.moment 1) (v.online 1))] ++
  (if (0 : BitVec 32).slt host.config.threshold then [.hear, .tune .compress] else []) ++
  [.hear, .say (v.client.response (v.moment 2) (v.online 2)), .tune (.encrypt v.secret), .hear,
    .say (Client.loginAck (v.moment 3) (v.online 3)),
    .say (Client.configInfo (v.moment 4) (v.online 4) v.settings)] ++
  List.replicate (host.registries.length + 5) .hear

/-- What the client gets to hear. -/
def answers (host : Host) (v : Visit) : List (BitVec 32 × Bytes) :=
  (if (0 : BitVec 32).slt host.config.threshold then [(3, varIntBytes host.config.threshold)] else []) ++
  [(1, requestBytes host ((v.moment 1).randomBytes 64)),
    (2, successBytes (profile host v.client (v.moment 2)).1), (6, []),
    (4, numericBytes (k := 8) true (BitVec.ofInt 64 (v.moment 4).now)), (5, (v.moment 4).randomBytes 4),
    (12, prefixedBytes (fun identifier : Identifier => stringBytes identifier.toString)
      [⟨utf8 "minecraft", utf8 "vanilla"⟩])] ++
  host.registries.map (fun registry => (7, registryBytes registry)) ++
  [(2, Text.nbtBytes (TextComponent.plain "Currently WIP").encode)]

/-- What the server knows afterwards. -/
def face (host : Host) (v : Visit) (f : Face) : Face where
  ip := f.ip
  state := .config
  networkInfo := ⟨v.serverAddr, v.serverPort, latestProtocol, (v.moment 4).randomBytes 4,
    BitVec.ofInt 64 (v.moment 4).now⟩
  playerInfo := (profile host v.client (v.moment 2)).1
  settingsInfo := capped host.config.viewDistance v.settings
  kickAtLogin := f.kickAtLogin
  loginFinished := true

/-- A visit that is not turned away, with packets that are not too long. -/
structure Fits (host : Host) (v : Visit) : Prop where
  admissible : Admissible host v.client (v.moment 1) (v.moment 2)
  secret : RSAWrapper.decrypt host v.client.sharedSecret = v.secret
  length_secret : v.secret.length = 16
  place : v.online 1 < host.config.maxPlayerCount
  publicKeyDER : host.publicKeyDER.length ≤ 2 ^ 29
  registries : ∀ registry ∈ host.registries, RegistryFits registry
  serverAddr : v.serverAddr.length ≤ 2 ^ 29
  sharedSecret : v.client.sharedSecret.length ≤ 2 ^ 28
  verifyToken : v.client.verifyToken.length ≤ 2 ^ 28
  locale : v.settings.locale.length ≤ 2 ^ 29

end Visit

theorem keeps_accepts {libs : Libraries} {written read : BitVec 32} (hc : Accepts c) :
    (LinkEnd.mk c ⟨[], []⟩).Keeps libs written read := by
  rcases hc with ⟨ip, networkInfo, settingsInfo, kickAtLogin, rfl⟩
  have hstart : ∀ aes, Coding.start.Of false false aes := fun aes =>
    ⟨rfl, rfl, by simp [Coding.start]⟩
  exact ⟨rfl, hstart _, hstart _, rfl, fun m hm => by simp [messages] at hm⟩

theorem length_intBytes_le (value : BitVec 32) : (intBytes value).length ≤ 5 := by
  rw [length_intBytes]
  exact size_toNat_le value

namespace Visit

variable {v : Visit}

/-- The packets of the client fit. -/
theorem Fits.length_knock (h : v.Fits host) :
    (valuesBytes true (handshakeValues latestProtocol v.serverAddr v.serverPort 2)).length ≤ 2 ^ 30 := by
  have haddr := h.serverAddr
  have hstring := length_stringBytes_le v.serverAddr
  have hversion := length_intBytes_le latestProtocol
  have hstate := length_intBytes_le 2
  change (intBytes latestProtocol ++ (stringBytes v.serverAddr ++
    (numericBytes (k := 2) true v.serverPort ++ (intBytes 2 ++ [])))).length ≤ _
  simp only [List.length_append, length_numericBytes, List.length_nil]
  omega

theorem length_loginStart (client : Client) :
    (valuesBytes true (loginStartValues client.playerName client.playerUUID)).length ≤ 2 ^ 30 := by
  have hname := client.length_playerName
  have hstring := length_stringBytes_le client.playerName
  change (stringBytes client.playerName ++ (client.playerUUID.1 ++ [])).length ≤ _
  simp only [List.length_append, client.playerUUID.2, List.length_nil]
  omega

theorem Fits.length_response (h : v.Fits host) :
    (valuesBytes true (responseValues v.client.sharedSecret v.client.verifyToken)).length ≤ 2 ^ 30 := by
  have hsecret := h.sharedSecret
  have htoken := h.verifyToken
  have hstring := length_stringBytes_le v.client.sharedSecret
  have hstring' := length_stringBytes_le v.client.verifyToken
  change (stringBytes v.client.sharedSecret ++ (stringBytes v.client.verifyToken ++ [])).length ≤ _
  simp only [List.length_append, List.length_nil]
  omega

theorem Fits.length_settings (h : v.Fits host) :
    (valuesBytes true (settingsValues v.settings)).length ≤ 2 ^ 30 := by
  have hlocale := h.locale
  have hstring := length_stringBytes_le v.settings.locale
  have hchat := length_intBytes_le v.settings.chatMode
  have hhand := length_intBytes_le v.settings.mainHand
  have hparticles := length_intBytes_le v.settings.particleStatus
  change (stringBytes v.settings.locale ++ ([v.settings.renderDistance] ++
    (intBytes v.settings.chatMode ++ ([_] ++ ([v.settings.skinParts] ++ (intBytes v.settings.mainHand ++
      ([_] ++ ([_] ++ (intBytes v.settings.particleStatus ++ []))))))))).length ≤ _
  simp only [List.length_append, List.length_singleton, List.length_nil]
  omega

theorem turns_configured (moment : Moment) :
    (configured host moment).map turn = List.replicate (host.registries.length + 5) .hear := by
  refine List.eq_replicate_iff.mpr ⟨by simp [configured], fun t ht => ?_⟩
  rcases List.mem_map.mp ht with ⟨item, hitem, rfl⟩
  simp only [configured, List.mem_append, List.mem_cons, List.mem_map, List.not_mem_nil, or_false] at hitem
  rcases hitem with ((rfl | rfl | rfl | rfl) | ⟨registry, -, rfl⟩) | rfl <;> rfl

/-- The script goes packet by packet. -/
theorem script_eq (v : Visit) : v.script host =
    (.say (knock (v.moment 0) (v.online 0) v.serverAddr v.serverPort) :: [].map turn) ++
    ((.say (v.client.loginStart (v.moment 1) (v.online 1)) :: (requested host (v.moment 1)).map turn) ++
    ((.say (v.client.response (v.moment 2) (v.online 2)) :: [.tune (.encrypt v.secret), .hear]) ++
    ((.say (Client.loginAck (v.moment 3) (v.online 3)) :: [].map turn) ++
    (.say (Client.configInfo (v.moment 4) (v.online 4) v.settings) ::
      (configured host (v.moment 4)).map turn)))) := by
  rw [turns_configured]
  unfold script requested
  split <;> simp [turn]

/-- Only a secret may not fit. -/
theorem bounded_requested (moment : Moment) (k : LinkSetup) (hk : .setup k ∈ requested host moment) :
    (LinkOp.setup k).Bounded := by
  cases k with
  | compress => trivial
  | encrypt secret =>
    unfold requested at hk
    split at hk <;> simp at hk

theorem bounded_configured (moment : Moment) (k : LinkSetup) (hk : .setup k ∈ configured host moment) :
    (LinkOp.setup k).Bounded := by
  simp [configured] at hk

theorem messages_answers (v : Visit) : v.answers host =
    messages (requested host (v.moment 1)) ++ (messages (welcomed host v.client (v.moment 2)) ++
      messages (configured host (v.moment 4))) := by
  unfold answers requested welcomed configured
  rw [messages_append, messages_append, messages_append, messages_map]
  split <;> simp [messages]

end Visit

theorem Dialogue.run_append (host : Host) (threshold : BitVec 32) (d : Dialogue) (turns turns' : List Turn) :
    d.run host threshold (turns ++ turns') =
      d.run host threshold turns >>= fun d => d.run host threshold turns' :=
  List.foldlM_append

/-- Nothing of the server is left unread. -/
theorem Dialogue.Level.length_heard {d : Dialogue} (h : d.Level host threshold) :
    d.heard.length = d.server.output.length := by
  rcases h with ⟨out, inn, hserver, -, hheard⟩
  have hwires := congrArg List.length hserver.wires
  rw [List.length_map, Codec.length_words] at hwires
  rw [hheard]
  exact hwires.symm

/-- The client hears every packet of the server as it was sent, and the server knows what it
was told. -/
theorem visit_heard {v : Visit} (h : v.Fits host) (threshold : BitVec 32) {c client : ZincConnection}
    (hc : Accepts c) (hkick : c.kickAtLogin = 0) (hclient : Accepts client)
    (hban : Continues host (v.moment 4)
      { c with playerInfo := (profile host v.client (v.moment 2)).1 }) :
    ∃ d, Dialogue.run host threshold ⟨c, client, []⟩ (v.script host) = .ok d ∧
      d.heard = v.answers host ∧ d.heard.length = d.server.output.length ∧
      d.server.face = v.face host c.face := by
  have hzlib := h.admissible.zlib
  have hlt : ∀ {n : ℕ}, n ≤ 2 ^ 29 → n < 2 ^ 31 := fun hn => by omega
  have hnone : ∀ k, .setup k ∈ ([] : List (Item LinkSetup (BitVec 32 × Bytes))) →
      (LinkOp.setup k).Bounded := by simp
  have hlevel : Dialogue.Level host threshold ⟨c, client, []⟩ :=
    ⟨[], [], keeps_accepts hc, keeps_accepts hclient, rfl⟩
  have hnew : c.face.state = .handshake ∧ c.face.playerInfo = ⟨[], nilUUID, []⟩ := by
    rcases hc with ⟨ip, networkInfo, settingsInfo, kickAtLogin, rfl⟩
    exact ⟨rfl, rfl⟩
  have hwelcomed : ∀ k, .setup k ∈ welcomed host v.client (v.moment 2) → (LinkOp.setup k).Bounded := by
    intro k hk
    simp only [welcomed, h.secret, List.mem_cons, Item.setup.injEq, reduceCtorEq, List.not_mem_nil,
      or_false] at hk
    rw [hk]
    exact h.length_secret
  rcases Dialogue.exchange hzlib hlevel rfl (by decide) h.length_knock rfl
    (knock_replies (v.moment 0) (v.online 0) v.serverPort (hlt h.serverAddr) hnew.1) hnone with
    ⟨d₁, hrun₁, hface₁, hheard₁, hlevel₁⟩
  rcases Dialogue.exchange hzlib hlevel₁ rfl (by decide) (Visit.length_loginStart v.client) hface₁
    (start_replies hzlib h.publicKeyDER v.client (v.moment 1) h.place rfl hkick rfl)
    (Visit.bounded_requested (v.moment 1)) with ⟨d₂, hrun₂, hface₂, hheard₂, hlevel₂⟩
  rcases Dialogue.exchange hzlib hlevel₂ rfl (by decide) h.length_response hface₂
    (response_replies h.admissible (v.online 2) (by rw [h.secret]; exact h.length_secret) rfl
      (by rw [hnew.2]) rfl) hwelcomed with ⟨d₃, hrun₃, hface₃, hheard₃, hlevel₃⟩
  rcases Dialogue.exchange hzlib hlevel₃ rfl (by decide) (by decide) hface₃
    (loginAck_replies (v.moment 3) (v.online 3) rfl) hnone with ⟨d₄, hrun₄, hface₄, hheard₄, hlevel₄⟩
  rcases Dialogue.exchange hzlib hlevel₄ rfl (by decide) h.length_settings hface₄
    (settings_replies hzlib h.registries (v.moment 4) (v.online 4) (hlt h.locale) rfl
      fun c' hc' => hban.congr (congrArg Face.ip hc') (congrArg Face.playerInfo hc'))
    (Visit.bounded_configured (v.moment 4)) with ⟨d₅, hrun₅, hface₅, hheard₅, hlevel₅⟩
  refine ⟨d₅, ?_, ?_, hlevel₅.length_heard, hface₅⟩
  · rw [v.script_eq, ← h.secret, Dialogue.run_append, hrun₁, ok_bind, Dialogue.run_append, hrun₂, ok_bind,
      Dialogue.run_append]
    change Dialogue.run _ _ _ (_ :: (welcomed host v.client (v.moment 2)).map turn) >>= _ = _
    rw [hrun₃, ok_bind, Dialogue.run_append, hrun₄, ok_bind, hrun₅]
  · rw [hheard₅, hheard₄, hheard₃, hheard₂, hheard₁, v.messages_answers]
    simp [messages]

/-- A server with a registry. -/
def richHost : Host :=
  { strictHost with
    registries := [(utf8 "dimension_type",
      [(utf8 "minecraft:overworld", NBTElement.compound [] [NBTElement.string (utf8 "effects") (utf8 "sky")])])] }

def sampleVisit : Visit :=
  ⟨sampleClient, zeros 16, utf8 "localhost", 25565, ⟨utf8 "en", 12, 0, true, 0, 1, false, true, 0⟩,
    fun _ => lateMoment, fun _ => 0⟩

theorem fits_sampleVisit : sampleVisit.Fits richHost where
  admissible := ⟨zlib_storing, rfl, fun _ => ⟨2, by decide, by decide⟩, by decide⟩
  secret := rfl
  length_secret := length_zeros 16
  place := by decide
  publicKeyDER := by decide
  registries registry hregistry := by
    obtain rfl := List.mem_singleton.mp hregistry
    refine ⟨fun entry hentry => ?_, by decide +kernel⟩
    obtain rfl := List.mem_singleton.mp hentry
    exact ⟨Tree.wellFormed_of_fits _ (by decide), rfl⟩
  serverAddr := by decide
  sharedSecret := by decide
  verifyToken := by decide
  locale := by decide

theorem visit_heard_sample : ∃ d,
    Dialogue.run richHost 256 ⟨waiting [], waiting [], []⟩ (sampleVisit.script richHost) = .ok d ∧
      d.heard = sampleVisit.answers richHost ∧ d.heard.length = d.server.output.length ∧
      d.server.face = sampleVisit.face richHost (waiting []).face :=
  visit_heard fits_sampleVisit 256 accepts_waiting rfl accepts_waiting
    (continues_iff.mpr fun ban hban => by simp [matchedBan, sampleVisit, lateMoment, sampleMoment] at hban)

end Zinc.Network
