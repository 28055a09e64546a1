import Zinc.Buffer.Sequence
import Zinc.Nbt.RoundTrip
import Zinc.Network.Run

/-! A client that follows the protocol: what a well-formed packet does in each
state. A packet is given by the values it consists of. As long as packets stay
below the size that the cipher takes, no handler fails. -/

namespace Zinc.Network

open Throw History Buffer Buffer.ByteBuffer Nbt Nbt.NBTElement ZincConnection

/-- A packet that consists of a list of values. -/
def packetOfValues (id : BitVec 32) (values : List Value) : ZincPacket :=
  packetOf id (valuesBytes true values)

theorem stored_packetOfValues (id : BitVec 32) (values : List Value) :
    Stored true (packetOfValues id values).data (valuesBytes true values) :=
  (writeBytes_new _).2.1

variable {host : Host} {moment : Moment} {online : ℤ} {c c' : ZincConnection} {i : Input}

theorem post_total {id : BitVec 32} {write : Action Unit} {w : Bytes}
    (hwrite : Produces (Fresh true) write w) (hc : c.isCompressed = false) (hw : w.length < 2 ^ 30) :
    ∃ c', c.post host id write = .ok c' := by
  rcases fresh_of_produces hwrite fresh_new with ⟨data, hdata, hfresh⟩
  rw [post, hdata, ok_bind]
  apply send_total
  rw [hc]
  change (frameBytes host.libs host.config.threshold false id data.getBytes).length < 2 ^ 31
  rw [hfresh.getBytes]
  exact lt_of_le_of_lt (length_frameBytes_le ..) (show w.length + 10 < 2 ^ 31 by omega)

/-- Without encryption every packet is sent. -/
theorem post_total_plain {id : BitVec 32} {write : Action Unit} {w : Bytes}
    (hwrite : Produces (Fresh true) write w) (hc : c.isEncrypted = false) :
    ∃ c', c.post host id write = .ok c' := by
  rcases fresh_of_produces hwrite fresh_new with ⟨data, hdata, -⟩
  rw [post, hdata, ok_bind]
  exact ⟨_, send_plain host.libs host.config.threshold ⟨id, data⟩ hc⟩

/-! ### Handshake -/

def handshakeValues (protocolVersion : BitVec 32) (serverAddr : Bytes) (serverPort : BitVec 16)
    (state : BitVec 32) : List Value :=
  [⟨.varNumeric 4 true, protocolVersion⟩, ⟨.string, serverAddr⟩, ⟨.numeric 2, serverPort⟩,
    ⟨.varNumeric 4 true, state⟩]

theorem handshake_eq (protocolVersion : BitVec 32) {serverAddr : Bytes} (serverPort : BitVec 16)
    (state : BitVec 32) (haddr : serverAddr.length < 2 ^ 31) (c : ZincConnection) :
    handshake (packetOfValues 0 (handshakeValues protocolVersion serverAddr serverPort state)).data c =
      .ok { c with
        networkInfo := { c.networkInfo with
          protocolVersion := protocolVersion
          serverAddr := serverAddr
          serverPort := serverPort }
        state := handshakeState state
        shouldContinue := true } := by
  have hv := readable_stored true
  have hstored := stored_packetOfValues 0
    (handshakeValues protocolVersion serverAddr serverPort state)
  rcases hv.readValue (.varNumeric 4 true) protocolVersion (.inl rfl) _ _ hstored with ⟨data₁, h₁, hs₁⟩
  rcases hv.readValue .string serverAddr haddr _ _ hs₁ with ⟨data₂, h₂, hs₂⟩
  rcases hv.readValue (.numeric 2) serverPort (.inl rfl) _ _ hs₂ with ⟨data₃, h₃, hs₃⟩
  rcases hv.readValue (.varNumeric 4 true) state (.inl rfl) _ _ hs₃ with ⟨data₄, h₄, -⟩
  unfold handshake
  rw [show readVarInt _ = _ from h₁, ok_bind]
  simp only [show readString _ = _ from h₂, show readNumeric 2 _ = _ from h₃,
    show readVarInt _ = _ from h₄, ok_bind, pure_eq]

/-! ### Login -/

theorem produces_writePrefixedBytes (bytes : Bytes) :
    Produces (Fresh true) (writePrefixedArray bytes writeUnsignedByte)
      (intBytes (toInt bytes.length) ++ bytes) := by
  have hbytes := Produces.forEach (fun c => [c]) bytes fun c _ => (writable_fresh true).writeByte c
  rw [List.flatMap_singleton'] at hbytes
  exact (produces_writeVarInt _).bind hbytes

theorem consumes_readPrefixedBytes {bytes : Bytes} (h : bytes.length < 2 ^ 31) :
    Consumes (Stored true) (readPrefixedArray readUnsignedByte)
      (intBytes (toInt bytes.length) ++ bytes) bytes := by
  have hbytes := Consumes.replicate (fun c => [c]) bytes fun c _ => (readable_stored true).readByte c
  rw [List.flatMap_singleton'] at hbytes
  apply ((readable_stored true).readVarNumeric_varNumericBytes true (k := 4) (by decide) _).bind
  rw [show toSize (toInt bytes.length) = bytes.length from toSize_ofNat h]
  exact hbytes

theorem produces_encryptionRequest (host : Host) (verifyToken : Bytes) :
    Produces (Fresh true) (do
        writeString []
        writePrefixedArray host.publicKeyDER writeUnsignedByte
        writePrefixedArray verifyToken writeUnsignedByte
        writeByte (if host.config.onlineMode then 1 else 0))
      (intBytes (toInt ([] : Bytes).length) ++ [] ++
        (intBytes (toInt host.publicKeyDER.length) ++ host.publicKeyDER ++
          (intBytes (toInt verifyToken.length) ++ verifyToken ++
            [if host.config.onlineMode then 1 else 0]))) :=
  ((writable_fresh true).writeVarBytes []).bind
    ((produces_writePrefixedBytes host.publicKeyDER).bind
      ((produces_writePrefixedBytes verifyToken).bind
        ((writable_fresh true).writeByte (if host.config.onlineMode then 1 else 0))))

theorem sendEncryptionRequest_total (moment : Moment)
    (hkey : host.publicKeyDER.length < 2 ^ 29) (hc : c.isCompressed = false) :
    ∃ c', sendEncryptionRequest host moment c = .ok c' := by
  refine post_total (produces_encryptionRequest host (moment.randomBytes 64)) hc ?_
  have hempty := size_toNat_le (toInt ([] : Bytes).length)
  have hder := size_toNat_le (toInt host.publicKeyDER.length)
  have htoken := size_toNat_le (toInt (moment.randomBytes 64).length)
  have h64 := moment.length_randomBytes 64
  rw [← length_intBytes] at hempty hder htoken
  simp only [List.length_append, List.length_singleton, List.length_nil]
  simp only [List.length_nil] at hempty
  omega

def loginStartValues (playerName : Bytes) (playerUUID : UUID) : List Value :=
  [⟨.string, playerName⟩, ⟨.uuid, playerUUID⟩]

/-- Login Start on a server that does not compress. -/
theorem loginStart_eq {playerName : Bytes} {playerUUID : UUID} (hname : playerName.length ≤ 16)
    (hkick : c.kickAtLogin = 0) (honline : online < host.config.maxPlayerCount)
    (hprotocol : c.networkInfo.protocolVersion = latestProtocol)
    (hthreshold : (0 : BitVec 32).slt host.config.threshold = false)
    (hkey : host.publicKeyDER.length < 2 ^ 29) (hc : c.isCompressed = false) :
    ∃ encrypt output, output.map Sent.key = c.output.map Sent.key ++ [(c.state, 1)] ∧
      loginStart host moment online
        (packetOfValues 0 (loginStartValues playerName playerUUID)).data c =
      .ok ⟨{ c with
        networkInfo := { c.networkInfo with verifyToken := moment.randomBytes 64 }
        playerInfo := { c.playerInfo with playerName := playerName, playerUUID := playerUUID }
        encrypt := encrypt
        output := output }, false⟩ := by
  have hv := readable_stored true
  have hstored := stored_packetOfValues 0 (loginStartValues playerName playerUUID)
  rcases hv.readValue .string playerName (show playerName.length < 2 ^ 31 by omega) _ _ hstored with
    ⟨data₁, h₁, hs₁⟩
  rcases hv.readValue .uuid playerUUID trivial _ _ hs₁ with ⟨data₂, h₂, -⟩
  rcases @sendEncryptionRequest_total host { c with
    playerInfo := { c.playerInfo with playerName := playerName, playerUUID := playerUUID } }
    moment hkey hc with ⟨c', hrequest⟩
  rcases post_eq_ok hrequest with ⟨encrypt, new, hc', -, hkeys, -⟩
  refine ⟨encrypt, c.output ++ new, by rw [List.map_append, hkeys]; rfl, ?_⟩
  unfold loginStart
  rw [if_neg (not_not.mpr hkick), if_neg (not_le.mpr honline), hprotocol, if_neg (by decide),
    if_neg (by decide), show readString _ = _ from h₁, ok_bind]
  simp only [show readUUID _ = _ from h₂, ok_bind, if_neg (not_lt.mpr hname), hthreshold,
    Bool.false_eq_true, if_false]
  rw [hrequest, hc']
  rfl

theorem sendLoginSuccess_total (hname : c.playerInfo.playerName.length ≤ 16)
    (hproperties : c.playerInfo.properties = []) (hc : c.isCompressed = false) :
    ∃ c', sendLoginSuccess host c = .ok c' := by
  have huuid := (writable_fresh true).writeValue .uuid c.playerInfo.playerUUID
  have hwrite : Produces (Fresh true) (do
      writeUUID c.playerInfo.playerUUID
      writeString c.playerInfo.playerName
      writePrefixedArray c.playerInfo.properties writeZincConnectionProperty) _ :=
    huuid.bind (((writable_fresh true).writeVarBytes c.playerInfo.playerName).bind
      ((produces_writeVarInt _).bind (by rw [hproperties]; exact Produces.pure)))
  refine post_total hwrite hc ?_
  have hlength := size_toNat_le (toInt c.playerInfo.playerName.length)
  have hcount := size_toNat_le (toInt c.playerInfo.properties.length)
  rw [← length_intBytes] at hlength hcount
  simp only [intBytes] at hlength hcount
  simp only [List.length_append, List.length_nil, intBytes, Kind.bytes, c.playerInfo.playerUUID.2]
  omega

def responseValues (sharedSecret verifyToken : Bytes) : List Value :=
  [⟨.prefixedByteArray, sharedSecret⟩, ⟨.prefixedByteArray, verifyToken⟩]

theorem response_packetOfValues {sharedSecret verifyToken : Bytes} (id : BitVec 32)
    (hsecret : sharedSecret.length < 2 ^ 31) (htoken : verifyToken.length < 2 ^ 31) :
    ∃ rest, readResponse (packetOfValues id (responseValues sharedSecret verifyToken)).data =
      .ok ((sharedSecret, verifyToken), rest) := by
  have hstored := stored_packetOfValues id (responseValues sharedSecret verifyToken)
  rcases consumes_readPrefixedBytes hsecret _ _ hstored with ⟨data₁, h₁, hs₁⟩
  rcases consumes_readPrefixedBytes htoken _ _ hs₁ with ⟨data₂, h₂, -⟩
  refine ⟨data₂, ?_⟩
  unfold readResponse
  rw [bind_of_eq_ok h₁, bind_of_eq_ok h₂]
  rfl

/-- The response to an encryption request, when no session server is asked. -/
theorem encryptionResponse_eq {sharedSecret verifyToken secret : Bytes}
    (hsecret : sharedSecret.length < 2 ^ 31) (htoken : verifyToken.length < 2 ^ 31)
    (hoffline : host.config.onlineMode = false)
    (hdecrypt : RSAWrapper.decrypt host sharedSecret = secret)
    (hverify : RSAWrapper.decrypt host verifyToken = c.networkInfo.verifyToken)
    (hname : c.playerInfo.playerName.length ≤ 16) (hproperties : c.playerInfo.properties = [])
    (hc : c.isCompressed = false) :
    ∃ encrypt output, output.map Sent.key = c.output.map Sent.key ++ [(c.state, 2)] ∧
      encryptionResponse host moment
        (packetOfValues 1 (responseValues sharedSecret verifyToken)).data c =
      .ok ⟨{ c.setupEncryption secret with
        networkInfo := { c.networkInfo with verifyToken := [] }
        encrypt := encrypt
        output := output }, false⟩ := by
  rcases response_packetOfValues 1 hsecret htoken with ⟨rest, hread⟩
  rcases @sendLoginSuccess_total host { c.setupEncryption secret with
    networkInfo := { c.networkInfo with verifyToken := [] } } hname hproperties hc with ⟨c', hsuccess⟩
  rcases post_eq_ok hsuccess with ⟨encrypt, new, hc', -, hkeys, -⟩
  refine ⟨encrypt, c.output ++ new, by rw [List.map_append, hkeys]; rfl, ?_⟩
  unfold encryptionResponse
  rw [hread, ok_bind]
  simp only [hverify, if_true, hdecrypt, hoffline, Bool.false_eq_true, if_false, sendInitial_eq, ok_bind]
  change Handled.done (sendLoginSuccess host { c.setupEncryption secret with
    networkInfo := { c.networkInfo with verifyToken := [] } }) = _
  rw [hsuccess, hc']
  rfl

/-! ### Config -/

def settingsValues (settings : SettingsInfo) : List Value :=
  let flag := fun value : Bool => if value then 1 else 0
  [⟨.string, settings.locale⟩, ⟨.unsignedByte, settings.renderDistance⟩,
    ⟨.varNumeric 4 true, settings.chatMode⟩, ⟨.byte, flag settings.enableChatColors⟩,
    ⟨.unsignedByte, settings.skinParts⟩, ⟨.varNumeric 4 true, settings.mainHand⟩,
    ⟨.byte, flag settings.enableTextFiltering⟩, ⟨.byte, flag settings.enableServerListing⟩,
    ⟨.varNumeric 4 true, settings.particleStatus⟩]

theorem readSettings_total (viewDistance : ℤ) {settings : SettingsInfo}
    (hlocale : settings.locale.length < 2 ^ 31) : ∃ settings' rest,
    readSettings viewDistance (packetOfValues 0 (settingsValues settings)).data =
      .ok (settings', rest) := by
  have hv := readable_stored true
  have hs := stored_packetOfValues 0 (settingsValues settings)
  rcases hv.readValue .string settings.locale hlocale _ _ hs with ⟨data₁, h₁, hs₁⟩
  rcases hv.readValue .unsignedByte settings.renderDistance trivial _ _ hs₁ with ⟨data₂, h₂, hs₂⟩
  rcases hv.readValue (.varNumeric 4 true) settings.chatMode (.inl rfl) _ _ hs₂ with ⟨data₃, h₃, hs₃⟩
  rcases hv.readValue .byte _ trivial _ _ hs₃ with ⟨data₄, h₄, hs₄⟩
  rcases hv.readValue .unsignedByte settings.skinParts trivial _ _ hs₄ with ⟨data₅, h₅, hs₅⟩
  rcases hv.readValue (.varNumeric 4 true) settings.mainHand (.inl rfl) _ _ hs₅ with ⟨data₆, h₆, hs₆⟩
  rcases hv.readValue .byte _ trivial _ _ hs₆ with ⟨data₇, h₇, hs₇⟩
  rcases hv.readValue .byte _ trivial _ _ hs₇ with ⟨data₈, h₈, hs₈⟩
  rcases hv.readValue (.varNumeric 4 true) settings.particleStatus (.inl rfl) _ _ hs₈ with
    ⟨data₉, h₉, -⟩
  unfold readSettings
  rw [bind_of_eq_ok (show readString _ = _ from h₁),
    bind_of_eq_ok (show readUnsignedByte _ = _ from h₂),
    bind_of_eq_ok (show readVarInt _ = _ from h₃), bind_of_eq_ok (show readByte _ = _ from h₄),
    bind_of_eq_ok (show readUnsignedByte _ = _ from h₅),
    bind_of_eq_ok (show readVarInt _ = _ from h₆), bind_of_eq_ok (show readByte _ = _ from h₇),
    bind_of_eq_ok (show readByte _ = _ from h₈), bind_of_eq_ok (show readVarInt _ = _ from h₉)]
  exact ⟨_, data₉, rfl⟩

theorem wellFormed_wip : (tree (TextComponent.plain "Currently WIP").encode).WellFormed :=
  Tree.wellFormed_of_fits _ (by decide)

theorem post_step {id : BitVec 32} {write : Action Unit} {w : Bytes}
    (hwrite : Produces (Fresh true) write w) (hc : c.isCompressed = false) (hw : w.length < 2 ^ 30) :
    ∃ c', c.post host id write = .ok c' ∧ c'.isCompressed = false ∧ c'.state = c.state := by
  rcases @post_total host c id write w hwrite hc hw with ⟨c', hpost⟩
  rcases post_eq_ok hpost with ⟨encrypt, new, rfl, -⟩
  exact ⟨_, hpost, hc, rfl⟩

/-- The answer to a client's settings on a server without registries. -/
theorem sendConfiguration_total (moment : Moment) (hregistries : host.registries = [])
    (hstate : c.state = .config) (hc : c.isCompressed = false) :
    ∃ c', sendConfiguration host moment c = .ok c' := by
  have hv := writable_fresh true
  rcases @post_step host c 6 _ _ Produces.pure hc (by simp) with ⟨c₁, h₁, hc₁, hs₁⟩
  rcases @post_step host { c₁ with networkInfo := { c₁.networkInfo with
      lastKeepAlive := BitVec.ofInt 64 moment.now, verifyToken := moment.randomBytes 4 } } 4 _ _
    (hv.writeNumeric (k := 8) (BitVec.ofInt 64 moment.now)) hc₁ (by simp [numericBytes]) with
    ⟨c₂, h₂, hc₂, hs₂⟩
  rcases @post_step host c₂ 5 _ _
    (Produces.forEach (fun b => [b]) (moment.randomBytes 4) fun b _ => hv.writeByte b) hc₂
    (by rw [List.flatMap_singleton', moment.length_randomBytes]; decide) with ⟨c₃, h₃, hc₃, hs₃⟩
  rcases @post_step host c₃ 12 _ _ ((produces_writeVarInt 1).bind
    (Produces.forEach (fun identifier : Identifier => intBytes (toInt identifier.toString.length) ++
      identifier.toString) [⟨utf8 "minecraft", utf8 "vanilla"⟩] fun identifier _ =>
        hv.writeVarBytes identifier.toString)) hc₃ (by decide) with ⟨c₄, h₄, hc₄, hs₄⟩
  rcases @post_step host c₄ 2 _ _ (encodeWith_produces hv wellFormed_wip _ networkSettings rfl
    ⟨fun _ => ⟨rfl, rfl⟩, fun h => absurd h (by decide), fun _ => rfl⟩) hc₄ (by decide +kernel) with
    ⟨c₅, h₅, -⟩
  refine ⟨c₅, ?_⟩
  have hconfig : c₄.state = .config := by rw [hs₄, hs₃, hs₂]; exact hs₁.trans hstate
  unfold sendConfiguration
  rw [h₁, ok_bind]
  simp only [h₂, ok_bind]
  rw [show (c₂.post host 5 (writeArray (moment.randomBytes 4) writeUnsignedByte)) = _ from h₃, ok_bind,
    show (c₃.post host 12 (writePrefixedArray [⟨utf8 "minecraft", utf8 "vanilla"⟩] writeIdentifier)) = _
      from h₄, ok_bind, sendInitial_eq, ok_bind, hregistries, List.foldlM_nil, pure_eq, ok_bind]
  unfold sendDisconnect
  rw [hconfig]
  exact h₅

/-! ### A session -/

theorem Step.of_switch {r : Bool} (hid : i.packet.id.msb = false)
    (h : switch host i.moment i.online i.packet c = .ok ⟨c', r⟩) : Step host c i c' :=
  ⟨hid, c, ⟨c', r⟩, Received.refl c, h, rfl⟩

theorem Step.of_switchLogin {r : Bool} (hid : i.packet.id.msb = false) (hstate : c.state = .login)
    (h : switchLogin host i.moment i.online i.packet c = .ok ⟨c', r⟩) : Step host c i c' := by
  apply Step.of_switch hid
  rw [switch, hstate]
  exact h

theorem Step.of_switchConfig {r : Bool} (hid : i.packet.id.msb = false)
    (hstate : c.state = .config)
    (h : switchConfig host i.moment i.packet c = .ok ⟨c', r⟩) : Step host c i c' := by
  apply Step.of_switch hid
  rw [switch, hstate]
  exact h

/-- A server that neither compresses nor asks the session server. -/
structure Simple (host : Host) : Prop where
  offline : host.config.onlineMode = false
  threshold : (0 : BitVec 32).slt host.config.threshold = false
  publicKeyDER : host.publicKeyDER.length < 2 ^ 29

/-- The data that a client logs in with. -/
structure Client where
  playerName : Bytes
  playerUUID : UUID
  sharedSecret : Bytes
  verifyToken : Bytes
  length_playerName : playerName.length ≤ 16
  length_sharedSecret : sharedSecret.length < 2 ^ 31
  length_verifyToken : verifyToken.length < 2 ^ 31

namespace Client

variable (client : Client) (moment : Moment) (online : ℤ)

def handshake : Input := ⟨moment, online, packetOfValues 0 (handshakeValues latestProtocol [] 0 2)⟩

def loginStart : Input :=
  ⟨moment, online, packetOfValues 0 (loginStartValues client.playerName client.playerUUID)⟩

def response : Input :=
  ⟨moment, online, packetOfValues 1 (responseValues client.sharedSecret client.verifyToken)⟩

def loginAck : Input := ⟨moment, online, packetOfValues 3 []⟩

def configInfo (settings : SettingsInfo) : Input :=
  ⟨moment, online, packetOfValues 0 (settingsValues settings)⟩

def configAck : Input := ⟨moment, online, packetOfValues 3 []⟩

end Client

/-- Where a client that logs in has got to. -/
structure At (state : State) (verifyToken : Bytes) (sent : List (State × BitVec 32))
    (c : ZincConnection) : Prop where
  state_eq : c.state = state
  verifyToken_eq : c.networkInfo.verifyToken = verifyToken
  sent_eq : c.view.sent = sent
  protocolVersion : c.networkInfo.protocolVersion = latestProtocol
  kickAtLogin : c.kickAtLogin = 0
  isCompressed : c.isCompressed = false
  playerName : c.playerInfo.playerName.length ≤ 16
  properties : c.playerInfo.properties = []
  plain : (State.login, 2) ∉ sent → c.isEncrypted = false ∧ c.decrypt = .new

variable {sent : List (State × BitVec 32)}

theorem handshake_step (moment : Moment) (online : ℤ) (hc : Accepts c) (hkick : c.kickAtLogin = 0) :
    ∃ c', Step host c (Client.handshake moment online) c' ∧ At .login [] [] c' := by
  rcases hc with ⟨ip, networkInfo, settingsInfo, kickAtLogin, rfl⟩
  refine ⟨_, Step.of_switch (show (0 : BitVec 32).msb = false by decide)
    (congrArg Handled.done (handshake_eq latestProtocol 0 2
      (show ([] : Bytes).length < 2 ^ 31 by simp) _)), ?_⟩
  exact ⟨rfl, rfl, rfl, rfl, hkick, rfl, Nat.zero_le _, rfl, fun _ => ⟨rfl, rfl⟩⟩

theorem loginStart_step (hhost : Simple host) (client : Client) (moment : Moment)
    (hplace : online < host.config.maxPlayerCount) (h : At .login [] sent c) :
    ∃ c', Step host c (client.loginStart moment online) c' ∧
      At .login (moment.randomBytes 64) (sent ++ [(.login, 1)]) c' := by
  rcases @loginStart_eq host moment online c client.playerName client.playerUUID
    client.length_playerName h.kickAtLogin hplace h.protocolVersion hhost.threshold
    hhost.publicKeyDER h.isCompressed with ⟨encrypt, output, hkeys, hstart⟩
  refine ⟨_, Step.of_switchLogin (show (0 : BitVec 32).msb = false by decide) h.state_eq hstart, ?_⟩
  rw [h.state_eq] at hkeys
  exact ⟨h.state_eq, rfl, hkeys.trans (congrArg (· ++ _) h.sent_eq), h.protocolVersion, h.kickAtLogin,
    h.isCompressed, client.length_playerName, h.properties,
    fun hsent => h.plain fun hold => hsent (List.mem_append_left _ hold)⟩

/-- Login Start on a full server. -/
theorem fullServer_step (client : Client) (moment : Moment)
    (hfull : host.config.maxPlayerCount ≤ online) {verifyToken : Bytes}
    (h : At .login verifyToken sent c) (henc : c.isEncrypted = false) :
    ∃ c', Step host c (client.loginStart moment online) c' ∧
      At .login verifyToken (sent ++ [(.login, 0)]) c' ∧ c'.isEncrypted = false := by
  have hsend : ∃ c', c.sendLoginError host "Server is full" = .ok c' := by
    unfold sendLoginError sendDisconnect
    rw [h.state_eq]
    exact post_total_plain ((writable_fresh true).writeVarBytes _) henc
  rcases hsend with ⟨c', hsend⟩
  have hsends := sendLoginError_eq_ok hsend
  rw [h.state_eq] at hsends
  rcases hsends with ⟨encrypt, new, hc', -, hkeys, -⟩
  refine ⟨c', Step.of_switchLogin (r := true) (show (0 : BitVec 32).msb = false by decide) h.state_eq
    ?_, ?_⟩
  · change loginStart host moment online _ c = _
    rw [loginStart, if_neg (not_not.mpr h.kickAtLogin), if_pos hfull, hsend]
    rfl
  subst hc'
  refine ⟨⟨h.state_eq, h.verifyToken_eq, ?_, h.protocolVersion, h.kickAtLogin, h.isCompressed, h.playerName,
      h.properties, fun hsent => h.plain fun hold => hsent (List.mem_append_left _ hold)⟩, henc⟩
  · rw [← h.sent_eq]
    change (c.output ++ new).map Sent.key = c.output.map Sent.key ++ _
    rw [List.map_append, hkeys, h.state_eq]
    rfl

theorem response_step (hhost : Simple host) (client : Client) (moment : Moment) (online : ℤ)
    (h : At .login (RSAWrapper.decrypt host client.verifyToken) sent c) :
    ∃ c', Step host c (client.response moment online) c' ∧
      At .login [] (sent ++ [(.login, 2)]) c' ∧ c'.isEncrypted = true ∧
      c'.decrypt = (c.setupEncryption (RSAWrapper.decrypt host client.sharedSecret)).decrypt := by
  rcases @encryptionResponse_eq host moment c client.sharedSecret client.verifyToken _
    client.length_sharedSecret client.length_verifyToken hhost.offline rfl h.verifyToken_eq.symm
    h.playerName h.properties h.isCompressed with ⟨encrypt, output, hkeys, hresponse⟩
  refine ⟨_, Step.of_switchLogin (show (1 : BitVec 32).msb = false by decide) h.state_eq hresponse, ?_⟩
  rw [h.state_eq] at hkeys
  exact ⟨⟨h.state_eq, rfl, hkeys.trans (congrArg (· ++ _) h.sent_eq), h.protocolVersion,
    h.kickAtLogin, h.isCompressed, h.playerName, h.properties,
    fun hsent => absurd (List.mem_append_right _ (List.mem_singleton_self _)) hsent⟩, rfl, rfl⟩

/-- An acknowledgement: the next state, and the login may be finished. -/
theorem ack_step {i : Input} {state state' : State} {finished : Bool} {verifyToken : Bytes}
    (hstep : Step host c i { c with state := state', loginFinished := finished })
    (h : At state verifyToken sent c) :
    ∃ c', Step host c i c' ∧ At state' verifyToken sent c' :=
  ⟨_, hstep, rfl, h.verifyToken_eq, h.sent_eq, h.protocolVersion, h.kickAtLogin, h.isCompressed,
    h.playerName, h.properties, h.plain⟩

theorem loginAck_step (moment : Moment) (online : ℤ) {verifyToken : Bytes}
    (h : At .login verifyToken sent c) :
    ∃ c', Step host c (Client.loginAck moment online) c' ∧ At .config verifyToken sent c' :=
  ack_step (Step.of_switchLogin (r := false) (show (3 : BitVec 32).msb = false by decide)
    h.state_eq rfl) h

/-- Config Info on a server without bans and registries. -/
theorem configInfo_step (hregistries : host.registries = []) (hbans : moment.bans = []) (online : ℤ)
    {settings : SettingsInfo} (hlocale : settings.locale.length < 2 ^ 31) {verifyToken : Bytes}
    (h : At .config verifyToken sent c) :
    ∃ c', Step host c (Client.configInfo moment online settings) c' ∧
      At .config (moment.randomBytes 4)
        (sent ++ [(.config, 6), (.config, 4), (.config, 5), (.config, 12), (.config, 2)]) c' := by
  rcases readSettings_total host.config.viewDistance hlocale with ⟨settings', rest, hread⟩
  rcases @sendConfiguration_total host { c with settingsInfo := settings' } moment hregistries
    h.state_eq h.isCompressed with ⟨c', hsend⟩
  have hinfo : switchConfig host moment (packetOfValues 0 (settingsValues settings)) c =
      .ok ⟨c', false⟩ := by
    change configInfo host moment _ c = _
    unfold configInfo checkBan matchedBan
    rw [hbans, List.find?_nil, ok_bind]
    simp only [Bool.false_eq_true, if_false, hread, ok_bind, hsend]
    rfl
  rcases @sendConfiguration_eq_ok host { c with settingsInfo := settings' } _ _ h.state_eq hsend with
    ⟨encrypt, new, rfl, -, hkeys, -⟩
  refine ⟨_, Step.of_switchConfig (show (0 : BitVec 32).msb = false by decide) h.state_eq hinfo, ?_⟩
  refine ⟨h.state_eq, rfl, ?_, h.protocolVersion, h.kickAtLogin, h.isCompressed, h.playerName,
    h.properties, fun hsent => h.plain fun hold => hsent (List.mem_append_left _ hold)⟩
  rw [← h.sent_eq]
  change (c.output ++ new).map Sent.key = c.output.map Sent.key ++ _
  rw [List.map_append, hkeys, hregistries]
  change _ ++ List.map (fun id => (c.state, id)) _ = _
  rw [h.state_eq]
  rfl

theorem configAck_step (moment : Moment) (online : ℤ) {verifyToken : Bytes}
    (h : At .config verifyToken sent c) :
    ∃ c', Step host c (Client.configAck moment online) c' ∧ At .play verifyToken sent c' :=
  ack_step (Step.of_switchConfig (r := false) (show (3 : BitVec 32).msb = false by decide)
    h.state_eq rfl) h

/-- A client that knows the verify token logs in. -/
theorem login_run (hhost : Simple host) (client : Client) (moment : Moment)
    (hplace : online < host.config.maxPlayerCount)
    (htoken : RSAWrapper.decrypt host client.verifyToken = moment.randomBytes 64)
    {c₀ : ZincConnection} (hc₀ : Accepts c₀) (hkick : c₀.kickAtLogin = 0) :
    ∃ c₁ c₂ c₃ c₄, ConnectionRun host ([] ++ [(c₀, Client.handshake moment online)] ++
        [(c₁, client.loginStart moment online)] ++ [(c₂, client.response moment online)] ++
        [(c₃, Client.loginAck moment online)]) c₄ ∧
      At .login [] [] c₁ ∧ At .login (moment.randomBytes 64) [(.login, 1)] c₂ ∧
      At .login [] [(.login, 1), (.login, 2)] c₃ ∧ At .config [] [(.login, 1), (.login, 2)] c₄ := by
  rcases handshake_step moment online hc₀ hkick with ⟨c₁, h₁, hat₁⟩
  rcases loginStart_step hhost client moment hplace hat₁ with ⟨c₂, h₂, hat₂⟩
  rcases response_step hhost client moment online (by rwa [htoken]) with ⟨c₃, h₃, hat₃, -⟩
  rcases loginAck_step moment online hat₃ with ⟨c₄, h₄, hat₄⟩
  exact ⟨c₁, c₂, c₃, c₄, (((Run.start hc₀).next h₁).next h₂).next h₃ |>.next h₄, hat₁, hat₂, hat₃, hat₄⟩

/-! ### Sample values -/

/-- A server without a session server, whose decryption copies. -/
def sampleHost : Host where
  libs := copying
  config := ⟨0, [], 20, [], false, 2, 10, [], 10⟩
  decrypt := some
  publicKeyDER := []
  statusText := fun _ _ _ _ => []
  json := ⟨fun _ => none, fun _ => [], fun _ => [], fun _ _ => false, fun _ => 0⟩
  base64 := ⟨id, id⟩
  cookieRSA := ⟨fun _ data => data, id, id, fun _ _ => false⟩
  floatText := fun _ => []
  doubleText := fun _ => []
  registries := []

def sampleMoment (bans : List BanData) : Moment where
  now := 0
  randomBytes := zeros
  length_randomBytes := length_zeros
  channelIds := []
  length_channelIds := by simp
  session := fun _ _ _ => ⟨none, none, [], false⟩
  bans := bans

def sampleClient : Client where
  playerName := [65]
  playerUUID := nilUUID
  sharedSecret := zeros 16
  verifyToken := zeros 64
  length_playerName := by decide
  length_sharedSecret := by decide
  length_verifyToken := by decide

theorem simple_sampleHost : Simple sampleHost := ⟨rfl, by decide, by decide⟩

theorem place_sampleHost : (0 : ℤ) < sampleHost.config.maxPlayerCount := by decide

theorem accepts_waiting : Accepts (waiting []) := ⟨_, _, _, 0, rfl⟩

end Zinc.Network
