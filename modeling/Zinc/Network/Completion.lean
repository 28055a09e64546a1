import Zinc.Buffer.RoundTrip
import Zinc.Network.Link
import Zinc.Network.SessionLookup

/-! Logging in on any server: with or without compression, with or without a session
server. A client that is not turned away at the door, knows the verify token and is
known to the session server gets to the state `Config` with four packets, encrypted
with its secret and under the name that the server looked up. -/

namespace Zinc.Network

open Throw History Buffer Buffer.ByteBuffer ZincConnection

variable {host : Host} {moment : Moment} {online : ℤ} {c c' : ZincConnection} {client : Client}

/-! ### Packets that are sent -/

theorem post_total_zlib (hzlib : Zlib host.libs) {id : BitVec 32} {write : Action Unit} {w : Bytes}
    (hwrite : Produces (Fresh true) write w) (hw : w.length ≤ 2 ^ 30) :
    ∃ c', c.post host id write = .ok c' := by
  rcases fresh_of_produces hwrite fresh_new with ⟨data, hdata, hfresh⟩
  rw [post, hdata, ok_bind]
  apply send_total
  change (frameBytes host.libs host.config.threshold c.isCompressed id data.getBytes).length < 2 ^ 31
  rw [hfresh.getBytes]
  exact length_frameBytes_lt hzlib _ _ id hw

def propertyBytes (property : ZincConnectionProperty) : Bytes :=
  stringBytes property.name ++ (stringBytes property.value ++ optionalBytes stringBytes property.signature)

/-- What Login Success says of a player. -/
def successBytes (playerInfo : PlayerInfo) : Bytes :=
  playerInfo.playerUUID.1 ++ (stringBytes playerInfo.playerName ++
    prefixedBytes propertyBytes playerInfo.properties)

theorem produces_loginSuccess (playerInfo : PlayerInfo) :
    Produces (Fresh true) (do
      writeUUID playerInfo.playerUUID
      writeString playerInfo.playerName
      writePrefixedArray playerInfo.properties writeZincConnectionProperty)
      (successBytes playerInfo) := by
  have hv := writable_fresh true
  refine (hv.writeValue .uuid playerInfo.playerUUID).bind ((hv.writeVarBytes playerInfo.playerName).bind ?_)
  refine hv.writePrefixedArray fun property _ => ?_
  exact (hv.writeVarBytes property.name).bind ((hv.writeVarBytes property.value).bind
    (hv.writePrefixedOptional fun signature _ => hv.writeVarBytes signature))

/-! ### Stages -/

/-- How far a login has got before encryption is set up. -/
structure Stage (c : ZincConnection) (verifyToken : Bytes) (playerInfo : PlayerInfo)
    (isCompressed : Bool) (sent : List (BitVec 32)) : Prop where
  state_eq : c.state = .login
  verifyToken_eq : c.networkInfo.verifyToken = verifyToken
  playerInfo_eq : c.playerInfo = playerInfo
  isCompressed_eq : c.isCompressed = isCompressed
  sent_eq : c.view.sent = sent.map fun id => (.login, id)
  protocolVersion : c.networkInfo.protocolVersion = latestProtocol
  kickAtLogin : c.kickAtLogin = 0
  isEncrypted : c.isEncrypted = false
  decrypt : c.decrypt = .new

/-- A handshake with any address and port. -/
def knock (moment : Moment) (online : ℤ) (serverAddr : Bytes) (serverPort : BitVec 16) : Input :=
  ⟨moment, online, packetOfValues 0 (handshakeValues latestProtocol serverAddr serverPort 2)⟩

theorem knock_step (moment : Moment) (online : ℤ) {serverAddr : Bytes} (serverPort : BitVec 16)
    (haddr : serverAddr.length < 2 ^ 31) (hc : Accepts c) (hkick : c.kickAtLogin = 0) :
    ∃ c', Step host c (knock moment online serverAddr serverPort) c' ∧
      Stage c' [] ⟨[], nilUUID, []⟩ false [] := by
  rcases hc with ⟨ip, networkInfo, settingsInfo, kickAtLogin, rfl⟩
  refine ⟨_, Step.of_switch (show (0 : BitVec 32).msb = false by decide)
    (congrArg Handled.done (handshake_eq latestProtocol serverPort 2 haddr _)), ?_⟩
  exact ⟨rfl, rfl, rfl, rfl, rfl, rfl, hkick, rfl, rfl⟩

/-- The request for the player's verify token, in front of which compression may be set up. -/
theorem request_total (moment : Moment) (hstate : c.state = .login) (henc : c.isEncrypted = false) :
    ∃ c', (do
        let connection ←
          if (0 : BitVec 32).slt host.config.threshold then c.setupCompression host else .ok c
        Handled.done (sendEncryptionRequest host moment connection)) = .ok ⟨c', false⟩ ∧
      ∃ encrypt new, c' = { c with
        networkInfo := { c.networkInfo with verifyToken := moment.randomBytes 64 }
        isCompressed := c.isCompressed || (0 : BitVec 32).slt host.config.threshold
        encrypt := encrypt
        output := c.output ++ new } ∧
      new.map Sent.key =
        (if (0 : BitVec 32).slt host.config.threshold then [3, 1] else [1]).map fun id => (.login, id) := by
  have hrequest : ∀ c : ZincConnection, c.state = .login → c.isEncrypted = false →
      ∃ c', sendEncryptionRequest host moment c = .ok c' ∧ Sends host [1]
        { c with networkInfo := { c.networkInfo with verifyToken := moment.randomBytes 64 } } c' := by
    intro c hstate henc
    rcases @post_total_plain host
      { c with networkInfo := { c.networkInfo with verifyToken := moment.randomBytes 64 } } 1 _ _
      (produces_encryptionRequest host (moment.randomBytes 64)) henc with ⟨c', hpost⟩
    exact ⟨c', hpost, post_eq_ok hpost⟩
  cases hthreshold : (0 : BitVec 32).slt host.config.threshold with
  | false =>
    rcases hrequest c hstate henc with ⟨c', hsend, encrypt, new, hc', -, hkeys, -⟩
    refine ⟨c', ?_, encrypt, new, ?_, ?_⟩
    · rw [if_neg Bool.false_ne_true, ok_bind]
      exact congrArg Handled.done hsend
    · rw [hc', Bool.or_false]
    · rw [hkeys, hstate, if_neg Bool.false_ne_true]
  | true =>
    rcases @post_total_plain host c 3 _ _ (produces_writeVarInt host.config.threshold) henc with
      ⟨c₁, hpost⟩
    rcases post_eq_ok hpost with ⟨encrypt, new, rfl, -, hkeys, -⟩
    rcases hrequest { c with encrypt := encrypt, output := c.output ++ new, isCompressed := true } hstate
      henc with ⟨c', hsend, encrypt', new', hc', -, hkeys', -⟩
    refine ⟨c', ?_, encrypt', new ++ new', ?_, ?_⟩
    · rw [if_pos rfl, setupCompression, if_neg (not_not.mpr hstate), hpost, ok_bind, pure_eq, ok_bind]
      exact congrArg Handled.done hsend
    · rw [hc', Bool.or_true, List.append_assoc]
    · rw [List.map_append, hkeys, hkeys', if_pos rfl, hstate]
      rfl

/-- Login Start, on a server with a place left, comes to the request. -/
theorem loginStart_request (client : Client) (moment : Moment)
    (hplace : online < host.config.maxPlayerCount) (hkick : c.kickAtLogin = 0)
    (hprotocol : c.networkInfo.protocolVersion = latestProtocol) :
    loginStart host moment online
      (packetOfValues 0 (loginStartValues client.playerName client.playerUUID)).data c = (do
        let c₁ : ZincConnection := { c with playerInfo := { c.playerInfo with
          playerName := client.playerName, playerUUID := client.playerUUID } }
        let connection ←
          if (0 : BitVec 32).slt host.config.threshold then c₁.setupCompression host else .ok c₁
        Handled.done (sendEncryptionRequest host moment connection)) := by
  have hv := readable_stored true
  have hstored := stored_packetOfValues 0 (loginStartValues client.playerName client.playerUUID)
  have hname := client.length_playerName
  rcases hv.readValue .string client.playerName (show client.playerName.length < 2 ^ 31 by omega) _ _
    hstored with ⟨data₁, h₁, hs₁⟩
  rcases hv.readValue .uuid client.playerUUID trivial _ _ hs₁ with ⟨data₂, h₂, -⟩
  unfold loginStart
  rw [if_neg (not_not.mpr hkick), if_neg (not_le.mpr hplace), hprotocol, if_neg (by decide),
    if_neg (by decide), show readString _ = _ from h₁, ok_bind]
  simp only [show readUUID _ = _ from h₂, ok_bind, if_neg (not_lt.mpr hname)]

theorem start_step (client : Client) (moment : Moment)
    (hplace : online < host.config.maxPlayerCount) {playerInfo : PlayerInfo}
    (h : Stage c [] playerInfo false []) :
    ∃ c', Step host c (client.loginStart moment online) c' ∧
      Stage c' (moment.randomBytes 64) ⟨client.playerName, client.playerUUID, playerInfo.properties⟩
        ((0 : BitVec 32).slt host.config.threshold)
        (if (0 : BitVec 32).slt host.config.threshold then [3, 1] else [1]) := by
  let c₁ : ZincConnection := { c with
    playerInfo := { c.playerInfo with playerName := client.playerName, playerUUID := client.playerUUID } }
  rcases @request_total host c₁ moment h.state_eq h.isEncrypted with
    ⟨c', hrequest, encrypt, new, hc', hkeys⟩
  have hstart := loginStart_request client moment hplace h.kickAtLogin h.protocolVersion
  refine ⟨c', Step.of_switchLogin (r := false) (show (0 : BitVec 32).msb = false by decide) h.state_eq
    (hstart.trans hrequest), ?_⟩
  subst hc'
  have hsent : c.output.map Sent.key = [] := h.sent_eq
  have hcompressed : (c.isCompressed || (0 : BitVec 32).slt host.config.threshold) =
      (0 : BitVec 32).slt host.config.threshold := by rw [h.isCompressed_eq, Bool.false_or]
  refine ⟨h.state_eq, rfl, ?_, hcompressed, ?_, h.protocolVersion, h.kickAtLogin, h.isEncrypted,
    h.decrypt⟩
  · rw [← h.playerInfo_eq]
  · change (c.output ++ new).map Sent.key = _
    rw [List.map_append, hsent, hkeys, List.nil_append]

/-! ### The player -/

/-- The player that a client logs in as. -/
def profile (host : Host) (client : Client) (moment : Moment) : PlayerInfo × Bool :=
  if host.config.onlineMode then
    lookup (moment.session client.playerName (RSAWrapper.decrypt host client.sharedSecret))
      ⟨client.playerName, client.playerUUID, []⟩
  else (⟨client.playerName, client.playerUUID, []⟩, true)

/-- What a client needs for its login: keys that fit, a session server that knows it, and a
profile that fits a packet. -/
structure Admissible (host : Host) (client : Client) (start response : Moment) : Prop where
  zlib : Zlib host.libs
  verifyToken : RSAWrapper.decrypt host client.verifyToken = start.randomBytes 64
  known : host.config.onlineMode = true →
    ∃ i < 10, (response.session client.playerName
      (RSAWrapper.decrypt host client.sharedSecret) i).Succeeds
  fits : (successBytes (profile host client response).1).length ≤ 2 ^ 30

theorem profile_known {start response : Moment} (h : Admissible host client start response) :
    (profile host client response).2 = true := by
  unfold profile
  split
  next honline => exact (SessionLoop.turns_gotData _ _ 10).mpr (h.known honline)
  next => rfl

/-- The response to the request comes to Login Success, behind the keys. -/
theorem encryptionResponse_success {start response : Moment} (h : Admissible host client start response)
    (hplayer : c.playerInfo = ⟨client.playerName, client.playerUUID, []⟩)
    (hverify : c.networkInfo.verifyToken = start.randomBytes 64) :
    encryptionResponse host response
      (packetOfValues 1 (responseValues client.sharedSecret client.verifyToken)).data c =
      Handled.done (sendLoginSuccess host
        { c.setupEncryption (RSAWrapper.decrypt host client.sharedSecret) with
          networkInfo := { c.networkInfo with verifyToken := [] }
          playerInfo := (profile host client response).1 }) := by
  rcases response_packetOfValues 1 client.length_sharedSecret client.length_verifyToken with ⟨rest, hread⟩
  have htoken : RSAWrapper.decrypt host client.verifyToken = c.networkInfo.verifyToken := by
    rw [h.verifyToken, hverify]
  cases honline : host.config.onlineMode with
  | false =>
    have hsame : (profile host client response).1 = c.playerInfo := by
      rw [profile, honline, hplayer]
      rfl
    unfold encryptionResponse
    rw [hread, ok_bind]
    simp only [htoken, if_true, honline, Bool.false_eq_true, if_false, sendInitial_eq, ok_bind, hsame]
    rfl
  | true =>
    have hlookup : profile host client response =
        ((sessionLoop host response c client.sharedSecret).playerInfo,
          (sessionLoop host response c client.sharedSecret).gotData) := by
      rw [profile, honline, if_pos rfl, lookup_eq_turns, sessionLoop, sessionAnswers, hplayer]
    have hgot := profile_known h
    rw [hlookup] at hgot
    rw [encryptionResponse_eq_sessionLoop hread htoken honline, if_pos hgot, loginGoesOn, sendInitial_eq,
      ok_bind, hlookup]
    rfl

theorem answer_step {start response : Moment}
    (h : Admissible host client start response) (online : ℤ) {isCompressed : Bool}
    {sent : List (BitVec 32)}
    (hstage : Stage c (start.randomBytes 64) ⟨client.playerName, client.playerUUID, []⟩ isCompressed
      sent) :
    ∃ c', Step host c (client.response response online) c' ∧ c'.state = .login ∧
      c'.playerInfo = (profile host client response).1 ∧ c'.isCompressed = isCompressed ∧
      c'.isEncrypted = true ∧ c'.networkInfo.verifyToken = [] ∧
      c'.decrypt = (AESWrapper.new.setKey (RSAWrapper.decrypt host client.sharedSecret)).setIV
        (RSAWrapper.decrypt host client.sharedSecret) ∧
      c'.view.sent = (sent ++ [2]).map fun id => (.login, id) := by
  have hanswer := encryptionResponse_success h hstage.playerInfo_eq hstage.verifyToken_eq
  let c₁ : ZincConnection := { c.setupEncryption (RSAWrapper.decrypt host client.sharedSecret) with
    networkInfo := { c.networkInfo with verifyToken := [] }
    playerInfo := (profile host client response).1 }
  rcases @post_total_zlib host c₁ h.zlib 2 _ _ (produces_loginSuccess c₁.playerInfo) h.fits with
    ⟨c', hpost⟩
  rcases post_eq_ok hpost with ⟨encrypt, new, hc', -, hkeys, -⟩
  refine ⟨c', Step.of_switchLogin (r := false) (show (1 : BitVec 32).msb = false by decide)
    hstage.state_eq (hanswer.trans (congrArg Handled.done hpost)), ?_⟩
  subst hc'
  refine ⟨hstage.state_eq, rfl, hstage.isCompressed_eq, rfl, rfl, ?_, ?_⟩
  · change (c.decrypt.setKey _).setIV _ = _
    rw [hstage.decrypt]
  · change (c.output ++ new).map Sent.key = _
    have hsent : c.output.map Sent.key = _ := hstage.sent_eq
    rw [List.map_append, hsent, hkeys, List.map_append]
    change _ ++ [(c.state, (2 : BitVec 32))] = _
    rw [hstage.state_eq]
    rfl

/-! ### The whole login -/

/-- The packets that a client gets up to Login Success. -/
def loginIds (host : Host) : List (BitVec 32) :=
  (if (0 : BitVec 32).slt host.config.threshold then [3, 1] else [1]) ++ [2]

/-- A connection behind a login. -/
structure Welcomed (host : Host) (client : Client) (response : Moment) (c : ZincConnection) : Prop where
  state_eq : c.state = .config
  loginFinished : c.loginFinished = true
  playerInfo_eq : c.playerInfo = (profile host client response).1
  isEncrypted : c.isEncrypted = true
  isCompressed_eq : c.isCompressed = (0 : BitVec 32).slt host.config.threshold
  verifyToken_eq : c.networkInfo.verifyToken = []
  decrypt : c.decrypt = (AESWrapper.new.setKey (RSAWrapper.decrypt host client.sharedSecret)).setIV
    (RSAWrapper.decrypt host client.sharedSecret)
  sent_eq : c.view.sent = (loginIds host).map fun id => (.login, id)

/-- A login goes through from the handshake to its acknowledgement, whatever the server's
settings, the client's address and port and the times between the packets. -/
theorem login_completes {start response : Moment} (h : Admissible host client start response)
    (hplace : online < host.config.maxPlayerCount) {serverAddr : Bytes}
    (haddr : serverAddr.length < 2 ^ 31) (serverPort : BitVec 16) (knocked acknowledged : Moment)
    (online₀ online₂ online₃ : ℤ) {c₀ : ZincConnection} (hc₀ : Accepts c₀) (hkick : c₀.kickAtLogin = 0) :
    ∃ c₁ c₂ c₃ c₄, ConnectionRun host ([] ++ [(c₀, knock knocked online₀ serverAddr serverPort)] ++
        [(c₁, client.loginStart start online)] ++ [(c₂, client.response response online₂)] ++
        [(c₃, Client.loginAck acknowledged online₃)]) c₄ ∧ Welcomed host client response c₄ := by
  rcases @knock_step host c₀ knocked online₀ serverAddr serverPort haddr hc₀ hkick with
    ⟨c₁, h₁, hstage₁⟩
  rcases start_step client start hplace hstage₁ with ⟨c₂, h₂, hstage₂⟩
  rcases answer_step h online₂ hstage₂ with
    ⟨c₃, h₃, hstate, hplayer, hcompressed, hencrypted, htoken, hdecrypt, hsent⟩
  have h₄ : Step host c₃ (Client.loginAck acknowledged online₃)
      { c₃ with state := .config, loginFinished := true } :=
    Step.of_switchLogin (r := false) (show (3 : BitVec 32).msb = false by decide) hstate rfl
  exact ⟨c₁, c₂, c₃, _, (((Run.start hc₀).next h₁).next h₂).next h₃ |>.next h₄, rfl, rfl, hplayer,
    hencrypted, hcompressed, htoken, hdecrypt, hsent⟩

/-- A server that compresses and asks a session server. -/
def strictHost : Host :=
  { sampleHost with
    libs := storing
    config := { sampleHost.config with onlineMode := true, threshold := 256 } }

/-- A session server that answers the third request. -/
def lateMoment : Moment :=
  { sampleMoment [] with
    session := fun _ _ i => if i = 2 then sampleProfile else ⟨none, none, [], false⟩ }

theorem admissible_sample : Admissible strictHost sampleClient lateMoment lateMoment :=
  ⟨zlib_storing, rfl, fun _ => ⟨2, by decide, by decide⟩, by decide⟩

theorem login_completes_sample : ∃ c₁ c₂ c₃ c₄, ConnectionRun strictHost
    ([] ++ [(waiting [], knock lateMoment 0 [49] 25565)] ++ [(c₁, sampleClient.loginStart lateMoment 0)] ++
      [(c₂, sampleClient.response lateMoment 0)] ++ [(c₃, Client.loginAck lateMoment 0)]) c₄ ∧
    Welcomed strictHost sampleClient lateMoment c₄ :=
  login_completes admissible_sample (by decide) (by decide) 25565 lateMoment lateMoment 0 0 0
    accepts_waiting rfl

end Zinc.Network
