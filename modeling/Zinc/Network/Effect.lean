import Zinc.Network.Send
import Zinc.Network.Server

/-! What one packet can do to a connection. Of a connection we look at its state,
its verify token, its encryption and the ids of the packets it sent, each with
the state it was sent in. `switch_effect` lists the possible changes with the
conditions under which they happen; invariants are derived from this list alone. -/

namespace Zinc.Network

open Throw Buffer Buffer.ByteBuffer Nbt Handled ZincConnection

/-! ### Views -/

structure View where
  state : State
  verifyToken : Bytes
  isEncrypted : Bool
  /-- Both directions have a key and a register. -/
  keyed : Bool
  sent : List (State × BitVec 32)

/-- Packets with the given ids are sent. -/
def View.send (ids : List (BitVec 32)) (view : View) : View :=
  { view with sent := view.sent ++ ids.map fun id => (view.state, id) }

def Sent.key (sent : Sent) : State × BitVec 32 := (sent.state, sent.id)

def ZincConnection.view (connection : ZincConnection) : View where
  state := connection.state
  verifyToken := connection.networkInfo.verifyToken
  isEncrypted := connection.isEncrypted
  keyed := connection.encrypt.ready && connection.decrypt.ready
  sent := connection.output.map Sent.key

@[simp] theorem View.send_nil (view : View) : view.send [] = view := by
  simp [View.send]

theorem View.mem_sent_send {ids : List (BitVec 32)} {view : View} {key : State × BitVec 32} :
    key ∈ (view.send ids).sent ↔ key ∈ view.sent ∨ key.1 = view.state ∧ key.2 ∈ ids := by
  rw [View.send, List.mem_append, List.mem_map]
  refine or_congr_right ⟨?_, fun ⟨hstate, hid⟩ => ⟨key.2, hid, Prod.ext hstate.symm rfl⟩⟩
  rintro ⟨id, hid, rfl⟩
  exact ⟨rfl, hid⟩

/-! ### Messages -/

/-- As many bytes are on the wire as a frame of the packet has. -/
def Sent.Whole (host : Host) (sent : Sent) : Prop :=
  ∃ isCompressed, sent.wire.length =
    (frameBytes host.libs host.config.threshold isCompressed sent.id sent.data).length

/-- Only messages with the given ids are sent. -/
def Sends (host : Host) (ids : List (BitVec 32)) (c c' : ZincConnection) : Prop :=
  ∃ encrypt new, c' = { c with encrypt := encrypt, output := c.output ++ new } ∧
    c.encrypt.Rolls encrypt ∧ new.map Sent.key = ids.map (fun id => (c.state, id)) ∧
    ((c.isEncrypted = true → c.encrypt.ready = true) → ∀ sent ∈ new, sent.Whole host)

variable {host : Host} {moment : Moment} {c c' c'' : ZincConnection} {ids ids' : List (BitVec 32)}

theorem Sends.refl (c : ZincConnection) : Sends host [] c c :=
  ⟨c.encrypt, [], by simp, AESWrapper.Rolls.refl _, rfl, by simp⟩

theorem Sends.trans (h : Sends host ids c c') (h' : Sends host ids' c' c'') :
    Sends host (ids ++ ids') c c'' := by
  rcases h with ⟨encrypt, new, rfl, hrolls, hkeys, hwhole⟩
  rcases h' with ⟨encrypt', new', rfl, hrolls', hkeys', hwhole'⟩
  refine ⟨encrypt', new ++ new', by simp, hrolls.trans hrolls', by simp [hkeys, hkeys'], ?_⟩
  intro hready sent hsent
  rcases List.mem_append.mp hsent with hnew | hnew
  · exact hwhole hready sent hnew
  · exact hwhole' (fun henc => hrolls.ready_eq.trans (hready henc)) sent hnew

theorem Sends.state_eq (h : Sends host ids c c') : c'.state = c.state := by
  rcases h with ⟨encrypt, new, rfl, -⟩
  rfl

theorem Sends.view_eq (h : Sends host ids c c') : c'.view = c.view.send ids := by
  rcases h with ⟨encrypt, new, rfl, hrolls, hkeys, -⟩
  simp only [ZincConnection.view, View.send, hrolls.ready_eq, List.map_append, hkeys]

theorem Sends.of_send {packet : ZincPacket}
    (h : c.send host.libs host.config.threshold packet = .ok c') : Sends host [packet.id] c c' := by
  rcases send_eq_ok h with ⟨encrypt, wire, rfl, hrolls, hlength⟩
  refine ⟨encrypt, [⟨c.state, packet.id, packet.data.getBytes, wire⟩], rfl, hrolls, rfl, ?_⟩
  intro hready sent hsent
  rw [List.mem_singleton.mp hsent]
  exact ⟨c.isCompressed, hlength hready⟩

theorem post_eq_ok {id : BitVec 32} {write : Action Unit} (h : c.post host id write = .ok c') :
    Sends host [id] c c' := by
  unfold post at h
  rcases bind_eq_ok.mp h with ⟨⟨⟨⟩, data⟩, -, h⟩
  exact Sends.of_send h

/-- The ids of the messages that close a connection. -/
def disconnectIds : State → List (BitVec 32)
  | .login => [0]
  | .config => [2]
  | .play => [0x1C]
  | _ => []

theorem sendDisconnect_eq_ok {text : NBTElement} (h : c.sendDisconnect host text = .ok c') :
    Sends host (disconnectIds c.state) c c' := by
  unfold sendDisconnect at h
  split at h
  next hstate => rw [hstate]; exact post_eq_ok h
  next hstate => rw [hstate]; exact post_eq_ok h
  next hstate => rw [hstate]; exact post_eq_ok h
  next hlogin hconfig hplay =>
    obtain rfl := Except.ok.inj h
    have hnone : disconnectIds c.state = [] := by
      cases hstate : c.state <;> simp_all [disconnectIds]
    rw [hnone]
    exact Sends.refl c

theorem sendLoginError_eq_ok {message : String} (h : c.sendLoginError host message = .ok c') :
    Sends host (disconnectIds c.state) c c' := sendDisconnect_eq_ok h

/-- The ids of the messages that answer on a plugin channel. -/
def channelIds : State → List (BitVec 32)
  | .login => [0]
  | .config => [1]
  | .play => [0x18]
  | _ => []

theorem callPluginChannel_eq_ok {channel : Bytes}
    (h : callPluginChannel host moment channel c = .ok c') : Sends host (channelIds c.state) c c' := by
  unfold callPluginChannel brandChannel at h
  split at h
  next =>
    split at h
    next hlogin =>
      rw [hlogin]
      have hsends := sendLoginError_eq_ok h
      rwa [hlogin] at hsends
    next hlogin =>
      rcases bind_eq_ok.mp h with ⟨⟨⟨⟩, buffer⟩, -, h⟩
      change c.sendPluginMessage host moment _ _ = .ok c' at h
      unfold sendPluginMessage at h
      split at h
      next hstate => exact absurd hstate hlogin
      next hstate => rw [hstate]; exact post_eq_ok h
      next hstate => rw [hstate]; exact post_eq_ok h
      next hconfig hplay =>
        obtain rfl := Except.ok.inj h
        have hnone : channelIds c.state = [] := by
          cases hstate : c.state <;> simp_all [channelIds]
        rw [hnone]
        exact Sends.refl c
  next => simp at h

theorem cookieResponse_ne_ok {moment : Moment} {data : ByteBuffer} :
    cookieResponse host moment data c ≠ .ok c' := by
  intro h
  unfold cookieResponse at h
  obtain ⟨⟨cookieId, data₁⟩, -, h⟩ := bind_eq_ok.mp h
  obtain ⟨⟨bytes, data₂⟩, -, h⟩ := bind_eq_ok.mp h
  cases bytes with
  | none => simp [callCookieResponseParser] at h
  | some cookieRawData =>
    obtain ⟨cookieData, -, h⟩ := bind_eq_ok.mp h
    simp [callCookieResponseParser] at h

theorem foldlM_post_eq_ok {α : Type} {id : BitVec 32} {write : α → Action Unit} (as : List α)
    (h : as.foldlM (fun c a => c.post host id (write a)) c = .ok c') :
    Sends host (List.replicate as.length id) c c' := by
  induction as generalizing c with
  | nil => exact Except.ok.inj h ▸ Sends.refl c
  | cons a as ih =>
    rw [List.foldlM_cons] at h
    rcases bind_eq_ok.mp h with ⟨c₁, h₁, h⟩
    exact (post_eq_ok h₁).trans (ih h)

theorem sendInitial_eq (host : Host) (moment : Moment) (state : State) (c : ZincConnection) :
    sendInitial host moment state c = .ok c := rfl

theorem sendBanMessage_eq_ok {banData : BanData} {turnedAway : Bool}
    (h : c.sendBanMessage host moment banData = .ok (turnedAway, c')) :
    turnedAway = banData.active moment.now ∧
      Sends host (if turnedAway then disconnectIds c.state else []) c c' := by
  unfold sendBanMessage at h
  rcases bind_eq_ok.mp h with ⟨timePassed, htime, h⟩
  have hactive : banData.active moment.now = !decide (0 ≤ timePassed ∧ banData.time ≤ timePassed) := by
    unfold BanData.active
    unfold BanData.timePassed at htime
    split at htime
    next htemp =>
      unfold subLong at htime
      split at htime
      next => rw [← Except.ok.inj htime, htemp]; simp
      next => simp at htime
    next htemp =>
      obtain rfl := Except.ok.inj htime
      rw [Bool.eq_false_iff.mpr htemp]
      simp
  split at h
  next hover =>
    obtain ⟨rfl, rfl⟩ := Prod.mk.inj (Except.ok.inj h)
    exact ⟨by simp [hactive, hover], Sends.refl c⟩
  next hover =>
    rcases bind_eq_ok.mp h with ⟨c₁, hsend, h⟩
    obtain ⟨rfl, rfl⟩ := Prod.mk.inj (Except.ok.inj h)
    exact ⟨by simp [hactive, hover], sendDisconnect_eq_ok hsend⟩

/-! ### Inputs -/

/-- What the handler of one packet finds besides the connection. -/
structure Input where
  moment : Moment
  online : ℤ
  packet : ZincPacket

def LoginStart (c : ZincConnection) (i : Input) : Prop := c.state = .login ∧ i.packet.id = 0

def EncryptionResponse (c : ZincConnection) (i : Input) : Prop := c.state = .login ∧ i.packet.id = 1

def LoginAck (c : ZincConnection) (i : Input) : Prop := c.state = .login ∧ i.packet.id = 3

def ConfigInfo (c : ZincConnection) (i : Input) : Prop := c.state = .config ∧ i.packet.id = 0

def ConfigAck (c : ZincConnection) (i : Input) : Prop := c.state = .config ∧ i.packet.id = 3

/-- A Login Start that is answered with an encryption request. -/
structure Accepted (host : Host) (c : ZincConnection) (i : Input) : Prop where
  loginStart : LoginStart c i
  kickAtLogin : c.kickAtLogin = 0
  online_lt : i.online < host.config.maxPlayerCount
  protocolVersion : c.networkInfo.protocolVersion = latestProtocol
  playerName : ∃ name rest, readString i.packet.data = .ok (name, rest) ∧ name.length ≤ 16

/-- The encrypted secret and the encrypted token of a response. -/
def Response (i : Input) (secret token : Bytes) : Prop :=
  ∃ rest, readResponse i.packet.data = .ok ((secret, token), rest)

theorem Response.unique {i : Input} {secret token secret' token' : Bytes}
    (h : Response i secret token) (h' : Response i secret' token') :
    secret = secret' ∧ token = token' := by
  rcases h with ⟨rest, h⟩
  rcases h' with ⟨rest', h'⟩
  exact Prod.mk.inj (Prod.mk.inj (Except.ok.inj (h.symm.trans h'))).1

/-- An Encryption Response with the verify token of the connection. -/
def Passed (host : Host) (c : ZincConnection) (i : Input) : Prop :=
  EncryptionResponse c i ∧ ∃ secret token, Response i secret token ∧
    RSAWrapper.decrypt host token = c.networkInfo.verifyToken

/-- The session server knows the player of a response. -/
def LookedUp (host : Host) (c : ZincConnection) (i : Input) : Prop :=
  ∃ secret token, Response i secret token ∧ (lookup (i.moment.session c.playerInfo.playerName
    (RSAWrapper.decrypt host secret)) c.playerInfo).2 = true

/-- The shared secret of a response has 16 bytes. -/
def SecretFits (host : Host) (i : Input) : Prop :=
  ∃ secret token, Response i secret token ∧ (RSAWrapper.decrypt host secret).length = 16

/-- The ban that is found is not over. -/
def Banned (host : Host) (c : ZincConnection) (i : Input) : Prop :=
  ∃ ban, matchedBan host i.moment c = some ban ∧ ban.active i.moment.now = true

/-! ### Effects -/

/-- The views that the handler of a packet can leave behind. -/
inductive Effect (host : Host) (c : ZincConnection) (i : Input) : View → Prop
  | sends (ids : List (BitVec 32)) (hlogin : c.state = .login → ids = [] ∨ ids = [0])
      (hconfig : c.state = .config → ids = [] ∨ ids = [1] ∨ ids = [2])
      (haccepted : ¬ Accepted host c i) (hpassed : ¬ Passed host c i) :
      Effect host c i (c.view.send ids)
  | handshake (state : State) (hstate : c.state = .handshake)
      (hnew : state = .status ∨ state = .login ∨ state = .transfer) :
      Effect host c i { c.view with state }
  | accepted (ids : List (BitVec 32)) (h : Accepted host c i) (hids : ids = [1] ∨ ids = [3, 1]) :
      Effect host c i { c.view.send ids with verifyToken := i.moment.randomBytes 64 }
  | passed (keyed : Bool) (h : Passed host c i)
      (hlookup : host.config.onlineMode = true → LookedUp host c i)
      (hkeyed : c.view.keyed = true ∨ SecretFits host i → keyed = true) :
      Effect host c i { c.view.send [2] with verifyToken := [], isEncrypted := true, keyed }
  | unverified (keyed : Bool) (h : Passed host c i)
      (hkeyed : c.view.keyed = true ∨ SecretFits host i → keyed = true) :
      Effect host c i { c.view.send [0] with verifyToken := [], isEncrypted := true, keyed }
  | loginAck (h : LoginAck c i) : Effect host c i { c.view with state := .config }
  | configured (registries : ℕ) (h : ConfigInfo c i) (hban : ¬ Banned host c i) :
      Effect host c i { c.view.send (6 :: 4 :: 5 :: 12 :: (List.replicate registries 7 ++ [2])) with
        verifyToken := i.moment.randomBytes 4 }
  | banned (h : ConfigInfo c i) (hban : Banned host c i) : Effect host c i (c.view.send [2])
  | configAck (h : ConfigAck c i) : Effect host c i { c.view with state := .play }

/-- Packets are appended to the output, and if a key and a register are there when
they have to, the packets are whole. -/
def Grows (host : Host) (c c' : ZincConnection) : Prop :=
  ∃ new, c'.output = c.output ++ new ∧
    ((c'.isEncrypted = true → c'.encrypt.ready = true) → ∀ sent ∈ new, sent.Whole host)

theorem Sends.grows (h : Sends host ids c c') (houtput : c.output = c''.output) :
    Grows host c'' c' := by
  rcases h with ⟨encrypt, new, rfl, hrolls, -, hwhole⟩
  refine ⟨new, by rw [← houtput], ?_⟩
  intro hready
  exact hwhole fun henc => hrolls.ready_eq.symm.trans (hready henc)

theorem Grows.refl (c : ZincConnection) : Grows host c c := (Sends.refl c).grows rfl

/-- What holds of the connection behind a handler. -/
def Handles (host : Host) (c : ZincConnection) (i : Input) (c' : ZincConnection) : Prop :=
  Effect host c i c'.view ∧ Grows host c c'

variable {i : Input} {handled : Handled}

theorem done_eq_ok {x : Except Fault ZincConnection} (h : done x = .ok handled) :
    x = .ok handled.connection := by
  rcases bind_eq_ok.mp h with ⟨c, rfl, h⟩
  rw [← Except.ok.inj h]

theorem leave_eq_ok {x : Except Fault ZincConnection} (h : leave x = .ok handled) :
    x = .ok handled.connection := by
  rcases bind_eq_ok.mp h with ⟨c, rfl, h⟩
  rw [← Except.ok.inj h]

/-- A handler that only sends messages. -/
theorem Sends.handles (h : Sends host ids c c') (hlogin : c.state = .login → ids = [] ∨ ids = [0])
    (hconfig : c.state = .config → ids = [] ∨ ids = [1] ∨ ids = [2])
    (haccepted : ¬ Accepted host c i) (hpassed : ¬ Passed host c i) : Handles host c i c' := by
  refine ⟨?_, h.grows rfl⟩
  rw [h.view_eq]
  exact .sends ids hlogin hconfig haccepted hpassed

theorem not_accepted_of_id (h : i.packet.id ≠ 0) : ¬ Accepted host c i :=
  fun haccepted => h haccepted.loginStart.2

theorem not_passed_of_id (h : i.packet.id ≠ 1) : ¬ Passed host c i := fun hpassed => h hpassed.1.2

theorem not_accepted_of_state (h : c.state ≠ .login) : ¬ Accepted host c i :=
  fun haccepted => h haccepted.loginStart.1

theorem not_passed_of_state (h : c.state ≠ .login) : ¬ Passed host c i :=
  fun hpassed => h hpassed.1.1

/-! ### Login -/

/-- A login error with the connection otherwise as it was, up to the player's data. -/
theorem loginError_handles {message : String} {playerInfo : PlayerInfo} (hstate : c.state = .login)
    (haccepted : ¬ Accepted host c i) (hpassed : ¬ Passed host c i)
    (h : sendLoginError host message { c with playerInfo } = .ok c') : Handles host c i c' := by
  have hsends := sendLoginError_eq_ok h
  have hids : disconnectIds c.state = [0] := by rw [hstate]; rfl
  refine ⟨?_, hsends.grows rfl⟩
  rw [hsends.view_eq]
  exact .sends (disconnectIds c.state) (fun _ => .inr hids)
    (fun hconfig => by rw [hstate] at hconfig; cases hconfig) haccepted hpassed

/-- The request for an encryption response. -/
theorem encryptionRequest_handles {playerInfo : PlayerInfo} (ha : Accepted host c i)
    (h : sendEncryptionRequest host i.moment { c with playerInfo } = .ok c') :
    Handles host c i c' := by
  have hsends := post_eq_ok h
  refine ⟨?_, hsends.grows rfl⟩
  rw [hsends.view_eq]
  exact .accepted [1] ha (.inl rfl)

/-- The same behind the packet that sets up compression. -/
theorem compressedRequest_handles {playerInfo : PlayerInfo} {c₁ : ZincConnection}
    (ha : Accepted host c i) (hcompress : setupCompression host { c with playerInfo } = .ok c₁)
    (h : sendEncryptionRequest host i.moment c₁ = .ok c') : Handles host c i c' := by
  unfold setupCompression at hcompress
  rw [if_neg (not_not.mpr ha.loginStart.1)] at hcompress
  rcases bind_eq_ok.mp hcompress with ⟨c₂, hpost, hcompress⟩
  obtain rfl := Except.ok.inj hcompress
  rcases post_eq_ok hpost with ⟨encrypt, new, rfl, hrolls, hkeys, hwhole⟩
  have hsends : Sends host ([3] ++ [1]) { c with
      playerInfo := playerInfo
      isCompressed := true
      networkInfo := { c.networkInfo with verifyToken := i.moment.randomBytes 64 } } c' :=
    Sends.trans ⟨encrypt, new, rfl, hrolls, hkeys, hwhole⟩ (post_eq_ok h)
  refine ⟨?_, hsends.grows rfl⟩
  rw [hsends.view_eq]
  exact .accepted [3, 1] ha (.inr rfl)

theorem eq_of_not_slt {w : ℕ} {x y : BitVec w} (h : ¬ x.slt y) (h' : ¬ y.slt x) : x = y := by
  rw [BitVec.slt_iff_toInt_lt] at h h'
  exact BitVec.eq_of_toInt_eq (by omega)

theorem loginStart_handles (hi : LoginStart c i)
    (h : loginStart host i.moment i.online i.packet.data c = .ok handled) :
    Handles host c i handled.connection := by
  have hpassed : ¬ Passed host c i := not_passed_of_id (by rw [hi.2]; decide)
  unfold loginStart at h
  split at h
  next hkick =>
    exact loginError_handles hi.1 (fun ha => hkick ha.kickAtLogin) hpassed (leave_eq_ok h)
  next hkick =>
  split at h
  next hfull =>
    exact loginError_handles hi.1 (fun ha => not_le.mpr ha.online_lt hfull) hpassed (leave_eq_ok h)
  next hfull =>
  split at h
  next hold =>
    exact loginError_handles hi.1 (fun ha => by rw [ha.protocolVersion] at hold; cases hold) hpassed
      (done_eq_ok h)
  next hold =>
  split at h
  next hnew =>
    exact loginError_handles hi.1 (fun ha => by rw [ha.protocolVersion] at hnew; cases hnew) hpassed
      (done_eq_ok h)
  next hnew =>
  rcases bind_eq_ok.mp h with ⟨⟨name, data⟩, hname, h⟩
  rcases bind_eq_ok.mp h with ⟨⟨uuid, data'⟩, -, h⟩
  simp only at h
  split at h
  next hlong =>
    refine loginError_handles hi.1 ?_ hpassed (done_eq_ok h)
    rintro ⟨-, -, -, -, name', rest, hname', hle⟩
    obtain ⟨rfl, -⟩ := Prod.mk.inj (Except.ok.inj (hname.symm.trans hname'))
    omega
  next hlong =>
  have ha : Accepted host c i := ⟨hi, not_not.mp hkick, not_le.mp hfull,
    eq_of_not_slt hold hnew, name, data, hname, not_lt.mp hlong⟩
  split at h
  next =>
    rcases bind_eq_ok.mp h with ⟨c₁, hcompress, h⟩
    exact compressedRequest_handles ha hcompress (done_eq_ok h)
  next => exact encryptionRequest_handles ha (done_eq_ok h)

theorem setupEncryption_keyed {secret : Bytes}
    (h : c.view.keyed = true ∨ secret.length = 16) : (c.setupEncryption secret).view.keyed = true := by
  have hready : ∀ aes : AESWrapper, aes.ready = true ∨ secret.length = 16 →
      ((aes.setKey secret).setIV secret).ready = true := by
    intro aes haes
    unfold AESWrapper.setKey AESWrapper.setIV AESWrapper.ready at *
    rcases haes with hready | hsecret
    · split <;> split <;> simp_all
    · simp [hsecret]
  simp only [ZincConnection.view, Bool.and_eq_true] at h ⊢
  exact ⟨hready _ (h.imp_left And.left), hready _ (h.imp_left And.right)⟩

/-- A response with the right token, up to the player's data. -/
theorem passed_handles {secret : Bytes} {playerInfo : PlayerInfo} {c₁ : ZincConnection}
    (hp : Passed host c i) (hlookup : host.config.onlineMode = true → LookedUp host c i)
    (hkeyed : c.view.keyed = true ∨ SecretFits host i →
      (c.setupEncryption secret).view.keyed = true)
    (hc₁ : c₁ = { c.setupEncryption secret with
      networkInfo := { c.networkInfo with verifyToken := [] }, playerInfo := playerInfo })
    (h : (do
      let connection ← sendInitial host i.moment .login c₁
      done (sendLoginSuccess host connection)) = .ok handled) :
    Handles host c i handled.connection := by
  rw [sendInitial_eq, ok_bind] at h
  have hsends := post_eq_ok (done_eq_ok h)
  rw [hc₁] at hsends
  refine ⟨?_, hsends.grows rfl⟩
  rw [hsends.view_eq]
  exact .passed _ hp hlookup hkeyed

/-- The same when the session server does not know the player. -/
theorem unverified_handles {secret : Bytes} {playerInfo : PlayerInfo} {message : String}
    {c₁ : ZincConnection} (hp : Passed host c i)
    (hkeyed : c.view.keyed = true ∨ SecretFits host i →
      (c.setupEncryption secret).view.keyed = true)
    (hc₁ : c₁ = { c.setupEncryption secret with
      networkInfo := { c.networkInfo with verifyToken := [] }, playerInfo := playerInfo })
    (h : leave (sendLoginError host message c₁) = .ok handled) :
    Handles host c i handled.connection := by
  have hsends := sendLoginError_eq_ok (leave_eq_ok h)
  have hids : disconnectIds c₁.state = [0] := by
    rw [hc₁]
    exact congrArg disconnectIds hp.1.1
  rw [hids, hc₁] at hsends
  refine ⟨?_, hsends.grows rfl⟩
  rw [hsends.view_eq]
  exact .unverified _ hp hkeyed

theorem encryptionResponse_handles (hi : EncryptionResponse c i)
    (h : encryptionResponse host i.moment i.packet.data c = .ok handled) :
    Handles host c i handled.connection := by
  have haccepted : ¬ Accepted host c i := not_accepted_of_id (by rw [hi.2]; decide)
  unfold encryptionResponse at h
  rcases bind_eq_ok.mp h with ⟨⟨⟨secret, token⟩, rest⟩, hread, h⟩
  have hresponse : Response i secret token := ⟨rest, hread⟩
  simp only at h
  split at h
  next htoken =>
    have hp : Passed host c i := ⟨hi, secret, token, hresponse, htoken⟩
    have hkeyed : c.view.keyed = true ∨ SecretFits host i →
        (c.setupEncryption (RSAWrapper.decrypt host secret)).view.keyed = true := by
      rintro (hkeyed | ⟨secret', token', hresponse', hfits⟩)
      · exact setupEncryption_keyed (.inl hkeyed)
      · rw [(hresponse.unique hresponse').1]
        exact setupEncryption_keyed (.inr hfits)
    split at h
    next honline =>
      split at h
      next hgot =>
        exact passed_handles hp (fun _ => ⟨secret, token, hresponse, hgot⟩) hkeyed rfl h
      next => exact unverified_handles hp hkeyed rfl h
    next hoffline =>
      exact passed_handles hp (fun honline => absurd honline hoffline) hkeyed rfl h
  next htoken =>
    refine loginError_handles hi.1 haccepted ?_ (done_eq_ok h)
    rintro ⟨-, secret', token', hresponse', htoken'⟩
    obtain ⟨rfl, rfl⟩ := hresponse.unique hresponse'
    exact htoken htoken'

theorem loginPluginResponse_handles (hstate : c.state = .login) (hid : i.packet.id = 2)
    (h : loginPluginResponse host i.moment i.packet.data c = .ok c') : Handles host c i c' := by
  have haccepted : ¬ Accepted host c i := not_accepted_of_id (by rw [hid]; decide)
  have hpassed : ¬ Passed host c i := not_passed_of_id (by rw [hid]; decide)
  unfold loginPluginResponse at h
  rcases bind_eq_ok.mp h with ⟨⟨id, data⟩, -, h⟩
  simp only at h
  split at h
  next =>
    rcases bind_eq_ok.mp h with ⟨c₁, hcall, h⟩
    have hsends := callPluginChannel_eq_ok hcall
    rw [hstate] at hsends
    have hhandles : Handles host c i c₁ := hsends.handles (fun _ => .inr rfl)
      (fun hconfig => by rw [hstate] at hconfig; cases hconfig) haccepted hpassed
    -- closing the channel changes nothing that is looked at
    rw [← Except.ok.inj h]
    exact hhandles
  next => exact loginError_handles hstate haccepted hpassed h

theorem switchLogin_handles (hstate : c.state = .login)
    (h : switchLogin host i.moment i.online i.packet c = .ok handled) :
    Handles host c i handled.connection := by
  unfold switchLogin at h
  split at h
  next h0 => exact loginStart_handles ⟨hstate, h0⟩ h
  next h0 =>
  have haccepted : ¬ Accepted host c i := not_accepted_of_id h0
  split at h
  next h1 => exact encryptionResponse_handles ⟨hstate, h1⟩ h
  next h1 =>
  have hpassed : ¬ Passed host c i := not_passed_of_id h1
  split at h
  next h2 => exact loginPluginResponse_handles hstate h2 (done_eq_ok h)
  next =>
  split at h
  next h3 =>
    rw [← Except.ok.inj (done_eq_ok h)]
    exact ⟨.loginAck ⟨hstate, h3⟩, Grows.refl c⟩
  next =>
  split at h
  next => exact absurd (done_eq_ok h) cookieResponse_ne_ok
  next =>
    rw [← Except.ok.inj (done_eq_ok h)]
    exact (Sends.refl c).handles (fun _ => .inl rfl) (fun _ => .inl rfl) haccepted hpassed

/-! ### Config -/

theorem sendConfiguration_eq_ok {moment : Moment} (hstate : c.state = .config)
    (h : sendConfiguration host moment c = .ok c') :
    Sends host (6 :: 4 :: 5 :: 12 :: (List.replicate host.registries.length 7 ++ [2]))
      { c with networkInfo := { c.networkInfo with
          lastKeepAlive := BitVec.ofInt 64 moment.now
          verifyToken := moment.randomBytes 4 } } c' := by
  unfold sendConfiguration at h
  rcases bind_eq_ok.mp h with ⟨c₁, h₁, h⟩
  rcases bind_eq_ok.mp h with ⟨c₂, h₂, h⟩
  rcases bind_eq_ok.mp h with ⟨c₃, h₃, h⟩
  rcases bind_eq_ok.mp h with ⟨c₄, h₄, h⟩
  rw [sendInitial_eq, ok_bind] at h
  rcases bind_eq_ok.mp h with ⟨c₅, h₅, h₆⟩
  clear h
  rcases post_eq_ok h₁ with ⟨encrypt, new, rfl, hrest⟩
  have hfirst : Sends host [6] { c with networkInfo := { c.networkInfo with
      lastKeepAlive := BitVec.ofInt 64 moment.now, verifyToken := moment.randomBytes 4 } } _ :=
    ⟨encrypt, new, rfl, hrest⟩
  have hsends := (((hfirst.trans (post_eq_ok h₂)).trans (post_eq_ok h₃)).trans (post_eq_ok h₄)).trans
    (foldlM_post_eq_ok _ h₅)
  have hids : disconnectIds c₅.state = [2] := by
    rw [hsends.state_eq]
    exact congrArg disconnectIds hstate
  have hlast := sendDisconnect_eq_ok h₆
  rw [hids] at hlast
  exact hsends.trans hlast

theorem checkBan_eq_ok {turnedAway : Bool} (h : checkBan host i.moment c = .ok (turnedAway, c')) :
    (turnedAway = true ↔ Banned host c i) ∧
      Sends host (if turnedAway then disconnectIds c.state else []) c c' := by
  unfold checkBan at h
  unfold Banned
  split at h
  next ban hmatched =>
    rcases sendBanMessage_eq_ok h with ⟨rfl, hsends⟩
    refine ⟨⟨fun hactive => ⟨ban, hmatched, hactive⟩, ?_⟩, hsends⟩
    rintro ⟨ban', hmatched', hactive⟩
    rwa [Option.some.inj (hmatched.symm.trans hmatched')]
  next hmatched =>
    obtain ⟨rfl, rfl⟩ := Prod.mk.inj (Except.ok.inj h)
    refine ⟨⟨fun hfalse => absurd hfalse Bool.false_ne_true, ?_⟩, Sends.refl c⟩
    rintro ⟨ban', hmatched', -⟩
    rw [hmatched] at hmatched'
    cases hmatched'

/-- Nothing but the ban message was sent by the ban check. -/
theorem checkBan_eq_false (h : checkBan host i.moment c = .ok (false, c')) : c' = c := by
  unfold checkBan at h
  split at h
  next ban hmatched =>
    unfold sendBanMessage at h
    rcases bind_eq_ok.mp h with ⟨timePassed, -, h⟩
    split at h
    next => exact (Prod.mk.inj (Except.ok.inj h)).2.symm
    next =>
      rcases bind_eq_ok.mp h with ⟨c₁, -, h⟩
      cases (Prod.mk.inj (Except.ok.inj h)).1
  next => exact (Prod.mk.inj (Except.ok.inj h)).2.symm

theorem configInfo_handles (hi : ConfigInfo c i)
    (h : configInfo host i.moment i.packet.data c = .ok handled) :
    Handles host c i handled.connection := by
  unfold configInfo at h
  rcases bind_eq_ok.mp h with ⟨⟨turnedAway, c₁⟩, hban, h⟩
  rcases checkBan_eq_ok hban with ⟨hbanned, hsends⟩
  simp only at h
  split at h
  next haway =>
    have hids : disconnectIds c.state = [2] := by rw [hi.1]; rfl
    rw [if_pos haway, hids] at hsends
    rw [← Except.ok.inj (leave_eq_ok h)]
    refine ⟨?_, hsends.grows rfl⟩
    rw [hsends.view_eq]
    exact .banned hi (hbanned.mp haway)
  next haway =>
    have hpass : ¬ Banned host c i := fun hb => haway (hbanned.mpr hb)
    rw [Bool.eq_false_iff.mpr haway] at hban
    rcases bind_eq_ok.mp h with ⟨⟨settingsInfo, data⟩, -, hsend⟩
    rw [checkBan_eq_false hban] at hsend
    have hsends := @sendConfiguration_eq_ok host { c with settingsInfo } _ _ hi.1 (done_eq_ok hsend)
    refine ⟨?_, hsends.grows rfl⟩
    rw [hsends.view_eq]
    exact .configured host.registries.length hi hpass

/-- A handler that changes nothing that is looked at. -/
theorem idle_handles (hlogin : c.state ≠ .login) : Handles host c i c :=
  (Sends.refl c).handles (fun _ => .inl rfl) (fun _ => .inl rfl) (not_accepted_of_state hlogin)
    (not_passed_of_state hlogin)

theorem switchConfig_handles (hstate : c.state = .config)
    (h : switchConfig host i.moment i.packet c = .ok handled) :
    Handles host c i handled.connection := by
  have hlogin : c.state ≠ .login := by rw [hstate]; decide
  have herror : ∀ {ids}, Sends host ids c handled.connection → ids = [] ∨ ids = [1] ∨ ids = [2] →
      Handles host c i handled.connection := fun hsends hids =>
    hsends.handles (fun h => absurd h hlogin) (fun _ => hids) (not_accepted_of_state hlogin)
      (not_passed_of_state hlogin)
  unfold switchConfig at h
  split at h
  next h0 => exact configInfo_handles ⟨hstate, h0⟩ h
  next =>
  split at h
  next => exact absurd (done_eq_ok h) cookieResponse_ne_ok
  next =>
  split at h
  next =>
    rcases bind_eq_ok.mp (done_eq_ok h) with ⟨⟨channel, data⟩, -, h⟩
    have hsends := callPluginChannel_eq_ok h
    rw [hstate] at hsends
    exact herror hsends (.inr (.inl rfl))
  next =>
  split at h
  next h3 =>
    rw [← Except.ok.inj (done_eq_ok h)]
    exact ⟨.configAck ⟨hstate, h3⟩, Grows.refl c⟩
  next =>
  -- a keep alive and a pong are answered only when they are wrong
  have hcheck : ∀ {P : Prop} [Decidable P] {message : String} {c' : ZincConnection},
      (if P then sendLoginError host message c else .ok c') = .ok handled.connection →
        Handles host c i c' → Handles host c i handled.connection := by
    intro P _ message c' hsend hidle
    split at hsend
    next =>
      have hsends := sendLoginError_eq_ok hsend
      rw [hstate] at hsends
      exact herror hsends (.inr (.inr rfl))
    next =>
      rwa [← Except.ok.inj hsend]
  split at h
  next =>
    rcases bind_eq_ok.mp (done_eq_ok h) with ⟨⟨id, data⟩, -, h⟩
    exact hcheck h (idle_handles hlogin)
  next =>
  split at h
  next =>
    rcases bind_eq_ok.mp (done_eq_ok h) with ⟨⟨ping, data⟩, -, h⟩
    exact hcheck h (idle_handles hlogin)
  next =>
    rw [← Except.ok.inj (done_eq_ok h)]
    exact idle_handles hlogin

/-! ### All packets -/

theorem handshakeState_cases (value : BitVec 32) : handshakeState value = .status ∨
    handshakeState value = .login ∨ handshakeState value = .transfer := by
  unfold handshakeState
  split
  · exact .inr (.inl rfl)
  · split
    · exact .inr (.inr rfl)
    · exact .inl rfl

theorem handshake_handles (hstate : c.state = .handshake) {data : ByteBuffer}
    (h : handshake data c = .ok c') : Handles host c i c' := by
  unfold handshake at h
  rcases bind_eq_ok.mp h with ⟨⟨protocolVersion, data₁⟩, -, h⟩
  rcases bind_eq_ok.mp h with ⟨⟨serverAddr, data₂⟩, -, h⟩
  rcases bind_eq_ok.mp h with ⟨⟨serverPort, data₃⟩, -, h⟩
  rcases bind_eq_ok.mp h with ⟨⟨state, data₄⟩, -, h⟩
  rw [← Except.ok.inj h]
  exact ⟨.handshake _ hstate (handshakeState_cases state), [], by simp, by simp⟩

theorem status_handles (hstate : c.state = .status) {online : ℤ} {packet : ZincPacket}
    (h : status host online packet c = .ok c') : Handles host c i c' := by
  have hlogin : c.state ≠ .login := by rw [hstate]; decide
  have hconfig : c.state ≠ .config := by rw [hstate]; decide
  have hhandles : ∀ {ids}, Sends host ids c c' → Handles host c i c' := fun hsends =>
    hsends.handles (fun h => absurd h hlogin) (fun h => absurd h hconfig)
      (not_accepted_of_state hlogin) (not_passed_of_state hlogin)
  unfold status at h
  split at h
  next => exact hhandles (Sends.of_send h)
  next => exact hhandles (post_eq_ok h)

theorem switch_handles (h : switch host i.moment i.online i.packet c = .ok handled) :
    Handles host c i handled.connection := by
  unfold switch at h
  split at h
  next hstate =>
    split at h
    next => exact handshake_handles hstate (done_eq_ok h)
    next =>
      rw [← Except.ok.inj (done_eq_ok h)]
      exact idle_handles (by rw [hstate]; decide)
  next hstate => exact status_handles hstate (done_eq_ok h)
  next hstate => exact switchLogin_handles hstate h
  next hstate => exact switchConfig_handles hstate h
  next hstate =>
    rw [← Except.ok.inj (done_eq_ok h)]
    exact idle_handles (by rw [hstate]; decide)
  next hstate =>
    rw [← Except.ok.inj (done_eq_ok h)]
    exact idle_handles (by rw [hstate]; decide)

end Zinc.Network
