import Zinc.Network.Session

/-! Runs of the whole server: clients come, send packets and go in any order, and
every packet finds the number of online players at that moment. A call of
`onRead` is a run of such steps, and what one client sees of a run is a run of
its connection. The player limit is looked at by Login Start only, but it is
Login Ack that counts a player. -/

namespace Zinc.Network

open Throw Throw.Traced History Buffer Buffer.ByteBuffer ZincConnection

variable {host : Host} {c c₀ c' : ZincConnection} {i : Input}

/-! ### Steps of the server -/

namespace ZincServer

/-- Another connection at a socket. -/
def setClient (fd : ℕ) (client : ZincConnection) (server : ZincServer) : ZincServer :=
  { server with clients := Function.update server.clients fd (some client) }

/-- The server behind a packet of the client at a socket. -/
def handled (fd : ℕ) (packet : ZincPacket) (client client' : ZincConnection) (server : ZincServer) :
    ZincServer :=
  { server.setClient fd client' with
    onlinePlayers := onlineAfter packet client server.onlinePlayers }

variable {fd fd' : ℕ} {packet : ZincPacket} {client client' : ZincConnection} {server : ZincServer}

@[simp] theorem clients_setClient :
    (server.setClient fd client).clients = Function.update server.clients fd (some client) := rfl

theorem clients_setClient_self (server : ZincServer) (fd : ℕ) (client : ZincConnection) :
    (server.setClient fd client).clients fd = some client := by simp

@[simp] theorem onlinePlayers_setClient :
    (server.setClient fd client).onlinePlayers = server.onlinePlayers := rfl

@[simp] theorem clients_handled : (server.handled fd packet client client').clients =
    Function.update server.clients fd (some client') := rfl

@[simp] theorem onlinePlayers_handled : (server.handled fd packet client client').onlinePlayers =
    onlineAfter packet client server.onlinePlayers := rfl

@[simp] theorem setClient_setClient :
    (server.setClient fd client).setClient fd client' = server.setClient fd client' := by
  simp [setClient]

end ZincServer

/-- What the server can be told: a connection was accepted, bytes of a client came
in, a packet of a client is complete, or a socket reports an event. -/
inductive ServerInput where
  | accept (now refreshed : ℤ) (fd : ℕ) (ip : Bytes) (networkInfo : NetworkInfo)
      (settingsInfo : SettingsInfo)
  | bytes (fd : ℕ)
  | packet (fd : ℕ) (input : Input)
  | event (fd : ℕ) (isEOF isError isTimeout : Bool)

inductive ServerStep (host : Host) : ZincServer → ServerInput → ZincServer → Prop
  | accept {server : ZincServer} (now refreshed : ℤ) (fd : ℕ) (ip : Bytes)
      (networkInfo : NetworkInfo) (settingsInfo : SettingsInfo) :
      ServerStep host server (.accept now refreshed fd ip networkInfo settingsInfo)
        (server.onAccept host.config now refreshed fd ip networkInfo settingsInfo)
  | bytes {server : ZincServer} {fd : ℕ} {c c' : ZincConnection} (hclient : server.clients fd = some c)
      (h : Received c c') : ServerStep host server (.bytes fd) (server.setClient fd c')
  | packet {server : ZincServer} {fd : ℕ} {c c' : ZincConnection} {i : Input}
      (hclient : server.clients fd = some c) (honline : i.online = server.onlinePlayers)
      (h : Step host c i c') :
      ServerStep host server (.packet fd i) (server.handled fd i.packet c c')
  | event {server : ZincServer} (fd : ℕ) (isEOF isError isTimeout : Bool) :
      ServerStep host server (.event fd isEOF isError isTimeout)
        (server.onEvent fd isEOF isError isTimeout)

/-- The histories of a server. -/
abbrev ServerRun (host : Host) : Past ZincServer ServerInput → ZincServer → Prop :=
  Run (· = .new) (ServerStep host)

variable {past : Past ZincServer ServerInput} {server : ZincServer} {fd : ℕ}

/-! ### `onRead` -/

theorem receive_received {libs : Libraries} {buffer : ByteBuffer}
    (h : c.receive libs = .ok (buffer, c')) : Received c c' := by
  rw [receive] at h
  rcases bind_eq_ok.mp h with ⟨tmpBuffer, -, h⟩
  split at h
  · rcases bind_eq_ok.mp h with ⟨x, -, h⟩
    rcases bind_eq_ok.mp h with ⟨⟨data, decrypt⟩, hdecrypt, h⟩
    rcases bind_eq_ok.mp h with ⟨y, -, h⟩
    cases h
    exact ⟨c.input, decrypt, c.shouldContinue, AESWrapper.decryptCFB8_rolls hdecrypt, rfl⟩
  · rcases bind_eq_ok.mp h with ⟨y, -, h⟩
    cases h
    exact Received.refl c

theorem read_received {libs : Libraries} {packet : ZincPacket}
    (h : (c.read libs).result = .ok (packet, c')) : Received c c' := by
  unfold ZincConnection.read at h
  simp only [result_bind, result_lift] at h
  rcases bind_eq_ok.mp h with ⟨⟨buffer, c₀⟩, hreceive, h⟩
  rcases bind_eq_ok.mp h with ⟨⟨value, rest⟩, -, h⟩
  apply (receive_received hreceive).trans
  dsimp only at h
  split at h
  · cases h
    exact Received.refl c'
  · simp only [result_bind, result_lift] at h
    rcases bind_eq_ok.mp h with ⟨x, -, h⟩
    rcases bind_eq_ok.mp h with ⟨y, -, h⟩
    rcases bind_eq_ok.mp h with ⟨z, -, h⟩
    cases h
    exact ⟨_, c₀.decrypt, false, AESWrapper.Rolls.refl _, rfl⟩

theorem onlineAfter_of_received (h : Received c c₀) (packet : ZincPacket) (online : ℤ) :
    onlineAfter packet c₀ online = onlineAfter packet c online := by
  rcases h with ⟨input, decrypt, shouldContinue, -, rfl⟩
  rfl

theorem Received.continues (c : ZincConnection) (shouldContinue : Bool) :
    Received c { c with shouldContinue } :=
  ⟨c.input, c.decrypt, shouldContinue, AESWrapper.Rolls.refl _, rfl⟩

/-- A call of `onRead` is a run of steps for its client. -/
theorem ServerRun.onRead {moments : ℕ → Moment} {n : ℕ} {online : ℤ} (h : ServerRun host past server)
    (hclient : server.clients fd = some c)
    (hread : onRead host moments n server.onlinePlayers c = .ok (c', online)) :
    ∃ later, ServerRun host (past ++ later)
      { server.setClient fd c' with onlinePlayers := online } := by
  induction n generalizing c c' past server online with
  | zero => cases hread
  | succ n ih =>
    rw [Network.onRead] at hread
    rcases bind_eq_ok.mp hread with ⟨⟨packet, c₁⟩, hpacket, hread⟩
    have hreceived := read_received hpacket
    dsimp only at hread
    split at hread
    · cases hread
      exact ⟨_, h.next (.bytes hclient hreceived)⟩
    next hid =>
    rcases bind_eq_ok.mp hread with ⟨handled, hswitch, hread⟩
    let i : Input := ⟨moments n, server.onlinePlayers, packet⟩
    have hstep : Step host c i handled.connection :=
      ⟨by simpa using hid, c₁, handled, hreceived, hswitch, rfl⟩
    have hrun := h.next (.packet hclient rfl hstep)
    have honline : onlineAfter packet c₁ server.onlinePlayers =
        (server.handled fd packet c handled.connection).onlinePlayers :=
      onlineAfter_of_received hreceived packet _
    have hhandled : (server.handled fd packet c handled.connection).clients fd =
        some handled.connection := by simp
    rw [honline] at hread
    split at hread
    · cases hread
      exact ⟨_, hrun⟩
    rcases bind_eq_ok.mp hread with ⟨rest, -, hread⟩
    split at hread
    · rcases bind_eq_ok.mp hread with ⟨⟨c₂, online₂⟩, hrec, hread⟩
      cases hread
      rcases ih hrun hhandled hrec with ⟨later, hlater⟩
      have hlast := hlater.next (.bytes (ZincServer.clients_setClient_self _ fd c₂)
        (Received.continues c₂ true))
      rw [List.append_assoc, List.append_assoc] at hlast
      refine ⟨_, cast (congrArg _ ?_) hlast⟩
      simp [ZincServer.setClient, ZincServer.handled]
    · cases hread
      have hlast := hrun.next (.bytes hhandled (Received.continues handled.connection true))
      rw [List.append_assoc] at hlast
      refine ⟨_, cast (congrArg _ ?_) hlast⟩
      simp [ZincServer.setClient, ZincServer.handled, i]

/-! ### What one client sees -/

theorem Step.of_received (h : Received c c₀) (hstep : Step host c₀ i c') : Step host c i c' := by
  rcases hstep with ⟨hid, c₁, handled, hreceived, hswitch, heq⟩
  exact ⟨hid, c₁, handled, h.trans hreceived, hswitch, heq⟩

/-- The client that `onAccept` makes is the only one that changes. -/
theorem ZincServer.clients_onAccept {now refreshed : ℤ} {fd' : ℕ} {ip : Bytes}
    {networkInfo : NetworkInfo} {settingsInfo : SettingsInfo}
    (hclient : (server.onAccept host.config now refreshed fd' ip networkInfo
      settingsInfo).clients fd = some c) : server.clients fd = some c ∨ Accepts c := by
  unfold onAccept addClient at hclient
  split at hclient
  · exact .inl hclient
  dsimp only at hclient
  by_cases hfd : fd = fd'
  · rw [hfd, Function.update_self] at hclient
    cases hclient
    exact .inr ⟨ip, networkInfo, settingsInfo, _, rfl⟩
  · rw [Function.update_of_ne hfd] at hclient
    exact .inl hclient

theorem ZincServer.clients_onEvent {fd' : ℕ} {isEOF isError isTimeout : Bool}
    (hclient : (server.onEvent fd' isEOF isError isTimeout).clients fd = some c) :
    server.clients fd = some c := by
  unfold onEvent removeClient at hclient
  split at hclient
  · split at hclient
    · exact hclient
    dsimp only at hclient
    by_cases hfd : fd = fd'
    · rw [hfd, Function.update_self] at hclient
      cases hclient
    · rwa [Function.update_of_ne hfd] at hclient
  · exact hclient

theorem ZincServer.client_of_update {fd' : ℕ}
    (hclient : Function.update server.clients fd' (some c') fd = some c) :
    server.clients fd = some c ∨ fd = fd' ∧ c = c' := by
  by_cases hfd : fd = fd'
  · rw [hfd, Function.update_self] at hclient
    cases hclient
    exact .inr ⟨hfd, rfl⟩
  · rw [Function.update_of_ne hfd] at hclient
    exact .inl hclient

/-- What a step may do to the client at a socket. -/
theorem ServerStep.client {server' : ZincServer} {a : ServerInput} (h : ServerStep host server a server')
    (hclient : server'.clients fd = some c') :
    server.clients fd = some c' ∨ Accepts c' ∨
      ∃ c, server.clients fd = some c ∧ (Received c c' ∨ ∃ i, Step host c i c') := by
  cases h with
  | accept =>
    rcases ZincServer.clients_onAccept hclient with hold | haccepts
    · exact .inl hold
    · exact .inr (.inl haccepts)
  | bytes hold hreceived =>
    rcases ZincServer.client_of_update hclient with hsame | ⟨rfl, rfl⟩
    · exact .inl hsame
    · exact .inr (.inr ⟨_, hold, .inl hreceived⟩)
  | packet hold honline hstep =>
    rcases ZincServer.client_of_update hclient with hsame | ⟨rfl, rfl⟩
    · exact .inl hsame
    · exact .inr (.inr ⟨_, hold, .inr ⟨_, hstep⟩⟩)
  | event => exact .inl (ZincServer.clients_onEvent hclient)

/-- Every connection of the server is one that a run of it can reach. -/
theorem ServerRun.connectionRun (h : ServerRun host past server) (hclient : server.clients fd = some c) :
    ∃ past c₀, ConnectionRun host past c₀ ∧ Received c₀ c := by
  induction h generalizing fd c with
  | start h =>
    rw [h] at hclient
    cases hclient
  | next h hstep ih =>
    rcases hstep.client hclient with hsame | haccepts | ⟨c₁, hold, hreceived | ⟨i, hpacket⟩⟩
    · exact ih hsame
    · exact ⟨[], c, .start haccepts, Received.refl c⟩
    · rcases ih hold with ⟨past', c₀, hrun, h₀⟩
      exact ⟨past', c₀, hrun, h₀.trans hreceived⟩
    · rcases ih hold with ⟨past', c₀, hrun, h₀⟩
      exact ⟨_, c, hrun.next (hpacket.of_received h₀), Received.refl c⟩

/-! ### The player limit -/

/-- A Login Ack that is counted. -/
def Joins (server : ZincServer) : ServerInput → Prop
  | .packet fd i => ∃ c, server.clients fd = some c ∧ LoginAck c i
  | _ => False

theorem onlinePlayers_onAccept (now refreshed : ℤ) (fd : ℕ) (ip : Bytes)
    (networkInfo : NetworkInfo) (settingsInfo : SettingsInfo) :
    (server.onAccept host.config now refreshed fd ip networkInfo settingsInfo).onlinePlayers =
      server.onlinePlayers := by
  unfold ZincServer.onAccept ZincServer.addClient
  split <;> rfl

theorem onlinePlayers_onEvent_le (fd : ℕ) (isEOF isError isTimeout : Bool) :
    (server.onEvent fd isEOF isError isTimeout).onlinePlayers ≤ server.onlinePlayers := by
  unfold ZincServer.onEvent ZincServer.removeClient
  split
  · split
    · exact le_refl _
    · dsimp only
      split <;> omega
  · exact le_refl _

/-- Only a counted Login Ack raises the number of online players. -/
theorem ServerStep.onlinePlayers {server' : ZincServer} {a : ServerInput}
    (h : ServerStep host server a server') :
    Joins server a ∧ server'.onlinePlayers = server.onlinePlayers + 1 ∨
      ¬ Joins server a ∧ server'.onlinePlayers ≤ server.onlinePlayers := by
  cases h with
  | accept => exact .inr ⟨not_false, (onlinePlayers_onAccept _ _ _ _ _ _).le⟩
  | bytes => exact .inr ⟨not_false, le_refl _⟩
  | @packet _ c c' i hclient honline hstep =>
    rw [ZincServer.onlinePlayers_handled, onlineAfter]
    by_cases hack : LoginAck c i
    · exact .inl ⟨⟨c, hclient, hack⟩, if_pos hack⟩
    · refine .inr ⟨?_, (if_neg hack).le⟩
      rintro ⟨c₁, hclient₁, hack₁⟩
      rw [hclient] at hclient₁
      cases hclient₁
      exact hack hack₁
  | event => exact .inr ⟨not_false, onlinePlayers_onEvent_le _ _ _ _⟩

/-- The states of a run. -/
def visited (past : Past ZincServer ServerInput) (server : ZincServer) : List ZincServer :=
  past.map Prod.fst ++ [server]

/-- The limit holds in every state of a run exactly when every counted Login Ack
finds a free place. -/
theorem limited_iff (h : ServerRun host past server) (hlimit : 0 ≤ host.config.maxPlayerCount) :
    (∀ s ∈ visited past server, s.onlinePlayers ≤ host.config.maxPlayerCount) ↔
      ∀ x ∈ past, Joins x.1 x.2 → x.1.onlinePlayers < host.config.maxPlayerCount := by
  induction h with
  | start h => simp [visited, h, ZincServer.new, hlimit]
  | @next past server server' a h hstep ih =>
    have hstates : (∀ s ∈ visited (past ++ [(server, a)]) server',
        s.onlinePlayers ≤ host.config.maxPlayerCount) ↔
        (∀ s ∈ visited past server, s.onlinePlayers ≤ host.config.maxPlayerCount) ∧
          server'.onlinePlayers ≤ host.config.maxPlayerCount := by
      simp only [visited, List.map_append, List.map_cons, List.map_nil, List.forall_mem_append,
        List.forall_mem_singleton]
    rw [hstates, List.forall_mem_append, List.forall_mem_singleton, ← ih]
    apply and_congr_right
    intro hpast
    have hserver : server.onlinePlayers ≤ host.config.maxPlayerCount :=
      hpast server (List.mem_append_right _ (List.mem_singleton_self _))
    rcases hstep.onlinePlayers with ⟨hjoins, honline⟩ | ⟨hjoins, honline⟩
    · rw [honline, Int.add_one_le_iff]
      exact ⟨fun hlt _ => hlt, fun hlt => hlt hjoins⟩
    · exact ⟨fun _ hj => absurd hj hjoins, fun _ => honline.trans hserver⟩

/-! ### Two clients and one place -/

theorem ZincServer.handled_eq_setClient (h : ¬ LoginAck c i) :
    server.handled fd i.packet c c' = server.setClient fd c' := by
  have honline : onlineAfter i.packet c server.onlinePlayers = server.onlinePlayers := if_neg h
  rw [handled, honline]
  rfl

/-- A packet that is not a counted Login Ack. -/
theorem ServerRun.packet (h : ServerRun host past server) (hclient : server.clients fd = some c)
    (honline : i.online = server.onlinePlayers) (hstep : Step host c i c') (hack : ¬ LoginAck c i) :
    ServerRun host (past ++ [(server, .packet fd i)]) (server.setClient fd c') := by
  rw [← ZincServer.handled_eq_setClient hack]
  exact h.next (.packet hclient honline hstep)

/-- A client gets as far as Login Success when a place is free. -/
theorem ServerRun.ready (h : ServerRun host past server) (hhost : Simple host) (client : Client)
    (moment : Moment) (hplace : server.onlinePlayers < host.config.maxPlayerCount)
    (htoken : RSAWrapper.decrypt host client.verifyToken = moment.randomBytes 64)
    (hclient : server.clients fd = some c) (hc : Accepts c) (hkick : c.kickAtLogin = 0) :
    ∃ later c', ServerRun host (past ++ later) (server.setClient fd c') ∧
      At .login [] [(.login, 1), (.login, 2)] c' := by
  rcases handshake_step moment server.onlinePlayers hc hkick with ⟨c₁, h₁, hat₁⟩
  rcases loginStart_step hhost client moment hplace hat₁ with ⟨c₂, h₂, hat₂⟩
  rcases response_step hhost client moment server.onlinePlayers (by rwa [htoken]) with
    ⟨c₃, h₃, hat₃, -⟩
  have hrun₁ := h.packet hclient rfl h₁ fun hack => absurd (show (0 : BitVec 32) = 3 from hack.2) (by decide)
  have hrun₂ := hrun₁.packet (server.clients_setClient_self fd c₁) rfl h₂
    fun hack => absurd (show (0 : BitVec 32) = 3 from hack.2) (by decide)
  have hrun₃ := hrun₂.packet (ZincServer.clients_setClient_self _ fd c₂) rfl h₃
    fun hack => absurd (show (1 : BitVec 32) = 3 from hack.2) (by decide)
  rw [ZincServer.setClient_setClient, ZincServer.setClient_setClient, List.append_assoc,
    List.append_assoc] at hrun₃
  exact ⟨_, c₃, hrun₃, hat₃⟩

/-- Its Login Ack is counted. -/
theorem ServerRun.ack (h : ServerRun host past server) (moment : Moment) {verifyToken : Bytes}
    {sent : List (State × BitVec 32)} (hclient : server.clients fd = some c)
    (hat : At .login verifyToken sent c) :
    ∃ later c', ServerRun host (past ++ later)
      { server.setClient fd c' with onlinePlayers := server.onlinePlayers + 1 } := by
  rcases loginAck_step moment server.onlinePlayers hat with ⟨c', hstep, -⟩
  have hrun := h.next (.packet hclient rfl hstep)
  have honline : onlineAfter (Client.loginAck moment server.onlinePlayers).packet c
      server.onlinePlayers = server.onlinePlayers + 1 := if_pos ⟨hat.state_eq, rfl⟩
  rw [ZincServer.handled, honline] at hrun
  exact ⟨_, c', hrun⟩

/-- The sample server with one place. -/
def smallHost : Host :=
  { sampleHost with config := { sampleHost.config with maxPlayerCount := 1 } }

theorem simple_smallHost : Simple smallHost := ⟨rfl, by decide, by decide⟩

/-- Two clients of different addresses. -/
def twoClients : ZincServer :=
  (ZincServer.new.onAccept smallHost.config 0 0 0 [1] (waiting []).networkInfo
    (waiting []).settingsInfo).onAccept smallHost.config 0 0 1 [2] (waiting []).networkInfo
    (waiting []).settingsInfo

theorem twoClients_run : ∃ past, ServerRun smallHost past twoClients := by
  have hstart : ServerRun smallHost [] .new := .start rfl
  exact ⟨_, (hstart.next (.accept 0 0 0 [1] _ _)).next (.accept 0 0 1 [2] _ _)⟩

theorem twoClients_first : ∃ c, twoClients.clients 0 = some c ∧ Accepts c ∧ c.kickAtLogin = 0 :=
  ⟨_, rfl, ⟨[1], _, _, 0, rfl⟩, rfl⟩

theorem twoClients_second : ∃ c, twoClients.clients 1 = some c ∧ Accepts c ∧ c.kickAtLogin = 0 :=
  ⟨_, rfl, ⟨[2], _, _, 0, rfl⟩, rfl⟩

/-- Both clients are ready before either is counted. -/
theorem twoClients_ready : ∃ past c₁ c₂,
    ServerRun smallHost past ((twoClients.setClient 0 c₁).setClient 1 c₂) ∧
      At .login [] [(.login, 1), (.login, 2)] c₁ ∧ At .login [] [(.login, 1), (.login, 2)] c₂ := by
  rcases twoClients_run with ⟨past, hrun⟩
  rcases twoClients_first with ⟨c₁, hclient₁, haccepts₁, hkick₁⟩
  rcases twoClients_second with ⟨c₂, hclient₂, haccepts₂, hkick₂⟩
  rcases hrun.ready simple_smallHost sampleClient (sampleMoment []) Int.zero_lt_one rfl hclient₁ haccepts₁
    hkick₁ with ⟨later₁, c₁', hrun₁, hat₁⟩
  have hsecond : (twoClients.setClient 0 c₁').clients 1 = some c₂ := by
    rw [ZincServer.clients_setClient, Function.update_of_ne (by decide)]
    exact hclient₂
  rcases hrun₁.ready simple_smallHost sampleClient (sampleMoment []) Int.zero_lt_one rfl hsecond haccepts₂
    hkick₂ with ⟨later₂, c₂', hrun₂, hat₂⟩
  exact ⟨_, c₁', c₂', hrun₂, hat₁, hat₂⟩

/-- The first client alone keeps the limit. -/
theorem limited_sample : ∃ past server, ServerRun smallHost past server ∧ server.onlinePlayers = 1 ∧
    ((∀ s ∈ visited past server, s.onlinePlayers ≤ smallHost.config.maxPlayerCount) ↔
      ∀ x ∈ past, Joins x.1 x.2 → x.1.onlinePlayers < smallHost.config.maxPlayerCount) := by
  rcases twoClients_ready with ⟨past, c₁, c₂, hrun, hat₁, -⟩
  have hfirst : ((twoClients.setClient 0 c₁).setClient 1 c₂).clients 0 = some c₁ := by
    rw [ZincServer.clients_setClient, Function.update_of_ne (by decide), ZincServer.clients_setClient,
      Function.update_self]
  rcases hrun.ack (sampleMoment []) hfirst hat₁ with ⟨later, c, hrun'⟩
  exact ⟨_, _, hrun', rfl, limited_iff hrun' (by decide)⟩

/-- Both Login Acks are counted, although there is one place. -/
theorem not_limited : ¬ ∀ host past server, 0 ≤ host.config.maxPlayerCount →
    ServerRun host past server → server.onlinePlayers ≤ host.config.maxPlayerCount := by
  intro h
  rcases twoClients_ready with ⟨past, c₁, c₂, hrun, hat₁, hat₂⟩
  have hfirst : ((twoClients.setClient 0 c₁).setClient 1 c₂).clients 0 = some c₁ := by
    rw [ZincServer.clients_setClient, Function.update_of_ne (by decide), ZincServer.clients_setClient,
      Function.update_self]
  rcases hrun.ack (sampleMoment []) hfirst hat₁ with ⟨later, c, hrun'⟩
  have hsecond : (((twoClients.setClient 0 c₁).setClient 1 c₂).setClient 0 c).clients 1 = some c₂ := by
    rw [ZincServer.clients_setClient, Function.update_of_ne (by decide), ZincServer.clients_setClient,
      Function.update_self]
  rcases hrun'.ack (sampleMoment []) (show ZincServer.clients _ 1 = some c₂ from hsecond) hat₂
    with ⟨later', c', hrun''⟩
  have hle : (1 : ℤ) + 1 ≤ 1 := h smallHost _ _ (by decide) hrun''
  exact absurd hle (by decide)

end Zinc.Network
