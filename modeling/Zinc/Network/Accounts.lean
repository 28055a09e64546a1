import Zinc.Base.PartialMap
import Zinc.Network.Players
import Zinc.Network.Standing

/-! The counters of the server. The accounts of an address are counted by `addClient`
and `removeClient` alone, whatever the clients are; the players that are online also
depend on Login Ack, which sets the flag that `removeClient` looks at. -/

namespace Zinc.Network

open Throw History Buffer PartialMap ZincConnection

/-! ### Accounts -/

/-- The entry of an address with a number of connections. -/
def accountsEntry (n : ℕ) : Option ℤ := if n = 0 then none else some n

theorem accountsEntry_getD (n : ℕ) : (accountsEntry n).getD 0 = n := by
  unfold accountsEntry
  split
  next h => simp [h]
  next h => rfl

def IsFrom (ip : Bytes) (client : ZincConnection) : Prop := client.ip = ip

instance (ip : Bytes) : DecidablePred (IsFrom ip) := fun client =>
  inferInstanceAs (Decidable (client.ip = ip))

/-- Every address has as many accounts as connections. -/
structure Tallied (server : ZincServer) : Prop where
  finite : Finite server.clients
  accounts : ∀ ip, server.concurrentAccounts ip =
    accountsEntry (count server.clients (IsFrom ip))

namespace ZincServer

variable {config : ZincConfig} {now refreshed : ℤ} {fd : ℕ} {client client' : ZincConnection}
  {server : ZincServer}

/-- A client as `addClient` registers it. -/
def admitted (config : ZincConfig) (now refreshed : ℤ) (client : ZincConnection)
    (server : ZincServer) : ZincConnection :=
  { client with
    kickAtLogin :=
      if config.maxConcurrentAccount < (server.concurrentAccounts client.ip).getD 0 + 1 then 2
      else if (rateLimit config now refreshed (server.rateLimiterData client.ip)).2 then 1
      else client.kickAtLogin }

theorem isConnected_eq_false (h : server.clients fd = none) : server.isConnected fd = false := by
  simp [isConnected, h]

theorem addClient_of_connected (h : server.clients fd = some client') :
    server.addClient config now refreshed fd client = server := by
  unfold addClient
  exact if_pos (by simp [isConnected, h])

theorem addClient_of_free (h : server.clients fd = none) :
    server.addClient config now refreshed fd client =
      { server with
        rateLimiterData := Function.update server.rateLimiterData client.ip
          (some (rateLimit config now refreshed (server.rateLimiterData client.ip)).1)
        concurrentAccounts := Function.update server.concurrentAccounts client.ip
          (some ((server.concurrentAccounts client.ip).getD 0 + 1))
        clients := Function.update server.clients fd
          (some (server.admitted config now refreshed client)) } := by
  unfold addClient
  rw [isConnected_eq_false h, if_neg Bool.false_ne_true]
  rfl

theorem removeClient_of_free (h : server.clients fd = none) : server.removeClient fd = server := by
  simp only [removeClient, h]

theorem clients_removeClient (fd : ℕ) (server : ZincServer) :
    (server.removeClient fd).clients = Function.update server.clients fd none := by
  unfold removeClient
  split
  next h => rw [← h, Function.update_eq_self]
  next => rfl

end ZincServer

variable {config : ZincConfig} {now refreshed : ℤ} {fd : ℕ} {client client' : ZincConnection}
  {server server' : ZincServer}

theorem tallied_new : Tallied .new := by
  refine ⟨finite_empty, fun ip => ?_⟩
  simp [ZincServer.new, accountsEntry]

theorem Tallied.addClient (h : Tallied server) :
    Tallied (server.addClient config now refreshed fd client) := by
  cases hclient : server.clients fd with
  | some client' => rwa [ZincServer.addClient_of_connected hclient]
  | none =>
    rw [ZincServer.addClient_of_free hclient]
    refine ⟨h.finite.update fd _, fun ip => ?_⟩
    have hfrom : IsFrom ip (server.admitted config now refreshed client) ↔ client.ip = ip := Iff.rfl
    dsimp only
    rw [count_insert h.finite hclient]
    by_cases hip : ip = client.ip
    · rw [weight_of_pos (hfrom.mpr hip.symm), hip, Function.update_self, h.accounts,
        accountsEntry_getD]
      simp [accountsEntry]
    · rw [weight_of_neg (mt hfrom.mp (Ne.symm hip)), Function.update_of_ne hip, h.accounts,
        Nat.add_zero]

theorem Tallied.removeClient (h : Tallied server) : Tallied (server.removeClient fd) := by
  cases hclient : server.clients fd with
  | none => rwa [ZincServer.removeClient_of_free hclient]
  | some client =>
    refine ⟨?_, fun ip => ?_⟩
    · rw [ZincServer.clients_removeClient]
      exact h.finite.update fd none
    have hcount := count_erase (P := IsFrom ip) h.finite hclient
    rw [ZincServer.clients_removeClient]
    simp only [ZincServer.removeClient, hclient]
    by_cases hip : ip = client.ip
    · rw [weight_of_pos (show IsFrom ip client from hip.symm)] at hcount
      rw [hip, Function.update_self, h.accounts, accountsEntry_getD, ← hip, ← hcount]
      generalize count (Function.update server.clients fd none) (IsFrom ip) = n
      have hne : (n : ℤ) + 1 ≠ 0 := by omega
      simp [accountsEntry, hne]
    · rw [weight_of_neg (show ¬ IsFrom ip _ from Ne.symm hip), Nat.add_zero] at hcount
      rw [Function.update_of_ne hip, h.accounts, hcount]

/-- Another connection of the same address takes the place of a client. -/
theorem Tallied.setClient (h : Tallied server) (hclient : server.clients fd = some client)
    (hip : client'.ip = client.ip) : Tallied (server.setClient fd client') := by
  refine ⟨h.finite.update fd _, fun ip => ?_⟩
  rw [ZincServer.clients_setClient, count_replace h.finite hclient (by rw [IsFrom, IsFrom, hip])]
  exact h.accounts ip

/-! ### Finished logins -/

variable {host : Host} {c c₀ c' : ZincConnection} {i : Input}

/-- The states behind Login Ack. -/
def Joined (state : State) : Prop := state = .config ∨ state = .play

theorem Effect.joined_iff {view : View} (h : Effect host c i view) (hack : ¬ LoginAck c i) :
    Joined view.state ↔ Joined c.state := by
  cases h with
  | handshake state hstate hnew =>
    rw [hstate]
    obtain rfl | rfl | rfl := hnew <;> simp [Joined]
  | loginAck h => exact absurd h hack
  | configAck h =>
    rw [h.1]
    simp [Joined]
  | sends | accepted | passed | unverified | configured | banned => rfl

def Finished (client : ZincConnection) : Prop := client.loginFinished = true

instance : DecidablePred Finished := fun client =>
  inferInstanceAs (Decidable (client.loginFinished = true))

/-- The login of a connection is finished exactly behind Login Ack. -/
def Consistent (client : ZincConnection) : Prop := Finished client ↔ Joined client.state

theorem Accepts.consistent (h : Accepts c) : Consistent c := by
  obtain ⟨ip, networkInfo, settingsInfo, kickAtLogin, rfl⟩ := h
  simp [Consistent, Finished, Joined, ZincConnection.new]

theorem Received.consistent (h : Received c c') (hc : Consistent c) : Consistent c' := by
  obtain ⟨input, decrypt, shouldContinue, -, rfl⟩ := h
  exact hc

theorem Received.standing_eq (h : Received c c') : c'.ip = c.ip ∧ (Finished c' ↔ Finished c) := by
  obtain ⟨input, decrypt, shouldContinue, -, rfl⟩ := h
  exact ⟨rfl, Iff.rfl⟩

/-- A packet keeps the address, and finishes the login if it is a Login Ack. -/
theorem Step.standing_eq (h : Step host c i c') :
    c'.ip = c.ip ∧ (Finished c' ↔ Finished c ∨ LoginAck c i) := by
  obtain ⟨-, c₀, handled, hreceived, hswitch, rfl⟩ := h
  have hstands := switch_stands i.online i.packet c₀ handled hswitch
  obtain ⟨input, decrypt, shouldContinue, -, rfl⟩ := hreceived
  refine ⟨congrArg Standing.ip hstands, ?_⟩
  have hfinished := congrArg Standing.loginFinished hstands
  change handled.connection.loginFinished =
    if c.state = .login ∧ i.packet.id = 3 then true else c.loginFinished at hfinished
  rw [Finished, hfinished]
  split
  next hack => exact ⟨fun _ => .inr hack, fun _ => rfl⟩
  next hack => exact ⟨.inl, fun h => h.resolve_right hack⟩

/-- A Login Ack leads to `Config`. -/
theorem Step.state_of_loginAck (h : Step host c i c') (hack : LoginAck c i) : c'.state = .config := by
  obtain ⟨-, c₀, handled, hreceived, hswitch, rfl⟩ := h
  obtain ⟨input, decrypt, shouldContinue, -, rfl⟩ := hreceived
  have hstate : c.state = .login := hack.1
  simp only [switch, hstate, switchLogin, hack.2] at hswitch
  cases hswitch
  rfl

theorem Step.consistent (h : Step host c i c') (hc : Consistent c) : Consistent c' := by
  rw [Consistent, h.standing_eq.2]
  by_cases hack : LoginAck c i
  · simp [hack, h.state_of_loginAck hack, Joined]
  · simp only [hack, or_false]
    exact hc.trans (h.handles.1.joined_iff hack).symm

/-! ### All counters -/

/-- The number of online players, the flags and the accounts say what they should. -/
structure Counted (server : ZincServer) : Prop extends Tallied server where
  online : server.onlinePlayers = count server.clients Finished
  consistent : ∀ fd client, server.clients fd = some client → Consistent client

theorem counted_new : Counted .new := by
  refine ⟨tallied_new, ?_, fun fd client h => ?_⟩
  · simp [ZincServer.new]
  · simp [ZincServer.new] at h

/-- A client of the server behind an update is a client in front of it or the new one. -/
theorem Counted.consistent_update (h : Counted server) (hconsistent : Consistent client) (fd : ℕ) :
    ∀ fd' client', Function.update server.clients fd (some client) fd' = some client' →
      Consistent client' := by
  intro fd' client' hclient
  obtain hold | ⟨-, rfl⟩ := ZincServer.client_of_update hclient
  · exact h.consistent fd' client' hold
  · exact hconsistent

theorem Counted.accept (h : Counted server) {ip : Bytes} {networkInfo : NetworkInfo}
    {settingsInfo : SettingsInfo} :
    Counted (server.onAccept config now refreshed fd ip networkInfo settingsInfo) := by
  refine ⟨h.addClient, ?_, ?_⟩
  · cases hclient : server.clients fd with
    | some client =>
      rw [ZincServer.onAccept, ZincServer.addClient_of_connected hclient]
      exact h.online
    | none =>
      rw [ZincServer.onAccept, ZincServer.addClient_of_free hclient]
      dsimp only
      rw [count_insert h.finite hclient,
        weight_of_neg (by simp [Finished, ZincServer.admitted, ZincConnection.new])]
      exact h.online
  · cases hclient : server.clients fd with
    | some client =>
      rw [ZincServer.onAccept, ZincServer.addClient_of_connected hclient]
      exact h.consistent
    | none =>
      rw [ZincServer.onAccept, ZincServer.addClient_of_free hclient]
      exact h.consistent_update (Accepts.consistent ⟨ip, networkInfo, settingsInfo, _, rfl⟩) fd

theorem Counted.removeClient (h : Counted server) : Counted (server.removeClient fd) := by
  cases hclient : server.clients fd with
  | none => rwa [ZincServer.removeClient_of_free hclient]
  | some client =>
    refine ⟨h.toTallied.removeClient, ?_, ?_⟩
    · have hcount := count_erase (P := Finished) h.finite hclient
      have honline := h.online
      rw [ZincServer.clients_removeClient]
      simp only [ZincServer.removeClient, hclient]
      split
      next hfinished =>
        rw [weight_of_pos (P := Finished) hfinished] at hcount
        omega
      next hfinished =>
        rw [weight_of_neg (P := Finished) hfinished] at hcount
        omega
    · intro fd' client' hclient'
      rw [ZincServer.clients_removeClient] at hclient'
      by_cases hfd : fd' = fd
      · rw [hfd, Function.update_self] at hclient'
        cases hclient'
      · rw [Function.update_of_ne hfd] at hclient'
        exact h.consistent fd' client' hclient'

theorem Counted.event (h : Counted server) {isEOF isError isTimeout : Bool} :
    Counted (server.onEvent fd isEOF isError isTimeout) := by
  unfold ZincServer.onEvent
  split
  · exact h.removeClient
  · exact h

theorem Counted.bytes (h : Counted server) (hclient : server.clients fd = some c)
    (hreceived : Received c c') : Counted (server.setClient fd c') := by
  obtain ⟨hip, hfinished⟩ := hreceived.standing_eq
  refine ⟨h.toTallied.setClient hclient hip, ?_, ?_⟩
  · rw [ZincServer.clients_setClient, count_replace h.finite hclient hfinished.symm]
    exact h.online
  · exact h.consistent_update (hreceived.consistent (h.consistent fd c hclient)) fd

/-- A Login Ack finds a connection that is not counted and counts it. -/
theorem Counted.packet (h : Counted server) (hclient : server.clients fd = some c)
    (hstep : Step host c i c') : Counted (server.handled fd i.packet c c') := by
  obtain ⟨hip, hfinished⟩ := hstep.standing_eq
  have hconsistent := h.consistent fd c hclient
  have htallied := h.toTallied.setClient hclient hip
  refine ⟨⟨htallied.finite, htallied.accounts⟩, ?_, h.consistent_update (hstep.consistent hconsistent) fd⟩
  have hcount := count_update h.finite Finished fd (some c')
  have honline := h.online
  rw [hclient] at hcount
  rw [ZincServer.clients_handled, ZincServer.onlinePlayers_handled]
  by_cases hack : LoginAck c i
  · have hnot : ¬ Finished c := by
      rw [Consistent, hack.1] at hconsistent
      rw [hconsistent]
      simp [Joined]
    rw [weight_of_neg hnot, weight_of_pos (hfinished.mpr (.inr hack))] at hcount
    have hcounted : onlineAfter i.packet c server.onlinePlayers = server.onlinePlayers + 1 := if_pos hack
    omega
  · have hsame : onlineAfter i.packet c server.onlinePlayers = server.onlinePlayers := if_neg hack
    simp only [hack, or_false] at hfinished
    rw [hsame, count_replace h.finite hclient hfinished.symm]
    exact honline

theorem ServerStep.counted {a : ServerInput} (h : ServerStep host server a server')
    (hserver : Counted server) : Counted server' := by
  cases h with
  | accept => exact hserver.accept
  | bytes hclient hreceived => exact hserver.bytes hclient hreceived
  | packet hclient _ hstep => exact hserver.packet hclient hstep
  | event => exact hserver.event

/-- The counters are right in every state that the server can reach. -/
theorem counted_of_run {past : Past ZincServer ServerInput} (h : ServerRun host past server) :
    Counted server := by
  induction h with
  | start h =>
    rw [h]
    exact counted_new
  | next h hstep ih => exact hstep.counted ih

/-- One of two clients is online. -/
theorem counted_of_run_sample : ∃ past server, ServerRun smallHost past server ∧
    server.onlinePlayers = 1 ∧ Counted server := by
  obtain ⟨past, c₁, c₂, hrun, hat₁, -⟩ := twoClients_ready
  have hfirst : ((twoClients.setClient 0 c₁).setClient 1 c₂).clients 0 = some c₁ := by
    rw [ZincServer.clients_setClient, Function.update_of_ne (by decide), ZincServer.clients_setClient,
      Function.update_self]
  obtain ⟨later, c, hrun'⟩ := hrun.ack (sampleMoment []) hfirst hat₁
  exact ⟨_, _, hrun', rfl, counted_of_run hrun'⟩

end Zinc.Network
