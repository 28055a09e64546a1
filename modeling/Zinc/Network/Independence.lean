import Zinc.Base.Interleaving
import Zinc.Network.Accounts

/-! What the clients of one server have to do with each other. They share two tables
of addresses and the number of online players. Only an accepted connection looks
at the tables, and only a status request and Login Start look at the number. So
everything else a client does and gets is the same in any order of the clients,
and a client that does not find what others changed there is treated as if it
were alone. -/

namespace Zinc.Network

open Throw Buffer ZincConnection Interleaving

variable {host : Host} {server server' : ZincServer}

/-! ### The log of a server -/

/-- What the server is told, with what it found of the client: a connection is
accepted, bytes come in, a packet is taken from them, the flag to go on is set at the
end of `onRead`, or a socket reports an event. -/
inductive Entry where
  | accept (now refreshed : ℤ) (fd : ℕ) (ip : Bytes) (networkInfo : NetworkInfo)
      (settingsInfo : SettingsInfo) (connected : Bool)
  | arrive (fd : ℕ) (bytes : Bytes)
  | take (fd : ℕ) (moment : Moment) (state : State) (id : BitVec 32)
  | resume (fd : ℕ)
  | event (fd : ℕ) (isEOF isError isTimeout : Bool) (client : Option (Bytes × Bool))

namespace Entry

def fd : Entry → ℕ
  | accept _ _ fd _ _ _ _ => fd
  | arrive fd _ => fd
  | take fd _ _ _ => fd
  | resume fd => fd
  | event fd _ _ _ _ => fd

/-- A packet whose handler looks at the number of online players. -/
def Asks : Entry → Prop
  | take _ _ state id => (state = .status ∨ state = .login) ∧ id = 0
  | _ => False

/-- What is added to the number of online players. -/
def change : Entry → ℤ
  | take _ _ state id => if state = .login ∧ id = 3 then 1 else 0
  | event _ isEOF isError isTimeout (some (_, true)) => if isEOF ∨ isError ∨ isTimeout then -1 else 0
  | _ => 0

/-- The address that a connection comes from. -/
def enters : Entry → Option Bytes
  | accept _ _ _ ip _ _ false => some ip
  | _ => none

/-- The address that a connection came from. -/
def leaves : Entry → Option Bytes
  | event _ isEOF isError isTimeout (some (ip, _)) =>
    if isEOF ∨ isError ∨ isTimeout then some ip else none
  | _ => none

theorem leaves_of_enters {a : Entry} {ip : Bytes} (h : a.enters = some ip) : a.leaves = none := by
  cases a with
  | accept => rfl
  | _ => cases h

theorem enters_of_leaves {a : Entry} {ip : Bytes} (h : a.leaves = some ip) : a.enters = none := by
  cases a with
  | accept => cases h
  | _ => rfl

end Entry

/-- A connection as `onAccept` makes it, with the two entries for its address. -/
def enrolled (config : ZincConfig) (now refreshed : ℤ) (ip : Bytes) (networkInfo : NetworkInfo)
    (settingsInfo : SettingsInfo) (last count : Option ℤ) : ZincConnection :=
  { ZincConnection.new ip networkInfo settingsInfo with
    kickAtLogin :=
      if config.maxConcurrentAccount < count.getD 0 + 1 then 2
      else if (ZincServer.rateLimit config now refreshed last).2 then 1 else 0 }

/-- The log is what the server does, entry by entry. -/
inductive Serves (host : Host) : ZincServer → Entry → ZincServer → Prop
  | accept {server : ZincServer} (now refreshed : ℤ) (fd : ℕ) (ip : Bytes)
      (networkInfo : NetworkInfo) (settingsInfo : SettingsInfo) :
      Serves host server
        (.accept now refreshed fd ip networkInfo settingsInfo (server.isConnected fd))
        (server.onAccept host.config now refreshed fd ip networkInfo settingsInfo)
  | arrive {server : ZincServer} {fd : ℕ} {c : ZincConnection} (hclient : server.clients fd = some c)
      (bytes : Bytes) :
      Serves host server (.arrive fd bytes) (server.setClient fd { c with input := c.input ++ bytes })
  | wait {server : ZincServer} {fd : ℕ} {c c' : ZincConnection} {packet : ZincPacket} {state : State}
      {id : BitVec 32} (moment : Moment) (hclient : server.clients fd = some c)
      (hread : (c.read host.libs).result = .ok (packet, c')) (hstate : c.state = state)
      (hid : packet.id = id) (hwait : id.msb = true) :
      Serves host server (.take fd moment state id) (server.setClient fd c')
  | handle {server : ZincServer} {fd : ℕ} {c c₀ : ZincConnection} {packet : ZincPacket} {state : State}
      {id : BitVec 32} {handled : Handled} (moment : Moment) (hclient : server.clients fd = some c)
      (hread : (c.read host.libs).result = .ok (packet, c₀)) (hstate : c.state = state)
      (hid : packet.id = id) (hwait : id.msb = false)
      (hswitch : switch host moment server.onlinePlayers packet c₀ = .ok handled) :
      Serves host server (.take fd moment state id) (server.handled fd packet c₀ handled.connection)
  | resume {server : ZincServer} {fd : ℕ} {c : ZincConnection} (hclient : server.clients fd = some c) :
      Serves host server (.resume fd) (server.setClient fd { c with shouldContinue := true })
  | event {server : ZincServer} (fd : ℕ) (isEOF isError isTimeout : Bool) :
      Serves host server (.event fd isEOF isError isTimeout
        ((server.clients fd).map fun c => (c.ip, c.loginFinished)))
        (server.onEvent fd isEOF isError isTimeout)

/-! ### The clients and what they share -/

structure Shared where
  rateLimiterData : Bytes → Option ℤ
  concurrentAccounts : Bytes → Option ℤ
  onlinePlayers : ℤ

def ZincServer.cells (server : ZincServer) : Cells ℕ (Option ZincConnection) Shared :=
  ⟨server.clients, server.rateLimiterData, server.concurrentAccounts, server.onlinePlayers⟩

def ofCells (cells : Cells ℕ (Option ZincConnection) Shared) : ZincServer :=
  ⟨cells.cell, cells.shared.rateLimiterData, cells.shared.concurrentAccounts,
    cells.shared.onlinePlayers⟩

@[simp] theorem ofCells_cells (server : ZincServer) : ofCells server.cells = server := rfl

/-- The entry for an address behind a disconnect. -/
def released (count : Option ℤ) : Option ℤ :=
  let count := count.getD 0
  let count := if count = 0 then count else count - 1
  if count = 0 then none else some count

def limiterAfter (config : ZincConfig) : Entry → (Bytes → Option ℤ) → Bytes → Option ℤ
  | .accept now refreshed _ ip _ _ false, table =>
    Function.update table ip (some (ZincServer.rateLimit config now refreshed (table ip)).1)
  | _, table => table

def accountsAfter (a : Entry) (table : Bytes → Option ℤ) (ip : Bytes) : Option ℤ :=
  if a.enters = some ip then some ((table ip).getD 0 + 1)
  else if a.leaves = some ip then released (table ip) else table ip

/-- What an entry does to what the clients share. -/
def sharedAfter (config : ZincConfig) (a : Entry) (shared : Shared) : Shared where
  rateLimiterData := limiterAfter config a shared.rateLimiterData
  concurrentAccounts := accountsAfter a shared.concurrentAccounts
  onlinePlayers := shared.onlinePlayers + a.change

/-- What an entry does to its client. -/
def clientAfter (host : Host) : Entry → Shared → Option ZincConnection → Option ZincConnection → Prop
  | .accept now refreshed _ ip networkInfo settingsInfo connected, shared, client, client' =>
    connected = client.isSome ∧ client' = if connected then client else
      some (enrolled host.config now refreshed ip networkInfo settingsInfo
        (shared.rateLimiterData ip) (shared.concurrentAccounts ip))
  | .arrive _ bytes, _, client, client' =>
    ∃ c, client = some c ∧ client' = some { c with input := c.input ++ bytes }
  | .take _ moment state id, shared, client, client' =>
    ∃ c packet c₀, client = some c ∧ (c.read host.libs).result = .ok (packet, c₀) ∧
      state = c.state ∧ id = packet.id ∧
      if packet.id.msb then client' = some c₀
      else ∃ handled, switch host moment shared.onlinePlayers packet c₀ = .ok handled ∧
        client' = some handled.connection
  | .resume _, _, client, client' =>
    ∃ c, client = some c ∧ client' = some { c with shouldContinue := true }
  | .event _ isEOF isError isTimeout seen, _, client, client' =>
    seen = (client.map fun c => (c.ip, c.loginFinished)) ∧
      client' = if isEOF ∨ isError ∨ isTimeout then none else client

/-- A step of the server, seen from its cells. -/
abbrev CellStep (host : Host) :
    Cells ℕ (Option ZincConnection) Shared → Entry → Cells ℕ (Option ZincConnection) Shared → Prop :=
  Cells.Step Entry.fd (clientAfter host) (sharedAfter host.config)

variable {a b : Entry} {shared : Shared} {c c' : ZincConnection} {fd : ℕ}

theorem accountsAfter_of_enters {ip : Bytes} (h : a.enters = some ip) (table : Bytes → Option ℤ) :
    accountsAfter a table = Function.update table ip (some ((table ip).getD 0 + 1)) := by
  funext ip'
  by_cases hip : ip' = ip
  · simp [accountsAfter, h, hip]
  · simp [accountsAfter, h, hip, Ne.symm hip, Entry.leaves_of_enters h]

theorem accountsAfter_of_leaves {ip : Bytes} (h : a.leaves = some ip) (table : Bytes → Option ℤ) :
    accountsAfter a table = Function.update table ip (released (table ip)) := by
  funext ip'
  by_cases hip : ip' = ip
  · simp [accountsAfter, h, hip, Entry.enters_of_leaves h]
  · simp [accountsAfter, h, hip, Ne.symm hip, Entry.enters_of_leaves h]

theorem sharedAfter_of_quiet {config : ZincConfig} (hchange : a.change = 0) (henters : a.enters = none)
    (hleaves : a.leaves = none) : sharedAfter config a shared = shared := by
  have hlimiter : limiterAfter config a shared.rateLimiterData = shared.rateLimiterData := by
    unfold limiterAfter
    split
    · cases henters
    · rfl
  have haccounts : accountsAfter a shared.concurrentAccounts = shared.concurrentAccounts := by
    funext ip
    simp [accountsAfter, henters, hleaves]
  rw [sharedAfter, hlimiter, haccounts, hchange, add_zero]

/-- What an entry does that only changes its client. -/
theorem step_setClient (hchange : a.change = 0) (henters : a.enters = none)
    (hleaves : a.leaves = none)
    (hclient : clientAfter host a server.cells.shared (server.clients a.fd) (some c')) :
    CellStep host server.cells a (server.setClient a.fd c').cells := by
  refine ⟨?_, ?_, ?_⟩
  · simpa [ZincServer.cells] using hclient
  · simp [ZincServer.cells]
  · rw [sharedAfter_of_quiet hchange henters hleaves]
    rfl

theorem onlineAfter_eq (packet : ZincPacket) (moment : Moment) (online : ℤ) (c : ZincConnection) :
    onlineAfter packet c online = online + (Entry.take fd moment c.state packet.id).change := by
  rw [onlineAfter, Entry.change]
  split
  · rfl
  · exact (add_zero online).symm

theorem change_of_msb {state : State} {id : BitVec 32} (moment : Moment) (h : id.msb = true) :
    (Entry.take fd moment state id).change = 0 := by
  rw [Entry.change, if_neg]
  rintro ⟨-, rfl⟩
  exact absurd h (by decide)

theorem state_of_received (h : Received c c') : c'.state = c.state := by
  rcases h with ⟨input, decrypt, shouldContinue, -, rfl⟩
  rfl

theorem admitted_new (config : ZincConfig) (now refreshed : ℤ) (ip : Bytes) (networkInfo : NetworkInfo)
    (settingsInfo : SettingsInfo) (server : ZincServer) :
    server.admitted config now refreshed (ZincConnection.new ip networkInfo settingsInfo) =
      enrolled config now refreshed ip networkInfo settingsInfo (server.rateLimiterData ip)
        (server.concurrentAccounts ip) := rfl

theorem step_accept (now refreshed : ℤ) (fd : ℕ) (ip : Bytes) (networkInfo : NetworkInfo)
    (settingsInfo : SettingsInfo) (server : ZincServer) :
    CellStep host server.cells
      (.accept now refreshed fd ip networkInfo settingsInfo (server.isConnected fd))
      (server.onAccept host.config now refreshed fd ip networkInfo settingsInfo).cells := by
  cases hclient : server.clients fd with
  | some client =>
    have hconnected : server.isConnected fd = true := by simp [ZincServer.isConnected, hclient]
    rw [ZincServer.onAccept, ZincServer.addClient_of_connected hclient, hconnected]
    refine ⟨⟨?_, ?_⟩, ?_, ?_⟩
    · simp [ZincServer.cells, Entry.fd, hclient]
    · simp
    · simp [ZincServer.cells]
    · exact (sharedAfter_of_quiet rfl rfl rfl).symm
  | none =>
    rw [ZincServer.onAccept, ZincServer.addClient_of_free hclient,
      ZincServer.isConnected_eq_false hclient]
    refine ⟨⟨?_, ?_⟩, ?_, ?_⟩
    · simp [ZincServer.cells, Entry.fd, hclient]
    · simp [ZincServer.cells, Entry.fd, admitted_new]
    · simp [ZincServer.cells, Entry.fd]
    · rw [sharedAfter, accountsAfter_of_enters rfl]
      simp [ZincServer.cells, limiterAfter, Entry.change, ZincConnection.new]

theorem shared_removeClient (h : server.clients fd = some c) : (server.removeClient fd).cells.shared =
    ⟨server.rateLimiterData,
      Function.update server.concurrentAccounts c.ip (released (server.concurrentAccounts c.ip)),
      if c.loginFinished then server.onlinePlayers - 1 else server.onlinePlayers⟩ := by
  rw [ZincServer.removeClient, h]
  rfl

theorem step_event (fd : ℕ) (isEOF isError isTimeout : Bool) (server : ZincServer) :
    CellStep host server.cells (.event fd isEOF isError isTimeout
      ((server.clients fd).map fun c => (c.ip, c.loginFinished)))
      (server.onEvent fd isEOF isError isTimeout).cells := by
  unfold ZincServer.onEvent
  by_cases hclosed : isEOF ∨ isError ∨ isTimeout
  · rw [if_pos hclosed]
    refine ⟨⟨rfl, ?_⟩, ?_, ?_⟩
    · simp [ZincServer.cells, ZincServer.clients_removeClient, Entry.fd, hclosed]
    · simp [ZincServer.cells, ZincServer.clients_removeClient, Entry.fd]
    · cases hclient : server.clients fd with
      | none =>
        rw [ZincServer.removeClient_of_free hclient]
        exact (sharedAfter_of_quiet rfl rfl rfl).symm
      | some client =>
        have hleaves : (Entry.event fd isEOF isError isTimeout
            (some (client.ip, client.loginFinished))).leaves = some client.ip := if_pos hclosed
        rw [Option.map_some, sharedAfter, accountsAfter_of_leaves hleaves, shared_removeClient hclient]
        cases hfinished : client.loginFinished with
        | true => simp [ZincServer.cells, Entry.change, hclosed, limiterAfter, Int.sub_eq_add_neg]
        | false => simp [ZincServer.cells, Entry.change, limiterAfter]
  · rw [if_neg hclosed]
    refine ⟨⟨rfl, ?_⟩, ?_, ?_⟩
    · simp [hclosed]
    · simp [ZincServer.cells]
    · rw [sharedAfter_of_quiet]
      · unfold Entry.change
        grind
      · rfl
      · unfold Entry.leaves
        grind

/-- The log, seen from the cells. -/
theorem Serves.step (h : Serves host server a server') : CellStep host server.cells a server'.cells := by
  cases h with
  | accept now refreshed fd ip networkInfo settingsInfo => exact step_accept _ _ _ _ _ _ _
  | arrive hclient bytes => exact step_setClient rfl rfl rfl ⟨_, hclient, rfl⟩
  | wait moment hclient hread hstate hid hwait =>
    apply step_setClient (change_of_msb moment hwait) rfl rfl
    exact ⟨_, _, _, hclient, hread, hstate.symm, hid.symm, by rw [hid, if_pos hwait]⟩
  | @handle fd c c₀ packet state id handled moment hclient hread hstate hid hwait hswitch =>
    have hstate₀ : c₀.state = state := (state_of_received (read_received hread)).trans hstate
    refine ⟨⟨c, packet, c₀, hclient, hread, hstate.symm, hid.symm, ?_⟩, ?_, ?_⟩
    · rw [hid, if_neg (by simp [hwait])]
      exact ⟨handled, hswitch, by simp [ZincServer.cells, Entry.fd]⟩
    · simp [ZincServer.cells, Entry.fd]
    · rw [← hstate₀, ← hid]
      simp only [sharedAfter, ZincServer.cells, ZincServer.onlinePlayers_handled]
      rw [onlineAfter_eq packet moment]
      rfl
  | resume hclient => exact step_setClient rfl rfl rfl ⟨_, hclient, rfl⟩
  | event fd isEOF isError isTimeout => exact step_event _ _ _ _ _

/-- A call of `onRead` is a part of the log, all of it about its client. -/
theorem path_onRead {moments : ℕ → Moment} {n : ℕ} {online : ℤ} (hclient : server.clients fd = some c)
    (hread : onRead host moments n server.onlinePlayers c = .ok (c', online)) :
    ∃ log, (∀ a ∈ log, a.fd = fd) ∧
      Path (Serves host) server log { server.setClient fd c' with onlinePlayers := online } := by
  induction n generalizing c c' server online with
  | zero => cases hread
  | succ n ih =>
    rw [onRead] at hread
    rcases bind_eq_ok.mp hread with ⟨⟨packet, c₁⟩, hpacket, hread⟩
    dsimp only at hread
    split at hread
    next hid =>
      cases hread
      exact ⟨_, by simp [Entry.fd], .cons (.wait (moments n) hclient hpacket rfl rfl hid) (.nil _)⟩
    next hid =>
    rcases bind_eq_ok.mp hread with ⟨handled, hswitch, hread⟩
    have hstep := Serves.handle (moments n) hclient hpacket rfl rfl (by simpa using hid) hswitch
    have hhandled : (server.handled fd packet c₁ handled.connection).clients fd =
        some handled.connection := by simp
    split at hread
    · cases hread
      exact ⟨_, by simp [Entry.fd], .cons hstep (.nil _)⟩
    rcases bind_eq_ok.mp hread with ⟨rest, -, hread⟩
    split at hread
    · rcases bind_eq_ok.mp hread with ⟨⟨c₂, online₂⟩, hrec, hread⟩
      cases hread
      rcases ih hhandled hrec with ⟨log, hlog, hpath⟩
      have hlast := hpath.concat (.resume (ZincServer.clients_setClient_self _ fd c₂))
      refine ⟨_, ?_, .cons hstep (cast (congrArg _ ?_) hlast)⟩
      · intro a ha
        rw [List.mem_cons, List.mem_append, List.mem_singleton] at ha
        rcases ha with rfl | ha | rfl
        · rfl
        · exact hlog a ha
        · rfl
      · simp [ZincServer.setClient, ZincServer.handled]
    · cases hread
      have hlast := Path.cons hstep (.cons (.resume hhandled) (.nil _))
      refine ⟨_, ?_, cast (congrArg _ ?_) hlast⟩
      · simp [Entry.fd]
      · simp [ZincServer.setClient, ZincServer.handled]

/-- The log of a reachable server stays in its histories. -/
theorem Serves.reachable {past : History.Past ZincServer ServerInput} (h : Serves host server a server')
    (hrun : ServerRun host past server) : ∃ past, ServerRun host past server' := by
  cases h with
  | accept => exact ⟨_, hrun.next (.accept _ _ _ _ _ _)⟩
  | @arrive fd c hclient bytes =>
    exact ⟨_, hrun.next (.bytes hclient ⟨_, c.decrypt, c.shouldContinue, AESWrapper.Rolls.refl _, rfl⟩)⟩
  | wait moment hclient hread => exact ⟨_, hrun.next (.bytes hclient (read_received hread))⟩
  | @handle fd c c₀ packet state id handled moment hclient hread hstate hid hwait hswitch =>
    have hreceived := read_received hread
    have hstep : Step host c ⟨moment, server.onlinePlayers, packet⟩ handled.connection :=
      ⟨by rw [hid, hwait], c₀, handled, hreceived, hswitch, rfl⟩
    have hlast := hrun.next (.packet hclient rfl hstep)
    have heq : server.handled fd packet c handled.connection =
        server.handled fd packet c₀ handled.connection := by
      rw [ZincServer.handled, ZincServer.handled, onlineAfter_of_received hreceived]
    rw [← heq]
    exact ⟨_, hlast⟩
  | @resume fd c hclient => exact ⟨_, hrun.next (.bytes hclient (Received.continues c true))⟩
  | event => exact ⟨_, hrun.next (.event _ _ _ _)⟩

end Zinc.Network
