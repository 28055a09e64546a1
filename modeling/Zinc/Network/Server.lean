import Zinc.Network.Handler
import Mathlib.Logic.Function.Basic

/-! `ZincServer`: the clients by socket, the two tables of `addClient`, and the
number of online players. `switch` is the part of `onRead` that handles one
packet; `onRead` reads, handles, and runs again while bytes are left and the
handler asked for it. -/

namespace Zinc.Network

open Throw Buffer Buffer.ByteBuffer Handled

/-- The handlers of the state `Login`. -/
def switchLogin (host : Host) (moment : Moment) (online : ℤ) (packet : ZincPacket)
    (connection : ZincConnection) : Except Fault Handled :=
  if packet.id = 0 then loginStart host moment online packet.data connection
  else if packet.id = 1 then encryptionResponse host moment packet.data connection
  else if packet.id = 2 then done (loginPluginResponse host moment packet.data connection)
  else if packet.id = 3 then done (.ok (loginAck connection))
  else if packet.id = 4 then done (cookieResponse host moment packet.data connection)
  else done (.ok connection)

/-- The handlers of the state `Config`. -/
def switchConfig (host : Host) (moment : Moment) (packet : ZincPacket) (connection : ZincConnection) :
    Except Fault Handled :=
  if packet.id = 0 then configInfo host moment packet.data connection
  else if packet.id = 1 then done (cookieResponse host moment packet.data connection)
  else if packet.id = 2 then done (pluginMessage host moment packet.data connection)
  else if packet.id = 3 then done (.ok { connection with state := .play })
  else if packet.id = 4 then done (keepAlive host packet.data connection)
  else if packet.id = 5 then done (ping host packet.data connection)
  else done (.ok connection)

/-- The part of `onRead` that handles one packet. -/
def switch (host : Host) (moment : Moment) (online : ℤ) (packet : ZincPacket)
    (connection : ZincConnection) : Except Fault Handled :=
  match connection.state with
  | .handshake =>
    if packet.id = 0 then done (handshake packet.data connection) else done (.ok connection)
  | .status => done (status host online packet connection)
  | .login => switchLogin host moment online packet connection
  | .config => switchConfig host moment packet connection
  | .transfer => done (.ok connection)
  | .play => done (.ok connection)

/-- `m_onlinePlayers` behind a packet: Login Ack counts the player. -/
def onlineAfter (packet : ZincPacket) (connection : ZincConnection) (online : ℤ) : ℤ :=
  if connection.state = .login ∧ packet.id = 3 then online + 1 else online

/-- `onRead` on a client, with a moment for each packet. -/
def onRead (host : Host) (moments : ℕ → Moment) : ℕ → ℤ → ZincConnection →
    Except Fault (ZincConnection × ℤ)
  | 0, _, _ => .error .stuck
  | fuel + 1, online, connection => do
    let (packet, connection) ← (connection.read host.libs).result
    if packet.id.msb then return (connection, online)
    else
      let handled ← switch host (moments fuel) online packet connection
      let online := onlineAfter packet connection online
      if handled.returned then return (handled.connection, online)
      else
        let rest ← TCPUtil.read handled.connection.input
        if rest.size ≠ 0 ∧ handled.connection.shouldContinue then
          let (connection, online) ← onRead host moments fuel online handled.connection
          return ({ connection with shouldContinue := true }, online)
        else return ({ handled.connection with shouldContinue := true }, online)

structure ZincServer where
  clients : ℕ → Option ZincConnection
  rateLimiterData : Bytes → Option ℤ
  concurrentAccounts : Bytes → Option ℤ
  onlinePlayers : ℤ

namespace ZincServer

def new : ZincServer := ⟨fun _ => none, fun _ => none, fun _ => none, 0⟩

def isConnected (fd : ℕ) (server : ZincServer) : Bool := (server.clients fd).isSome

/-- The rate limiter in `addClient`: its entry for an address, and whether to kick. An old
entry is compared with one reading of the clock and replaced by the next. -/
def rateLimit (config : ZincConfig) (now refreshed : ℤ) : Option ℤ → ℤ × Bool
  | some last => if last + config.rateLimit < now then (refreshed, false) else (last, true)
  | none => (now, false)

def addClient (config : ZincConfig) (now refreshed : ℤ) (fd : ℕ) (client : ZincConnection)
    (server : ZincServer) : ZincServer :=
  if server.isConnected fd then server
  else
    let (last, limited) := rateLimit config now refreshed (server.rateLimiterData client.ip)
    let count := (server.concurrentAccounts client.ip).getD 0 + 1
    let kickAtLogin :=
      if config.maxConcurrentAccount < count then 2 else if limited then 1 else client.kickAtLogin
    { server with
      rateLimiterData := Function.update server.rateLimiterData client.ip (some last)
      concurrentAccounts := Function.update server.concurrentAccounts client.ip (some count)
      clients := Function.update server.clients fd (some { client with kickAtLogin }) }

def removeClient (fd : ℕ) (server : ZincServer) : ZincServer :=
  match server.clients fd with
  | none => server
  | some client =>
    let count := (server.concurrentAccounts client.ip).getD 0
    let count := if count = 0 then count else count - 1
    { server with
      concurrentAccounts := Function.update server.concurrentAccounts client.ip
        (if count = 0 then none else some count)
      onlinePlayers :=
        if client.loginFinished then server.onlinePlayers - 1 else server.onlinePlayers
      clients := Function.update server.clients fd none }

/-- `onAccept`, with the members that the constructor leaves uninitialised. -/
def onAccept (config : ZincConfig) (now refreshed : ℤ) (fd : ℕ) (ip : Bytes)
    (networkInfo : NetworkInfo) (settingsInfo : SettingsInfo) (server : ZincServer) : ZincServer :=
  server.addClient config now refreshed fd (ZincConnection.new ip networkInfo settingsInfo)

/-- `onEvent`: the end of the stream, an error and a timeout remove the client. -/
def onEvent (fd : ℕ) (isEOF isError isTimeout : Bool) (server : ZincServer) : ZincServer :=
  if isEOF ∨ isError ∨ isTimeout then server.removeClient fd else server

end ZincServer

end Zinc.Network
