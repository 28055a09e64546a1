import Zinc.Network.Server

/-! The tables of plugin channels and of cookie response parsers. A handler looks its
function up by `operator[]`, which inserts an empty function for an unknown key, and
calls what it got; the tables keep what was inserted when the call throws. With the
tables of the repository the handlers do what `switch` does. -/

namespace Zinc.Network

open Throw Buffer Buffer.ByteBuffer ZincConnection

namespace Dispatch

/-- A `std::function<void(ByteBuffer&, ZincConnection*)>` that is not empty. -/
abbrev PluginChannel := Moment → ByteBuffer → ZincConnection → Except Fault ZincConnection

/-- A parser gets the bytes of the cookie, if there are any. -/
abbrev CookieResponseParser := Moment → Option Bytes → ZincConnection → Except Fault ZincConnection

/-- A map to functions that may be empty. -/
abbrev Table (α : Type) := Bytes → Option (Option α)

structure Tables where
  pluginChannels : Table PluginChannel
  cookieResponseParsers : Table CookieResponseParser

/-- What a handler calls: a function of a table or `sendLoginError`. -/
inductive Call where
  | pluginChannel (channel : Bytes) (function : Option PluginChannel) (data : ByteBuffer)
  | cookieResponseParser (cookieId : Bytes) (function : Option CookieResponseParser)
      (cookieData : Option Bytes)
  | loginError (errorMessage : String)

/-- The tables and the calls so far. -/
structure Dispatcher where
  tables : Tables
  calls : List Call

abbrev Dispatching (α : Type) := Throw.Process Dispatcher Fault α

/-! ### Tables -/

/-- `operator[]`. -/
def subscript {α : Type} (key : Bytes) (table : Table α) : Option α × Table α :=
  match table key with
  | some function => (function, table)
  | none => (none, Function.update table key (some none))

/-- The call operator of `std::function`. -/
def invoke {α : Type} (function : Option α) (run : α → Except Fault ZincConnection) :
    Except Fault ZincConnection :=
  match function with
  | some f => run f
  | none => .error .badFunctionCall

/-- `g_zincServerPluginChannels[channel](data, connection)`. -/
def callPluginChannel (moment : Moment) (channel : Bytes) (data : ByteBuffer)
    (connection : ZincConnection) : Dispatching ZincConnection := fun dispatcher =>
  let (function, pluginChannels) := subscript channel dispatcher.tables.pluginChannels
  (invoke function fun f => f moment data connection,
    { tables := { dispatcher.tables with pluginChannels }
      calls := dispatcher.calls ++ [.pluginChannel channel function data] })

/-- `g_zincCookieResponseParsers[cookieId](data, connection)`. -/
def callCookieResponseParser (moment : Moment) (cookieId : Bytes) (cookieData : Option Bytes)
    (connection : ZincConnection) : Dispatching ZincConnection := fun dispatcher =>
  let (function, cookieResponseParsers) := subscript cookieId dispatcher.tables.cookieResponseParsers
  (invoke function fun f => f moment cookieData connection,
    { tables := { dispatcher.tables with cookieResponseParsers }
      calls := dispatcher.calls ++ [.cookieResponseParser cookieId function cookieData] })

def sendLoginError (host : Host) (errorMessage : String) (connection : ZincConnection) :
    Dispatching ZincConnection := fun dispatcher =>
  (connection.sendLoginError host errorMessage,
    { dispatcher with calls := dispatcher.calls ++ [.loginError errorMessage] })

/-! ### Handlers -/

def loginPluginResponse (host : Host) (moment : Moment) (data : ByteBuffer)
    (connection : ZincConnection) : Dispatching ZincConnection := do
  let (id, data) ← .lift (readArray readUnsignedByte 4 data)
  if connection.isLoginPluginChannelOpened id then
    let connection ←
      callPluginChannel moment (connection.getLoginPluginChannel id) data connection
    return connection.closeLoginPluginChannel id
  else sendLoginError host "Server received invalid login plugin channel id" connection

/-- The cookie responses of both states. -/
def cookieResponse (host : Host) (moment : Moment) (data : ByteBuffer)
    (connection : ZincConnection) : Dispatching ZincConnection := do
  let (cookieId, data) ← .lift (readIdentifier data)
  let (bytes, _) ← .lift (readPrefixedOptional readPrefixedByteArray data)
  match bytes with
  | some cookieRawData =>
    let cookieData ← .lift (extractedPayload host moment cookieRawData)
    callCookieResponseParser moment cookieId.toString cookieData connection
  | none => callCookieResponseParser moment cookieId.toString none connection

def pluginMessage (moment : Moment) (data : ByteBuffer) (connection : ZincConnection) :
    Dispatching ZincConnection := do
  let (channel, data) ← .lift (readIdentifier data)
  callPluginChannel moment channel.toString data connection

/-- `break`. -/
def done (x : Dispatching ZincConnection) : Dispatching Handled := do
  let connection ← x
  return ⟨connection, false⟩

/-- The part of `onRead` that handles one packet, with the tables that it uses. -/
def switch (host : Host) (moment : Moment) (online : ℤ) (packet : ZincPacket)
    (connection : ZincConnection) : Dispatching Handled :=
  if connection.state = .login ∧ packet.id = 2 then
    done (loginPluginResponse host moment packet.data connection)
  else if connection.state = .login ∧ packet.id = 4 ∨ connection.state = .config ∧ packet.id = 1 then
    done (cookieResponse host moment packet.data connection)
  else if connection.state = .config ∧ packet.id = 2 then
    done (pluginMessage moment packet.data connection)
  else .lift (Network.switch host moment online packet connection)

/-- The tables of the repository. -/
def initialTables (host : Host) : Tables where
  pluginChannels := Function.update (fun _ => none) (utf8 "minecraft:brand")
    (some (some fun moment _ connection => brandChannel host moment connection))
  cookieResponseParsers := fun _ => none

end Dispatch

end Zinc.Network
