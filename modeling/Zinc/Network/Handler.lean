import Zinc.Network.Ban
import Zinc.Network.Cookie

/-! The handlers of `ZincServer::onRead`, one for each state and packet id. A
handler gets the data of its packet, the connection and, where it needs it, the
number of online players. It may return early, which skips the end of `onRead`. -/

namespace Zinc.Network

open Throw Buffer Buffer.ByteBuffer Nbt

/-- `LATEST_MINECRAFT_VERSION_PROTOCOL`. -/
def latestProtocol : BitVec 32 := 770

/-- The connection behind a handler, and whether it returned early. -/
structure Handled where
  connection : ZincConnection
  returned : Bool

namespace Handled

/-- `break`. -/
def done (x : Except Fault ZincConnection) : Except Fault Handled := do
  let connection ← x
  return ⟨connection, false⟩

/-- `return`. -/
def leave (x : Except Fault ZincConnection) : Except Fault Handled := do
  let connection ← x
  return ⟨connection, true⟩

end Handled

open Handled ZincConnection

/-! ### Tables -/

def brandChannel (host : Host) (moment : Moment) (connection : ZincConnection) :
    Except Fault ZincConnection :=
  if connection.state = .login then
    connection.sendLoginError host "You can't request server brand during Login"
  else do
    let ((), buffer) ← writeString (utf8 "zinc") .new
    connection.sendPluginMessage host moment ⟨utf8 "minecraft", utf8 "brand"⟩ buffer.getBytes

/-- `g_zincServerPluginChannels[channel](data, connection)`; calling an empty
function throws. No channel of the repository reads the data. -/
def callPluginChannel (host : Host) (moment : Moment) (channel : Bytes)
    (connection : ZincConnection) : Except Fault ZincConnection :=
  if channel = utf8 "minecraft:brand" then brandChannel host moment connection
  else .error .badFunctionCall

/-- `g_zincCookieResponseParsers[cookieId](data, connection)`: the table is empty. -/
def callCookieResponseParser (_cookieId : Bytes) (_data : Option Bytes)
    (_connection : ZincConnection) : Except Fault ZincConnection := .error .badFunctionCall

/-- `g_zincCookieRequests`. -/
def cookieRequests : State → List Bytes := fun _ => []

/-- `g_zincServerInitPluginChannels`. -/
def initPluginChannels : State → List (Bytes × (ZincConnection → ByteBuffer)) := fun _ => []

/-- The cookie requests and the plugin messages that begin a state. -/
def sendInitial (host : Host) (moment : Moment) (state : State) (connection : ZincConnection) :
    Except Fault ZincConnection := do
  let connection ← (cookieRequests state).foldlM (fun connection request => do
    let cookieId ← Identifier.ofString request
    connection.sendCookieRequest host cookieId) connection
  (initPluginChannels state).foldlM (fun connection (channel, message) => do
    let pluginChannel ← Identifier.ofString channel
    connection.sendPluginMessage host moment pluginChannel (message connection).getBytes) connection

/-! ### Handshake and status -/

/-- The states that a cast from an `int` can name here; all others become `Status`. -/
def handshakeState (value : BitVec 32) : State :=
  if value.toNat % 256 = 2 then .login else if value.toNat % 256 = 3 then .transfer else .status

def handshake (data : ByteBuffer) (connection : ZincConnection) : Except Fault ZincConnection := do
  let (protocolVersion, data) ← readVarInt data
  let (serverAddr, data) ← readString data
  let (serverPort, data) ← readNumeric 2 data
  let (state, _) ← readVarInt data
  return { connection with
    networkInfo := { connection.networkInfo with protocolVersion, serverAddr, serverPort }
    state := handshakeState state
    shouldContinue := true }

def status (host : Host) (online : ℤ) (packet : ZincPacket) (connection : ZincConnection) :
    Except Fault ZincConnection :=
  if packet.id ≠ 0 then connection.send host.libs host.config.threshold packet
  else connection.post host 0 (writeString (host.statusText host.config.maxPlayerCount online
    host.config.motd host.config.iconBase64))

/-! ### Login -/

/-- The messages for the values of `m_kickAtLogin`. -/
def kickMessage : ℕ → String
  | 1 => "You have been rate limited. Try again later"
  | 2 => "You have reached a maximum amount of concurrent account"
  | _ => "Unknown error"

/-- The request for an encryption response, with a new verify token. -/
def sendEncryptionRequest (host : Host) (moment : Moment) (connection : ZincConnection) :
    Except Fault ZincConnection :=
  let verifyToken := moment.randomBytes 64
  let connection :=
    { connection with networkInfo := { connection.networkInfo with verifyToken } }
  connection.post host 1 (do
    writeString []
    writePrefixedArray host.publicKeyDER writeUnsignedByte
    writePrefixedArray verifyToken writeUnsignedByte
    writeByte (if host.config.onlineMode then 1 else 0))

def loginStart (host : Host) (moment : Moment) (online : ℤ) (data : ByteBuffer)
    (connection : ZincConnection) : Except Fault Handled :=
  if connection.kickAtLogin ≠ 0 then
    leave (connection.sendLoginError host (kickMessage connection.kickAtLogin))
  else if host.config.maxPlayerCount ≤ online then
    leave (connection.sendLoginError host "Server is full")
  else if connection.networkInfo.protocolVersion.slt latestProtocol then
    done (connection.sendLoginError host "You are using outdated version")
  else if latestProtocol.slt connection.networkInfo.protocolVersion then
    done (connection.sendLoginError host "Server is using outdated version")
  else do
    let (playerName, data) ← readString data
    let (playerUUID, _) ← readUUID data
    let connection :=
      { connection with playerInfo := { connection.playerInfo with playerName, playerUUID } }
    if 16 < playerName.length then
      done (connection.sendLoginError host "Player name can't be longer than 16 characters")
    else
      let connection ←
        if (0 : BitVec 32).slt host.config.threshold then connection.setupCompression host
        else .ok connection
      done (sendEncryptionRequest host moment connection)

/-- One attempt at the session server: what it changes, and whether it got everything. -/
def SessionAnswer.apply (answer : SessionAnswer) (playerInfo : PlayerInfo) : PlayerInfo × Bool :=
  match answer.playerUUID with
  | none => (playerInfo, false)
  | some playerUUID =>
    match answer.playerName with
    | none => ({ playerInfo with playerUUID }, false)
    | some playerName =>
      ({ playerUUID, playerName, properties := playerInfo.properties ++ answer.properties },
        answer.finished)

/-- The ten attempts, all of which are made. -/
def lookup (answers : ℕ → SessionAnswer) (playerInfo : PlayerInfo) : PlayerInfo × Bool :=
  (List.range 10).foldl (fun (playerInfo, gotData) i =>
    let (playerInfo, finished) := (answers i).apply playerInfo
    (playerInfo, gotData || finished)) (playerInfo, false)

def writeZincConnectionProperty (property : ZincConnectionProperty) : Action Unit := do
  writeString property.name
  writeString property.value
  writePrefixedOptional property.signature writeString

def sendLoginSuccess (host : Host) (connection : ZincConnection) : Except Fault ZincConnection :=
  connection.post host 2 (do
    writeUUID connection.playerInfo.playerUUID
    writeString connection.playerInfo.playerName
    writePrefixedArray connection.playerInfo.properties writeZincConnectionProperty)

/-- The shared secret and the verify token of a response, still encrypted. -/
def readResponse : Action (Bytes × Bytes) := do
  let sharedSecret ← readPrefixedArray readUnsignedByte
  let verifyToken ← readPrefixedArray readUnsignedByte
  pure (sharedSecret, verifyToken)

def encryptionResponse (host : Host) (moment : Moment) (data : ByteBuffer)
    (connection : ZincConnection) : Except Fault Handled := do
  let ((sharedSecret, verifyToken), _) ← readResponse data
  let sharedSecret := RSAWrapper.decrypt host sharedSecret
  if RSAWrapper.decrypt host verifyToken = connection.networkInfo.verifyToken then
    let connection :=
      { connection with networkInfo := { connection.networkInfo with verifyToken := [] } }
    let connection := connection.setupEncryption sharedSecret
    let (playerInfo, gotData) :=
      if host.config.onlineMode then
        lookup (moment.session connection.playerInfo.playerName sharedSecret) connection.playerInfo
      else (connection.playerInfo, true)
    let connection := { connection with playerInfo }
    if gotData then
      let connection ← sendInitial host moment .login connection
      done (sendLoginSuccess host connection)
    else leave (connection.sendLoginError host
      "Server is unable to access mojang session servers")
  else done (connection.sendLoginError host "Server received invalid encryption response")

def loginPluginResponse (host : Host) (moment : Moment) (data : ByteBuffer)
    (connection : ZincConnection) : Except Fault ZincConnection := do
  let (id, _) ← readArray readUnsignedByte 4 data
  if connection.isLoginPluginChannelOpened id then
    let connection ←
      callPluginChannel host moment (connection.getLoginPluginChannel id) connection
    return connection.closeLoginPluginChannel id
  else connection.sendLoginError host "Server received invalid login plugin channel id"

def loginAck (connection : ZincConnection) : ZincConnection :=
  { connection with state := .config, loginFinished := true }

/-- What the server's own check makes of the bytes of a cookie. -/
def extractedPayload (host : Host) (moment : Moment) (cookieRawData : Bytes) :
    Except Fault (Option Bytes) := do
  let ((), cookieRawData) ← writeBytes cookieRawData .new
  let buffer ← extractCookieData host moment.now cookieRawData
  let (cookieData, _) ← readPrefixedOptional readPrefixedByteArray buffer
  return cookieData

/-- The cookie responses of both states. -/
def cookieResponse (host : Host) (moment : Moment) (data : ByteBuffer)
    (connection : ZincConnection) : Except Fault ZincConnection := do
  let (cookieId, data) ← readIdentifier data
  let (bytes, _) ← readPrefixedOptional readPrefixedByteArray data
  match bytes with
  | some cookieRawData =>
    let cookieData ← extractedPayload host moment cookieRawData
    callCookieResponseParser cookieId.toString cookieData connection
  | none => callCookieResponseParser cookieId.toString none connection

/-! ### Config -/

def readSettings (viewDistance : ℤ) : Action SettingsInfo := do
  let locale ← readString
  let renderDistance ← readUnsignedByte
  let chatMode ← readVarInt
  let enableChatColors ← readByte
  let skinParts ← readUnsignedByte
  let mainHand ← readVarInt
  let enableTextFiltering ← readByte
  let enableServerListing ← readByte
  let particleStatus ← readVarInt
  pure {
    locale
    renderDistance :=
      if viewDistance < renderDistance.toNat then UInt8.ofInt viewDistance else renderDistance
    chatMode
    enableChatColors := enableChatColors ≠ 0
    skinParts
    mainHand
    enableTextFiltering := enableTextFiltering ≠ 0
    enableServerListing := enableServerListing ≠ 0
    particleStatus }

/-- `getNetworkRegistry`. -/
def writeNetworkRegistry (registry : Bytes × List (Bytes × NBTElement)) : Action Unit := do
  writeString (utf8 "minecraft:" ++ registry.1)
  writeVarInt (toInt registry.2.length)
  Throw.forEach (fun (name, element) => do
    writeString name
    writeByte 1
    writeNBTElement element) registry.2

/-- The packets that answer a client's settings. -/
def sendConfiguration (host : Host) (moment : Moment) (connection : ZincConnection) :
    Except Fault ZincConnection := do
  let connection ← connection.post host 6 (pure ())
  let lastKeepAlive := BitVec.ofInt 64 moment.now
  let verifyToken := moment.randomBytes 4
  let connection :=
    { connection with networkInfo := { connection.networkInfo with lastKeepAlive, verifyToken } }
  let connection ← connection.post host 4 (writeNumeric (k := 8) lastKeepAlive)
  let connection ← connection.post host 5 (writeArray verifyToken writeUnsignedByte)
  let connection ← connection.post host 12
    (writePrefixedArray [⟨utf8 "minecraft", utf8 "vanilla"⟩] writeIdentifier)
  let connection ← sendInitial host moment .config connection
  let connection ← host.registries.foldlM (fun connection registry =>
    connection.post host 7 (writeNetworkRegistry registry)) connection
  connection.sendDisconnect host (TextComponent.plain "Currently WIP").encode

/-- The ban that is found for a connection. -/
def matchedBan (host : Host) (moment : Moment) (connection : ZincConnection) : Option BanData :=
  moment.bans.find? (BanData.isFor host.config connection)

/-- The part of Config Info that looks at the bans: whether the player is turned away. -/
def checkBan (host : Host) (moment : Moment) (connection : ZincConnection) :
    Except Fault (Bool × ZincConnection) :=
  match matchedBan host moment connection with
  | some banData => connection.sendBanMessage host moment banData
  | none => .ok (false, connection)

def configInfo (host : Host) (moment : Moment) (data : ByteBuffer) (connection : ZincConnection) :
    Except Fault Handled := do
  let (turnedAway, connection) ← checkBan host moment connection
  if turnedAway then leave (.ok connection)
  else
    let (settingsInfo, _) ← readSettings host.config.viewDistance data
    done (sendConfiguration host moment { connection with settingsInfo })

def pluginMessage (host : Host) (moment : Moment) (data : ByteBuffer) (connection : ZincConnection) :
    Except Fault ZincConnection := do
  let (channel, _) ← readIdentifier data
  callPluginChannel host moment channel.toString connection

def keepAlive (host : Host) (data : ByteBuffer) (connection : ZincConnection) :
    Except Fault ZincConnection := do
  let (keepAlive, _) ← readNumeric 8 data
  if connection.networkInfo.lastKeepAlive ≠ keepAlive then
    connection.sendLoginError host "Server received invalid keep alive packet"
  else return { connection with networkInfo := { connection.networkInfo with lastKeepAlive := -1 } }

def ping (host : Host) (data : ByteBuffer) (connection : ZincConnection) :
    Except Fault ZincConnection := do
  let (ping, _) ← readArray readUnsignedByte 4 data
  if connection.networkInfo.verifyToken ≠ ping then
    connection.sendLoginError host "Server received invalid ping packet"
  else return connection

end Zinc.Network
