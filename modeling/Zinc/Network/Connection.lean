import Zinc.Base.Trace
import Zinc.Buffer.Codec
import Zinc.Network.Crypto

/-! `ZincPacket` and `ZincConnection` with the two ends of its socket. The input
of a connection is what libevent has buffered, its output what was passed to
`bufferevent_write`, kept as one entry a packet. `read` looks at the whole
buffered input, decrypts all of it, and drains one frame; its `size_t`
subtractions and the sizes it asks for are reported as calls. -/

namespace Zinc.Network

open Throw Buffer Buffer.ByteBuffer

structure ZincPacket where
  id : BitVec 32
  data : ByteBuffer

namespace ZincPacket

/-- `ZincPacket(const int&)`. -/
def ofId (id : BitVec 32) : ZincPacket := ⟨id, .new⟩

/-- `setData`: appends the written bytes of a buffer. -/
def setData (data : ByteBuffer) (packet : ZincPacket) : Except Fault ZincPacket := do
  let ((), written) ← writeBytes data.getBytes { packet.data with isBigEndian := data.isBigEndian }
  let recycled := data.internalBuffer.enableBlockRecycle
  return { packet with
    data := { written with internalBuffer := written.internalBuffer.toggleBlockRecycle recycled } }

/-- `ZincPacket(const int&, const ByteBuffer&)`. -/
def ofData (id : BitVec 32) (data : ByteBuffer) : Except Fault ZincPacket := (ofId id).setData data

/-- `getData() const`: a copy of the written bytes. -/
def getData (packet : ZincPacket) : Except Fault ByteBuffer := do
  let ((), written) ← writeBytes packet.data.getBytes ⟨.new, packet.data.isBigEndian⟩
  let recycled := packet.data.internalBuffer.enableBlockRecycle
  return { written with internalBuffer := written.internalBuffer.toggleBlockRecycle recycled }

end ZincPacket

/-- `ZincConnection::State`. -/
inductive State where
  | handshake
  | status
  | login
  | transfer
  | config
  | play
  deriving DecidableEq

structure ZincConnectionProperty where
  name : Bytes
  value : Bytes
  signature : Option Bytes
  deriving DecidableEq

structure NetworkInfo where
  serverAddr : Bytes
  serverPort : BitVec 16
  protocolVersion : BitVec 32
  verifyToken : Bytes
  lastKeepAlive : BitVec 64
  deriving DecidableEq

structure PlayerInfo where
  playerName : Bytes
  playerUUID : UUID
  properties : List ZincConnectionProperty
  deriving DecidableEq

structure SettingsInfo where
  locale : Bytes
  renderDistance : UInt8
  chatMode : BitVec 32
  enableChatColors : Bool
  skinParts : UInt8
  mainHand : BitVec 32
  enableTextFiltering : Bool
  enableServerListing : Bool
  particleStatus : BitVec 32
  deriving DecidableEq

/-- A packet as it was sent: the state it was sent in and its bytes on the wire. -/
structure Sent where
  state : State
  id : BitVec 32
  data : Bytes
  wire : Bytes
  deriving DecidableEq

structure ZincConnection where
  ip : Bytes
  input : Bytes
  output : List Sent
  state : State
  isCompressed : Bool
  isEncrypted : Bool
  encrypt : AESWrapper
  decrypt : AESWrapper
  openedLoginPluginChannels : List (Bytes × Bytes)
  networkInfo : NetworkInfo
  playerInfo : PlayerInfo
  settingsInfo : SettingsInfo
  kickAtLogin : ℕ
  loginFinished : Bool
  shouldContinue : Bool
  deriving DecidableEq

/-- What `read` computes and asks for on the way. -/
inductive Call where
  | sub (a b : ℕ)
  | readBytes (length : ℕ)
  | uncompress (size : ℕ)

abbrev Read (α : Type) := Traced Call Fault α

/-- The number of values of a `size_t`. -/
def sizeRange : ℕ := 2 ^ 64

/-- A subtraction of `size_t`, which wraps below zero. -/
def wrapSub (a b : ℕ) : ℕ := (a + sizeRange - b) % sizeRange

def subSize (a b : ℕ) : Read ℕ := .call (.sub a b) (.ok (wrapSub a b))

namespace TCPUtil

/-- `TCPUtil::read`: a copy of the buffered input. -/
def read (input : Bytes) : Except Fault ByteBuffer :=
  if maxSize < input.length then .error .lengthError
  else do
    let ((), buffer) ← writeBytes input .new
    return buffer

/-- `TCPUtil::drain`. -/
def drain (input : Bytes) (length : ℕ) : Bytes := input.drop length

end TCPUtil

namespace ZincConnection

/-- The constructor with the members that it leaves uninitialised. -/
def new (ip : Bytes) (networkInfo : NetworkInfo) (settingsInfo : SettingsInfo) : ZincConnection where
  ip := ip
  input := []
  output := []
  state := .handshake
  isCompressed := false
  isEncrypted := false
  encrypt := .new
  decrypt := .new
  openedLoginPluginChannels := []
  networkInfo := { networkInfo with serverAddr := [], verifyToken := [] }
  playerInfo := ⟨[], nilUUID, []⟩
  settingsInfo := { settingsInfo with locale := [] }
  kickAtLogin := 0
  loginFinished := false
  shouldContinue := true

def setupEncryption (secret : Bytes) (connection : ZincConnection) : ZincConnection :=
  { connection with
    encrypt := (connection.encrypt.setKey secret).setIV secret
    decrypt := (connection.decrypt.setKey secret).setIV secret
    isEncrypted := true }

/-! ### Reading -/

/-- The first part of `read`: a buffer with the decrypted input. -/
def receive (libs : Libraries) (connection : ZincConnection) :
    Except Fault (ByteBuffer × ZincConnection) := do
  let tmpBuffer ← TCPUtil.read connection.input
  if connection.isEncrypted then
    let (data, _) ← readArray readUnsignedByte tmpBuffer.size tmpBuffer
    let (data, decrypt) ← connection.decrypt.decryptCFB8 libs data
    let ((), buffer) ← writeArray data writeUnsignedByte .new
    return (buffer, { connection with decrypt })
  else
    let ((), buffer) ← writeBytes tmpBuffer.getBytes .new
    return (buffer, connection)

/-- `readBytes` with a computed size. -/
def readSized (length : ℕ) (buffer : ByteBuffer) : Read (Bytes × ByteBuffer) :=
  .call (.readBytes length) (readBytes length buffer)

/-- The id and the data of a packet, with the number of bytes that stand in front
of the id and are counted in the length. -/
def readIdAndData (length counted : ℕ) (buffer : ByteBuffer) : Read (BitVec 32 × Bytes) := do
  let (packetId, buffer) ← .lift (readVarInt buffer)
  let n ← subSize length (getVarNumericLength (k := 4) packetId + counted)
  let (data, _) ← readSized n buffer
  pure (packetId, data)

/-- The last part of `read`: what stands behind the length of a frame. -/
def readFrame (libs : Libraries) (isCompressed : Bool) (length : ℕ) (buffer : ByteBuffer) :
    Read (BitVec 32 × Bytes) :=
  if isCompressed then do
    let (value, buffer) ← .lift (readVarInt buffer)
    let dataLength := toSize value
    if dataLength ≠ 0 then do
      let n ← subSize length (getVarNumericLength (k := 4) (toInt dataLength))
      let (compressed, _) ← readSized n buffer
      let ((), tmpBuffer) ← .lift (writeBytes compressed .new)
      let uncompressed ← .call (.uncompress dataLength)
        (uncompress libs tmpBuffer.getBytes dataLength)
      let ((), buffer) ← .lift (writeBytes uncompressed .new)
      readIdAndData dataLength 0 buffer
    else readIdAndData length 1 buffer -- 1 = size of varint(0)
  else readIdAndData length 0 buffer

/-- `ZincConnection::read`. -/
def read (libs : Libraries) (connection : ZincConnection) : Read (ZincPacket × ZincConnection) := do
  let (buffer, connection) ← .lift (connection.receive libs)
  let (value, buffer) ← .lift (readVarInt buffer)
  let length := toSize value
  if buffer.size < length then pure (.ofId (-1), connection) -- wait for more data
  else do
    let drained := getVarNumericLength (k := 4) (toInt length) + length
    let connection := { connection with input := TCPUtil.drain connection.input drained
                                        shouldContinue := false }
    let (packetId, data) ← readFrame libs connection.isCompressed length buffer
    let ((), dataBuffer) ← .lift (writeBytes data .new)
    let packet ← .lift (ZincPacket.ofData packetId dataBuffer)
    pure (packet, connection)

/-! ### Sending -/

/-- The frame of a packet before encryption. -/
def frame (libs : Libraries) (threshold : BitVec 32) (packet : ZincPacket)
    (connection : ZincConnection) : Except Fault ByteBuffer := do
  let data ← packet.getData
  let idLength := getVarNumericLength (k := 4) packet.id
  let dataLength := toInt (idLength + data.size)
  if connection.isCompressed then
    if dataLength.slt threshold then
      let ((), tmpData) ← (do
        writeVarInt (1 + dataLength)
        writeVarInt 0
        writeVarInt packet.id
        writeBytes data.getBytes : Action Unit) .new
      return tmpData
    else
      let ((), tmpData) ← (do
        writeVarInt packet.id
        writeBytes data.getBytes : Action Unit) .new
      let ((), compressedData) ← writeBytes (compress libs tmpData.getBytes) .new
      let ((), tmpData) ← (do
        writeVarInt (toInt (getVarNumericLength (k := 4) dataLength + compressedData.size))
        writeVarInt dataLength
        writeByteArray compressedData.getBytes : Action Unit) tmpData.clear
      return tmpData
  else
    let ((), tmpData) ← (do
      writeVarInt dataLength
      writeVarInt packet.id
      writeBytes data.getBytes : Action Unit) .new
    return tmpData

/-- `ZincConnection::send`. -/
def send (libs : Libraries) (threshold : BitVec 32) (packet : ZincPacket)
    (connection : ZincConnection) : Except Fault ZincConnection := do
  let tmpData ← connection.frame libs threshold packet
  let sent := fun wire => Sent.mk connection.state packet.id packet.data.getBytes wire
  if connection.isEncrypted then
    let (bytes, _) ← readArray readUnsignedByte tmpData.size tmpData
    let (bytes, encrypt) ← connection.encrypt.encryptCFB8 libs bytes
    let ((), data) ← writeArray bytes writeUnsignedByte .new
    return { connection with encrypt, output := connection.output ++ [sent data.getBytes] }
  else
    let ((), data) ← writeBytes tmpData.getBytes .new
    return { connection with output := connection.output ++ [sent data.getBytes] }

end ZincConnection

end Zinc.Network
