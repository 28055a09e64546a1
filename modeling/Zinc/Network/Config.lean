import Zinc.Nbt.Element
import Zinc.Network.Connection
import Zinc.Network.Json

/-! The configuration as far as the modelled functions read it, the code outside
the repository that the server calls, and what a call can find at one moment:
the clock, random bytes, the answers of the session server and the list of bans.
Commands and unban threads change that list at any time, so every moment comes
with a list of its own. -/

namespace Zinc.Network

open Buffer Buffer.ByteBuffer Nbt

structure BanData where
  isIpBan : Bool
  playerIp : Bytes
  playerName : Bytes
  playerUUID : UUID
  banTime : ℤ
  isTemporaryban : Bool
  time : ℤ
  reason : NBTElement
  banId : Bytes
  bannedBy : Bytes

structure ZincConfig where
  threshold : BitVec 32
  motd : Bytes
  maxPlayerCount : ℤ
  iconBase64 : Bytes
  onlineMode : Bool
  rateLimit : ℤ
  maxConcurrentAccount : ℤ
  unbanSupport : Bytes
  viewDistance : ℤ

/-- What does not change while the server runs. -/
structure Host where
  libs : Libraries
  config : ZincConfig
  /-- The plaintext, if decryption succeeds. -/
  decrypt : Bytes → Option Bytes
  publicKeyDER : Bytes
  /-- The dumped JSON of a status response for the player limit, the number of
  online players, the message of the day and the icon. -/
  statusText : ℤ → ℤ → Bytes → Bytes → Bytes
  json : JsonText
  base64 : Base64
  cookieRSA : CookieRSA
  /-- `std::to_string` of a float and of a double. -/
  floatText : BitVec 32 → Bytes
  doubleText : BitVec 64 → Bytes
  registries : List (Bytes × List (Bytes × NBTElement))

/-- How far one attempt to read an answer of the session server gets before it
throws, if it throws at all. -/
structure SessionAnswer where
  playerUUID : Option UUID
  playerName : Option Bytes
  properties : List ZincConnectionProperty
  finished : Bool

/-- What the handler of one packet can find. -/
structure Moment where
  now : ℤ
  randomBytes : ℕ → Bytes
  length_randomBytes : ∀ n, (randomBytes n).length = n
  /-- The ids drawn for a login plugin channel, each of three random bytes. -/
  channelIds : List Bytes
  length_channelIds : ∀ id ∈ channelIds, id.length = 3
  /-- The answers for a player name and a shared secret, by attempt. -/
  session : Bytes → Bytes → ℕ → SessionAnswer
  bans : List BanData

namespace RSAWrapper

/-- `RSAWrapper::decrypt`: the empty vector on failure. -/
def decrypt (host : Host) (encryptedData : Bytes) : Bytes := (host.decrypt encryptedData).getD []

end RSAWrapper

/-- A difference of two `long`s; an overflow is undefined. -/
def subLong (a b : ℤ) : Except Fault ℤ :=
  if -2 ^ 63 ≤ a - b ∧ a - b < 2 ^ 63 then .ok (a - b) else .error .undefined

/-- A sum of two `long`s. -/
def addLong (a b : ℤ) : Except Fault ℤ :=
  if -2 ^ 63 ≤ a + b ∧ a + b < 2 ^ 63 then .ok (a + b) else .error .undefined

end Zinc.Network
