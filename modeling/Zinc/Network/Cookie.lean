import Zinc.Network.Message

/-! Cookies that a client keeps for the server. `storeCookie` encrypts a payload,
signs it together with a nonce and the end of its lifetime, and sends all of it
as a JSON text; `extractCookieData` takes such a text apart again. -/

namespace Zinc.Network

open Throw Buffer Buffer.ByteBuffer JsonText

/-- What `storeCookie` signs and stores. -/
structure Cookie where
  data : Bytes
  nonce : Bytes
  lifetime : ℤ

namespace Cookie

/-- The first part of `storeCookie`, with the random bytes that the encryption draws. -/
def make (host : Host) (moment : Moment) (padding payload : Bytes) (lifetime : ℤ) :
    Except Fault Cookie := do
  let lifetimeResult ← addLong moment.now lifetime
  return {
    data := host.base64.encode (host.cookieRSA.encrypt padding payload)
    nonce := host.base64.encode (moment.randomBytes 32)
    lifetime := lifetimeResult }

def dataToSign (cookie : Cookie) : Except Fault Bytes := do
  let ((), dataToSign) ← (do
    writeString cookie.data
    writeString cookie.nonce
    writeNumeric (k := 8) (BitVec.ofInt 64 cookie.lifetime) : Action Unit) .new
  let (bytes, _) ← readArray readUnsignedByte dataToSign.size dataToSign
  return bytes

def json (host : Host) (cookie : Cookie) : Except Fault Json := do
  let bytes ← cookie.dataToSign
  return .ofMembers [
    (utf8 "lifetime", .integer cookie.lifetime),
    (utf8 "data", .string cookie.data),
    (utf8 "signature", .string (host.base64.encode (host.cookieRSA.sign bytes))),
    (utf8 "nonce", .string cookie.nonce)]

end Cookie

namespace ZincConnection

/-- `storeCookie` in a state that has a packet for it. -/
def sendCookie (host : Host) (moment : Moment) (padding : Bytes) (id : BitVec 32)
    (cookieId : Identifier) (payload : Bytes) (lifetime : ℤ) (connection : ZincConnection) :
    Except Fault ZincConnection := do
  let cookie ← Cookie.make host moment padding payload lifetime
  let json ← cookie.json host
  connection.post host id (do
    writeIdentifier cookieId
    writeString (host.json.dump json))

def storeCookie (host : Host) (moment : Moment) (padding : Bytes) (cookieId : Identifier)
    (payload : Bytes) (lifetime : ℤ) (connection : ZincConnection) : Except Fault ZincConnection :=
  match connection.state with
  | .config => connection.sendCookie host moment padding 0x0A cookieId payload lifetime
  | .play => connection.sendCookie host moment padding 0x71 cookieId payload lifetime
  | _ => .ok connection

/-! ### The way back -/

/-- `catch (const std::exception&)`. -/
def catchException {α : Type} (handler : α) : Except Fault α → Except Fault α
  | .error .lengthError => .ok handler
  | .error .badFunctionCall => .ok handler
  | .error .jsonError => .ok handler
  | result => result

/-- The part of `extractCookieData` behind the parser. -/
def checkCookie (host : Host) (now : ℤ) (errorBuffer : ByteBuffer) (json : Json) :
    Except Fault ByteBuffer :=
  match json.member (utf8 "signature"), json.member (utf8 "lifetime"), json.member (utf8 "nonce"),
    json.member (utf8 "data") with
  | some signature, some lifetime, some nonce, some data =>
    if host.json.lessLong now lifetime then .ok errorBuffer
    else do
      let data ← getString data
      let nonce ← getString nonce
      let lifetime ← host.json.getLong lifetime
      let ((), totalDataToVerify) ← (do
        writeString data
        writeString nonce
        writeNumeric (k := 8) lifetime : Action Unit) .new
      let (bytes, _) ← readArray readUnsignedByte totalDataToVerify.size totalDataToVerify
      let signature ← getString signature
      if host.cookieRSA.verify bytes (host.base64.decode signature) then
        let ((), cookieData) ← (do
          writeByte 1
          writePrefixedArray (host.cookieRSA.decrypt (host.base64.decode data)) writeUnsignedByte
          : Action Unit) .new
        return cookieData
      else return errorBuffer
  | _, _, _, _ => .ok errorBuffer

def extractCookieData (host : Host) (now : ℤ) (cookieRawData : ByteBuffer) :
    Except Fault ByteBuffer := do
  let ((), errorBuffer) ← writeByte 0 .new
  let (stringPayload, _) ← readString cookieRawData
  catchException errorBuffer (do
    let json ← orThrow (host.json.parse stringPayload)
    checkCookie host now errorBuffer json)

end ZincConnection

end Zinc.Network
