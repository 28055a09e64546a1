import Zinc.Base.Json
import Zinc.Buffer.Codec

/-! The libraries behind cookies and the list of bans: JSON documents, Base64, and
the RSA key of the cookies. What the JSON library does with a value that has been
parsed is written out; the texts of documents are parameters. -/

namespace Zinc.Network

open Buffer

/-- `nlohmann::json` as far as texts and floats are concerned. -/
structure JsonText where
  /-- `parse`, if it does not throw. -/
  parse : Bytes → Option Json
  /-- `dump()`. -/
  dump : Json → Bytes
  /-- `dump(4)`. -/
  dumpIndented : Json → Bytes
  /-- Whether a float is less than an integer. -/
  floatLess : BitVec 64 → ℤ → Bool
  /-- The cast of a float to a `long`. -/
  floatToLong : BitVec 64 → BitVec 64

structure Base64 where
  encode : Bytes → Bytes
  decode : Bytes → Bytes

/-- `m_cookieRSA` with its key loaded. Encryption draws random bytes, and what
cannot be decrypted decrypts to nothing. -/
structure CookieRSA where
  encrypt : Bytes → Bytes → Bytes
  decrypt : Bytes → Bytes
  sign : Bytes → Bytes
  verify : Bytes → Bytes → Bool

namespace JsonText

/-- The exception of the JSON library when there is nothing. -/
def orThrow {α : Type} : Option α → Except Fault α
  | some a => .ok a
  | none => .error .jsonError

/-- The conversion to `std::string`. -/
def getString (json : Json) : Except Fault Bytes := orThrow json.asString

/-- An integer as a `long`; one above its range wraps. -/
def toLong (value : ℤ) : BitVec 64 := BitVec.ofInt 64 value

/-- The conversion to `long`. -/
def getLong (text : JsonText) : Json → Except Fault (BitVec 64)
  | .integer value => .ok (toLong value)
  | .float bits => .ok (text.floatToLong bits)
  | _ => .error .jsonError

/-- `json < value` for a `long`: two numbers compare as such, where an integer is
first cast to a `long`; other values compare by their types. -/
def lessLong (text : JsonText) (value : ℤ) : Json → Bool
  | .integer n => (toLong n).toInt < value
  | .float bits => text.floatLess bits value
  | .null => true
  | .boolean _ => true
  | _ => false

end JsonText

end Zinc.Network
