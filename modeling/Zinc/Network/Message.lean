import Zinc.Network.Config
import Zinc.Text.Component

/-! The messages that a connection sends on its own: text components with the
NBT and the JSON that stand for them, disconnects, login errors, ban messages,
plugin messages and cookie requests. Each chooses its packet id by the state of
the connection and sends nothing in the other states. -/

namespace Zinc.Network

open Throw Buffer Buffer.ByteBuffer Nbt

/-! ### Texts -/

/-- A `TextComponent` with the members that the server's own texts use. -/
structure TextComponent where
  text : Bytes
  color : Option Bytes
  bold : Option Bool
  extra : List TextComponent

namespace TextComponent

/-- `TextComponentBuilder().text(text)` with a color. -/
def colored (text color : String) : TextComponent := ⟨utf8 text, some (utf8 color), none, []⟩

def plain (text : String) : TextComponent := ⟨utf8 text, none, none, []⟩

mutual

def encode : TextComponent → NBTElement
  | ⟨text, color, bold, extra⟩ =>
    let elements := encodeAll extra
    NBTElement.compound []
      ([NBTElement.string (utf8 "type") (utf8 "text"), NBTElement.string (utf8 "text") text] ++
      (if elements.isEmpty then [] else [NBTElement.list (utf8 "extra") elements]) ++
      (color.toList.map (NBTElement.string (utf8 "color"))) ++
      (bold.toList.map fun value => NBTElement.byte (utf8 "bold") (if value then 1 else 0)))

def encodeAll : List TextComponent → List NBTElement
  | [] => []
  | text :: texts => encode text :: encodeAll texts

end

mutual

/-- The component with all its members, as the builder makes it. -/
def full : TextComponent → Text.TextComponent
  | ⟨text, color, bold, extra⟩ =>
    { Text.TextComponent.new with
      type := some .text, text := some text, color := color, bold := bold, extra := fullAll extra }

def fullAll : List TextComponent → List Text.TextComponent
  | [] => []
  | text :: texts => full text :: fullAll texts

end

mutual

/-- Without the other members `encode` writes the same elements. -/
theorem full_encode : (t : TextComponent) → t.full.encode = t.encode
  | ⟨text, color, bold, extra⟩ => by
    rw [Text.TextComponent.encode_eq, encode]
    change NBTElement.compound [] (_ :: _ ++
      Text.listElements "extra" (Text.TextComponent.encodeAll (fullAll extra)) ++ _ ++ _ ++ _) = _
    rw [fullAll_encodeAll extra]
    cases color <;> cases bold <;>
      simp [full, Text.TextComponent.new, Text.TextComponent.contentType, Text.ContentType.name,
        Text.TextComponent.contentElements, Text.listElements, Text.TextComponent.styleElements,
        Text.optionalString, Text.optionalFlag, Text.flag, Text.TextComponent.hoverElements]

theorem fullAll_encodeAll : (texts : List TextComponent) →
    Text.TextComponent.encodeAll (fullAll texts) = encodeAll texts
  | [] => rfl
  | text :: texts => by
    rw [fullAll, Text.TextComponent.encodeAll, encodeAll, full_encode text, fullAll_encodeAll texts]

end

end TextComponent

/-- `std::to_string` of an integer. -/
def decimal (value : ℤ) : Bytes := utf8 (toString value)

/-- Each text followed by a comma, without the last comma. -/
def commas (texts : List Bytes) : Bytes := (texts.flatMap fun text => text ++ utf8 ",").dropLast

mutual

/-- `NBTElement::toJSON`. -/
def toJSON (host : Host) : NBTElement → Bytes
  | ⟨_, _, type, byteValue, shortValue, intValue, longValue, floatValue, doubleValue, byteArrayValue,
      stringValue, childElements, intArrayValue, longArrayValue⟩ =>
    match type with
    | .endTag => []
    | .byte =>
      if byteValue = 1 then utf8 "true" else if byteValue = 0 then utf8 "false"
      else decimal byteValue.toInt8.toInt
    | .short => decimal shortValue.toInt
    | .int => decimal intValue.toInt
    | .long => decimal longValue.toInt
    | .float => host.floatText floatValue
    | .double => host.doubleText doubleValue
    | .byteArray => utf8 "[" ++ commas (byteArrayValue.map fun c => decimal c.toInt8.toInt) ++ utf8 "]"
    | .string => utf8 "\"" ++ stringValue ++ utf8 "\""
    | .list => utf8 "[" ++ commas ((childrenToJSON host childElements).map Prod.snd) ++ utf8 "]"
    | .compound =>
      [123] ++ commas ((childrenToJSON host childElements).map fun (tag, json) =>
        utf8 "\"" ++ tag ++ utf8 "\":" ++ json) ++ [125]
    | .intArray => utf8 "[" ++ commas (intArrayValue.map fun n => decimal n.toInt) ++ utf8 "]"
    | .longArray => utf8 "[" ++ commas (longArrayValue.map fun n => decimal n.toInt) ++ utf8 "]"
    | .other _ => [123, 125]

/-- The tags and the texts of the children. -/
def childrenToJSON (host : Host) : List NBTElement → List (Bytes × Bytes)
  | [] => []
  | element :: elements => (element.tag, toJSON host element) :: childrenToJSON host elements

end

/-! ### Packets -/

namespace ZincConnection

/-- Fill a packet and send it. -/
def post (host : Host) (id : BitVec 32) (write : Action Unit) (connection : ZincConnection) :
    Except Fault ZincConnection := do
  let ((), data) ← write .new
  connection.send host.libs host.config.threshold ⟨id, data⟩

def setupCompression (host : Host) (connection : ZincConnection) : Except Fault ZincConnection :=
  if connection.state ≠ .login then .ok connection
  else do
    let connection ← connection.post host 3 (writeVarInt host.config.threshold)
    return { connection with isCompressed := true }

/-- `sendDisconnect(const NBTElement&)`. -/
def sendDisconnect (host : Host) (text : NBTElement) (connection : ZincConnection) :
    Except Fault ZincConnection :=
  match connection.state with
  | .login => connection.post host 0 (writeString (toJSON host text))
  | .config => connection.post host 2 (writeNBTElement text)
  | .play => connection.post host 0x1C (writeNBTElement text)
  | _ => .ok connection

def sendLoginError (host : Host) (errorMessage : String) (connection : ZincConnection) :
    Except Fault ZincConnection :=
  connection.sendDisconnect host (TextComponent.encode
    ⟨utf8 "Zinc Login Error", some (utf8 "dark_red"), some true,
      [.plain "\n", ⟨utf8 errorMessage, some (utf8 "red"), some false, []⟩]⟩)

def sendCookieRequest (host : Host) (cookieId : Identifier) (connection : ZincConnection) :
    Except Fault ZincConnection :=
  match connection.state with
  | .login => connection.post host 5 (writeIdentifier cookieId)
  | .config => connection.post host 0 (writeIdentifier cookieId)
  | .play => connection.post host 0x15 (writeIdentifier cookieId)
  | _ => .ok connection

/-! ### Plugin channels -/

def isLoginPluginChannelOpened (id : Bytes) (connection : ZincConnection) : Bool :=
  connection.openedLoginPluginChannels.any fun (opened, _) => opened = id

/-- The first drawn id that is not in use names the channel; its three bytes are
copied into an `int` on a little-endian machine. -/
def openLoginPluginChannel (moment : Moment) (channel : Bytes) (connection : ZincConnection) :
    Except Fault (BitVec 32 × ZincConnection) :=
  match moment.channelIds.find? fun id => !connection.isLoginPluginChannelOpened id with
  | some id => .ok (BitVec.ofNat 32 (Endian.value (id.take 3)),
      { connection with
        openedLoginPluginChannels := (id, channel) :: connection.openedLoginPluginChannels })
  | none => .error .stuck

def getLoginPluginChannel (id : Bytes) (connection : ZincConnection) : Bytes :=
  match connection.openedLoginPluginChannels.find? fun (opened, _) => opened = id with
  | some (_, channel) => channel
  | none => utf8 "minecraft:brand"

def closeLoginPluginChannel (id : Bytes) (connection : ZincConnection) : ZincConnection :=
  { connection with
    openedLoginPluginChannels :=
      connection.openedLoginPluginChannels.filter fun (opened, _) => opened ≠ id }

def sendPluginMessage (host : Host) (moment : Moment) (pluginChannel : Identifier) (data : Bytes)
    (connection : ZincConnection) : Except Fault ZincConnection :=
  match connection.state with
  | .login => do
    let (id, connection) ← connection.openLoginPluginChannel moment pluginChannel.toString
    connection.post host 4 (do
      writeVarInt id
      writeIdentifier pluginChannel
      writeByteArray data)
  | .config => connection.post host 1 (do
      writeIdentifier pluginChannel
      writeByteArray data)
  | .play => connection.post host 0x18 (do
      writeIdentifier pluginChannel
      writeByteArray data)
  | _ => .ok connection

end ZincConnection

end Zinc.Network
