import Zinc.Network.Message

/-! `sendBanMessage`. A ban that is over starts an unban thread and lets the
player pass; every other one is told to the player. -/

namespace Zinc.Network

open Throw Buffer Buffer.ByteBuffer Nbt

namespace BanData

/-- The ban is not over at a time. -/
def active (ban : BanData) (now : ℤ) : Bool :=
  !(ban.isTemporaryban && 0 ≤ now - ban.banTime && ban.time ≤ now - ban.banTime)

/-- The time since a temporary ban; -1 for any other. -/
def timePassed (ban : BanData) (now : ℤ) : Except Fault ℤ :=
  if ban.isTemporaryban then subLong now ban.banTime else .ok (-1)

/-- The ban is meant for the player of a connection. -/
def isFor (config : ZincConfig) (connection : ZincConnection) (ban : BanData) : Bool :=
  (connection.playerInfo.playerName = ban.playerName && !config.onlineMode) ||
  (connection.playerInfo.playerUUID = ban.playerUUID && config.onlineMode) ||
  (connection.ip = ban.playerIp && ban.isIpBan)

end BanData

/-- The days, hours, minutes and seconds of a number of seconds. -/
def timeString (timePassed : ℤ) : Bytes :=
  let days := timePassed / (3600 * 24)
  let timePassed := timePassed - days * (3600 * 24)
  let hours := timePassed / 3600
  let timePassed := timePassed - hours * 3600
  let minutes := timePassed / 60
  let seconds := timePassed - minutes * 60
  let part := fun (count : ℤ) (unit : String) => if count = 0 then [] else decimal count ++ utf8 unit
  part days "d " ++ part hours "h " ++ part minutes "m " ++ part seconds "s "

/-- What every ban message ends with. -/
def banDetails (config : ZincConfig) (ban : BanData) : List NBTElement :=
  [(TextComponent.colored "Reason: " "gray").encode,
    ban.reason,
    NBTElement.string [] (utf8 "\n"),
    TextComponent.encode
      (if config.unbanSupport.isEmpty then
        .colored "Contact server admin to request unban\n\n" "gray"
      else ⟨utf8 "Find out more: ", some (utf8 "gray"), none,
        [⟨config.unbanSupport ++ utf8 "\n\n", some (utf8 "aqua"), none, []⟩]⟩),
    TextComponent.encode ⟨utf8 "Ban ID: ", some (utf8 "gray"), none,
      [⟨ban.banId ++ utf8 "\n", some (utf8 "white"), none, []⟩,
        .colored "Do not share your Ban ID" "gray"]⟩]

def banText (title : String) (extra : List NBTElement) : NBTElement :=
  NBTElement.compound []
    [NBTElement.string (utf8 "type") (utf8 "text"), NBTElement.string (utf8 "text") (utf8 title),
      NBTElement.string (utf8 "color") (utf8 "red"), NBTElement.list (utf8 "extra") extra]

namespace ZincConnection

/-- `sendBanMessage`: whether the player is turned away, and the connection. -/
def sendBanMessage (host : Host) (moment : Moment) (banData : BanData) (connection : ZincConnection) :
    Except Fault (Bool × ZincConnection) := do
  let timePassed ← banData.timePassed moment.now
  if 0 ≤ timePassed ∧ banData.time ≤ timePassed then .ok (false, connection)
  else
    let banText :=
      if 0 ≤ timePassed then
        banText "You are temporarly banned for "
          (TextComponent.encode ⟨timeString timePassed, some (utf8 "white"), none, []⟩ ::
            (TextComponent.colored "from this server\n\n" "red").encode ::
            banDetails host.config banData)
      else banText "You are permanently banned from this server\n\n" (banDetails host.config banData)
    let connection ← connection.sendDisconnect host banText
    return (true, connection)

end ZincConnection

end Zinc.Network
