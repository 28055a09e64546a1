import Zinc.Base.Blocks
import Zinc.Network.Accounts
import Zinc.Network.BanFile

/-! The address of a connection and the bans for it. `setAddr` gives `inet_ntop` a
string of 46 bytes to write into and never shortens it, so what the connection keeps
is the text with all the NULs behind it. A ban holds the text itself: the two have
different lengths, and no IP ban is ever found by its address. -/

namespace Zinc.Network

open Throw History Buffer Buffer.ByteBuffer ZincConnection

/-! ### `setAddr` -/

/-- `INET6_ADDRSTRLEN`. -/
def inet6AddrStrLen : ℕ := 46

/-- The address in a `sockaddr`; whatever is not `AF_INET` is read as IPv6. -/
inductive SockAddr where
  | inet (sinAddr : BitVec 32)
  | inet6 (sin6Addr : BitVec 128)

/-- `inet_ntop`, given the text of each address: it writes the text and a NUL if there
is room for both. -/
def inetNtop (text : SockAddr → Bytes) (addr : SockAddr) (dst : Bytes) (size : ℕ) : Bytes :=
  if (text addr).length < size then Blocks.overwrite dst 0 (text addr ++ [0]) else dst

/-- `TCPConnection::setAddr`. -/
def ZincConnection.setAddr (text : SockAddr → Bytes) (addr : SockAddr) (connection : ZincConnection) :
    ZincConnection :=
  { connection with ip := inetNtop text addr (zeros inet6AddrStrLen) inet6AddrStrLen }

variable {text : SockAddr → Bytes} {addr : SockAddr} {host : Host} {moment : Moment} {online : ℤ}
  {c c' : ZincConnection} {ban : BanData}

theorem length_ip_setAddr : (c.setAddr text addr).ip.length = inet6AddrStrLen := by
  unfold setAddr inetNtop
  split
  next hroom =>
    rw [Blocks.length_overwrite, length_zeros]
    rw [length_zeros, List.length_append, List.length_singleton]
    omega
  next => exact length_zeros _

/-- No text that fits comes back. -/
theorem ip_setAddr_ne (hroom : (text addr).length < inet6AddrStrLen) :
    (c.setAddr text addr).ip ≠ text addr := by
  intro h
  rw [← h, length_ip_setAddr] at hroom
  exact lt_irrefl _ hroom

/-! ### The connections of an address -/

/-- A connection that `onAccept` made for an address. -/
def AcceptsFrom (text : SockAddr → Bytes) (addr : SockAddr) (c : ZincConnection) : Prop :=
  ∃ networkInfo settingsInfo kickAtLogin,
    c = { (ZincConnection.new (utf8 "0.0.0.0") networkInfo settingsInfo).setAddr text addr with
      kickAtLogin := kickAtLogin }

/-- The histories of the connections of an address. -/
abbrev AddressRun (text : SockAddr → Bytes) (addr : SockAddr) (host : Host) :
    Past ZincConnection Input → ZincConnection → Prop :=
  Run (AcceptsFrom text addr) (Step host)

theorem AcceptsFrom.accepts (h : AcceptsFrom text addr c) : Accepts c := by
  obtain ⟨networkInfo, settingsInfo, kickAtLogin, rfl⟩ := h
  exact ⟨_, networkInfo, settingsInfo, kickAtLogin, rfl⟩

/-- The address stays as `setAddr` left it. -/
theorem ip_of_addressRun {past : Past ZincConnection Input} (h : AddressRun text addr host past c) :
    c.ip = inetNtop text addr (zeros inet6AddrStrLen) inet6AddrStrLen := by
  induction h with
  | start h =>
    obtain ⟨networkInfo, settingsInfo, kickAtLogin, rfl⟩ := h
    rfl
  | next h hstep ih => exact hstep.standing_eq.1.trans ih

/-! ### The bans of an address -/

/-- A ban of an address that one of the functions made, or that was loaded. -/
inductive IpBan (host : Host) (ip : Bytes) : BanData → Prop
  | banIp (b : Banning) : IpBan host ip (b.banIp host.base64 ip)
  | tempBanIp (b : Banning) (time : BitVec 64) : IpBan host ip (b.tempBanIp host.base64 ip time)
  | loaded {n : ℕ} {uninitialised : Bool × BitVec 64} {json : Json} {ban : BanData}
      (hip : constMember "ip" json = .ok (.string ip))
      (hload : loadBan host n true uninitialised json = .ok ban) : IpBan host ip ban

theorem IpBan.isAbout {ip : Bytes} (h : IpBan host ip ban) : (Unban.ip ip).isAbout ban = true := by
  cases h with
  | banIp b => simp [Unban.isAbout, Banning.banIp, Banning.banData]
  | tempBanIp b time =>
    simp [Unban.isAbout, Banning.tempBanIp, Banning.temporary, Banning.banIp, Banning.banData]
  | loaded hip hload =>
    unfold loadBan at hload
    obtain ⟨playerIp, hplayerIp, hload⟩ := bind_eq_ok.mp hload
    obtain ⟨playerName, -, hload⟩ := bind_eq_ok.mp hload
    obtain ⟨uuid, -, hload⟩ := bind_eq_ok.mp hload
    obtain ⟨code, -, hload⟩ := bind_eq_ok.mp hload
    obtain ⟨reason, -, hload⟩ := bind_eq_ok.mp hload
    obtain ⟨banTime, -, hload⟩ := bind_eq_ok.mp hload
    obtain ⟨banId, -, hload⟩ := bind_eq_ok.mp hload
    obtain ⟨bannedBy, -, hload⟩ := bind_eq_ok.mp hload
    obtain ⟨⟨isTemporaryban, time⟩, -, hload⟩ := bind_eq_ok.mp hload
    cases hload
    rw [loadIp, if_pos rfl, hip] at hplayerIp
    obtain rfl : ip = playerIp := Except.ok.inj hplayerIp
    simp [Unban.isAbout]

/-- The ban is meant for the player whatever the address. -/
def BanData.Names (config : ZincConfig) (connection : ZincConnection) (ban : BanData) : Prop :=
  (connection.playerInfo.playerName = ban.playerName ∧ config.onlineMode = false) ∨
    (connection.playerInfo.playerUUID = ban.playerUUID ∧ config.onlineMode = true)

/-- The address of a connection decides about no ban of that address. -/
theorem isFor_iff_names {past : Past ZincConnection Input} (hrun : AddressRun text addr host past c)
    (hroom : (text addr).length < inet6AddrStrLen) (hban : IpBan host (text addr) ban) :
    ban.isFor host.config c = true ↔ ban.Names host.config c := by
  have hip : c.ip ≠ ban.playerIp := by
    have habout := hban.isAbout
    simp only [Unban.isAbout, Bool.decide_and, Bool.and_eq_true, decide_eq_true_eq] at habout
    rw [ip_of_addressRun hrun, habout.1]
    exact ip_setAddr_ne (c := c) hroom
  simp [BanData.isFor, BanData.Names, hip]

/-! ### A player with another name -/

theorem setupCompression_total (hstate : c.state = .login) (henc : c.isEncrypted = false) :
    ∃ c', c.setupCompression host = .ok c' ∧ c'.state = .login ∧ c'.isEncrypted = false ∧
      c'.playerInfo = c.playerInfo := by
  obtain ⟨c₁, hpost⟩ := @post_total_plain host c 3 _ _ (produces_writeVarInt host.config.threshold) henc
  obtain ⟨encrypt, new, rfl, -⟩ := post_eq_ok hpost
  refine ⟨{ c with encrypt := encrypt, output := c.output ++ new, isCompressed := true }, ?_, hstate,
    henc, rfl⟩
  rw [setupCompression, if_neg (not_not.mpr hstate), hpost]
  rfl

theorem sendEncryptionRequest_plain (moment : Moment) (henc : c.isEncrypted = false) :
    ∃ c', sendEncryptionRequest host moment c = .ok c' ∧ c'.state = c.state ∧
      c'.playerInfo = c.playerInfo := by
  obtain ⟨c', hpost⟩ := @post_total_plain host
    { c with networkInfo := { c.networkInfo with verifyToken := moment.randomBytes 64 } } 1 _ _
    (produces_encryptionRequest host (moment.randomBytes 64)) henc
  obtain ⟨encrypt, new, rfl, -⟩ := post_eq_ok hpost
  exact ⟨_, hpost, rfl, rfl⟩

/-- Login Start takes over the name and the UUID, on every server with a place left. -/
theorem loginStart_plain (client : Client) (moment : Moment)
    (hplace : online < host.config.maxPlayerCount) {sent : List (State × BitVec 32)}
    (h : At .login [] sent c) (henc : c.isEncrypted = false) :
    ∃ c', Step host c (client.loginStart moment online) c' ∧ c'.state = .login ∧
      c'.playerInfo.playerName = client.playerName ∧ c'.playerInfo.playerUUID = client.playerUUID := by
  have hv := readable_stored true
  have hstored := stored_packetOfValues 0 (loginStartValues client.playerName client.playerUUID)
  have hname := client.length_playerName
  obtain ⟨data₁, h₁, hs₁⟩ := hv.readValue .string client.playerName
    (show client.playerName.length < 2 ^ 31 by omega) _ _ hstored
  obtain ⟨data₂, h₂, -⟩ := hv.readValue .uuid client.playerUUID trivial _ _ hs₁
  let c₁ : ZincConnection := { c with
    playerInfo := { c.playerInfo with playerName := client.playerName, playerUUID := client.playerUUID } }
  have hrequest : ∃ c', (if (0 : BitVec 32).slt host.config.threshold then do
        let connection ← c₁.setupCompression host
        Handled.done (sendEncryptionRequest host moment connection)
      else Handled.done (sendEncryptionRequest host moment c₁)) = .ok ⟨c', false⟩ ∧
      c'.state = .login ∧ c'.playerInfo = c₁.playerInfo := by
    split
    · obtain ⟨c₂, hc₂, hstate₂, henc₂, hplayer₂⟩ := @setupCompression_total host c₁ h.state_eq henc
      obtain ⟨c₃, hc₃, hstate₃, hplayer₃⟩ := @sendEncryptionRequest_plain host c₂ moment henc₂
      rw [hc₂, ok_bind, hc₃]
      exact ⟨c₃, rfl, hstate₃.trans hstate₂, hplayer₃.trans hplayer₂⟩
    · obtain ⟨c₃, hc₃, hstate₃, hplayer₃⟩ := @sendEncryptionRequest_plain host c₁ moment henc
      rw [hc₃]
      exact ⟨c₃, rfl, hstate₃.trans h.state_eq, hplayer₃⟩
  obtain ⟨c', hc', hstate, hplayer⟩ := hrequest
  refine ⟨c', Step.of_switchLogin (r := false) (show (0 : BitVec 32).msb = false by decide) h.state_eq ?_,
    hstate, by rw [hplayer], by rw [hplayer]⟩
  change loginStart host moment online
    (packetOfValues 0 (loginStartValues client.playerName client.playerUUID)).data c = _
  unfold loginStart
  rw [if_neg (not_not.mpr h.kickAtLogin), if_neg (not_le.mpr hplace), h.protocolVersion,
    if_neg (by decide), if_neg (by decide), show readString _ = _ from h₁, ok_bind]
  simp only [show readUUID _ = _ from h₂, ok_bind, if_neg (not_lt.mpr hname)]
  exact hc'

/-- Every player gets from every address to the state `Config`. -/
theorem exists_addressRun (text : SockAddr → Bytes) (addr : SockAddr) (host : Host) (client : Client) :
    ∃ past c, AddressRun text addr host past c ∧ c.state = .config ∧
      c.playerInfo.playerName = client.playerName ∧ c.playerInfo.playerUUID = client.playerUUID := by
  have hfrom : AcceptsFrom text addr _ := ⟨⟨[], 0, 0, [], 0⟩, ⟨[], 0, 0, false, 0, 0, false, false, 0⟩, 0, rfl⟩
  obtain ⟨c₁, hstep₁, hat⟩ := @handshake_step host _ (sampleMoment []) 0 hfrom.accepts rfl
  have hplace : host.config.maxPlayerCount - 1 < host.config.maxPlayerCount := sub_one_lt _
  obtain ⟨c₂, hstep₂, hstate, hname, huuid⟩ := loginStart_plain client (sampleMoment []) hplace hat
    (hat.plain (by simp)).1
  have hstep₃ : Step host c₂ (Client.loginAck (sampleMoment []) 0) (loginAck c₂) :=
    Step.of_switchLogin (r := false) (show (3 : BitVec 32).msb = false by decide) hstate rfl
  exact ⟨_, _, ((Run.start hfrom).next hstep₁ |>.next hstep₂).next hstep₃, rfl, hname, huuid⟩

/-- Some player from the address is not the one that the ban names. -/
theorem exists_not_names (text : SockAddr → Bytes) (addr : SockAddr) (host : Host) (ban : BanData) :
    ∃ past c, AddressRun text addr host past c ∧ c.state = .config ∧ ¬ ban.Names host.config c := by
  have hname : ∃ playerName : Bytes, playerName.length ≤ 16 ∧ playerName ≠ ban.playerName := by
    by_cases h : ban.playerName = [65]
    · exact ⟨[66], by decide, by simp [h]⟩
    · exact ⟨[65], by decide, fun heq => h heq.symm⟩
  have huuid : ∃ playerUUID : UUID, playerUUID ≠ ban.playerUUID := by
    by_cases h : ban.playerUUID = nilUUID
    · exact ⟨⟨List.replicate 16 1, rfl⟩, by rw [h]; decide⟩
    · exact ⟨nilUUID, fun heq => h heq.symm⟩
  obtain ⟨playerName, hlength, hname⟩ := hname
  obtain ⟨playerUUID, huuid⟩ := huuid
  obtain ⟨past, c, hrun, hstate, hc₁, hc₂⟩ := exists_addressRun text addr host
    { sampleClient with playerName, playerUUID, length_playerName := hlength }
  refine ⟨past, c, hrun, hstate, ?_⟩
  rintro (⟨h, -⟩ | ⟨h, -⟩)
  · exact hname (hc₁.symm.trans h)
  · exact huuid (hc₂.symm.trans h)

/-! ### IP bans -/

/-- Config Info finds the ban for every connection from an address. -/
def Found (text : SockAddr → Bytes) (addr : SockAddr) (host : Host) (ban : BanData) : Prop :=
  ∀ past c, AddressRun text addr host past c → c.state = .config → ban.isFor host.config c = true

/-- `unbanIp` leaves the list without the bans of an address. -/
def Lifted (ip : Bytes) (bans bans' : List BanData) : Prop :=
  bans' = bans.filter fun ban => !(Unban.ip ip).isAbout ban

/-- The list keeps its length, so that the ban of an address is never lifted. -/
theorem IpBan.not_lifted {ip : Bytes} {bans bans' : List BanData} (h : IpBan host ip ban)
    (hmem : ban ∈ bans) (hunban : unbanIp ip bans bans') : ¬ Lifted ip bans bans' := by
  intro hlifted
  have hnone := (RemoveIf.eq_filter_iff hunban).mp hlifted ban hmem
  rw [show decide (ban.playerIp = ip ∧ ban.isIpBan) = true from h.isAbout] at hnone
  cases hnone

/-- Whatever the address, its bans are found for exactly the players whom they name, which
is not everyone who connects from there, and `unbanIp` does not lift them. -/
theorem ipBan_fails (hroom : (text addr).length < inet6AddrStrLen) (hban : IpBan host (text addr) ban) :
    (∀ past c, AddressRun text addr host past c →
      (ban.isFor host.config c = true ↔ ban.Names host.config c)) ∧
    ¬ Found text addr host ban ∧
    ∀ bans bans', ban ∈ bans → unbanIp (text addr) bans bans' → ¬ Lifted (text addr) bans bans' := by
  refine ⟨fun past c hrun => isFor_iff_names hrun hroom hban, fun hfound => ?_,
    fun bans bans' => hban.not_lifted⟩
  obtain ⟨past, c, hrun, hstate, hnames⟩ := exists_not_names text addr host ban
  exact hnames ((isFor_iff_names hrun hroom hban).mp (hfound past c hrun hstate))

/-- The four numbers of an IPv4 address; the groups of an IPv6 address, all written out. -/
def plainText : SockAddr → Bytes
  | .inet sinAddr =>
    [46].intercalate ([24, 16, 8, 0].map fun i => decimal ((sinAddr >>> i).toNat % 256))
  | .inet6 sin6Addr =>
    [58].intercalate ((List.range 8).map fun i =>
      utf8 (String.ofList (Nat.toDigits 16 ((sin6Addr >>> (112 - 16 * i)).toNat % 65536))))

/-- 127.0.0.1. -/
def loopback : SockAddr := .inet 0x7F000001

theorem plainText_loopback : plainText loopback = utf8 "127.0.0.1" := by decide +kernel

/-- The ban of 127.0.0.1 stays in the list. -/
theorem ipBan_fails_loopback : ¬ ∃ bans',
    unbanIp (plainText loopback) [sampleBanning.banIp sampleHost.base64 (plainText loopback)] bans' ∧
      Lifted (plainText loopback) [sampleBanning.banIp sampleHost.base64 (plainText loopback)] bans' := by
  rintro ⟨bans', hremoved, hlifted⟩
  have hroom : (plainText loopback).length < inet6AddrStrLen := by rw [plainText_loopback]; decide
  have hban : IpBan sampleHost (plainText loopback)
      (sampleBanning.banIp sampleHost.base64 (plainText loopback)) := .banIp sampleBanning
  obtain ⟨-, -, hunban⟩ := ipBan_fails hroom hban
  exact hunban _ bans' (List.mem_singleton_self _) hremoved hlifted

/-- The ban of 127.0.0.1 is not found for a player who connects from there. -/
theorem not_found_loopback : ¬ Found plainText loopback sampleHost
    (sampleBanning.banIp sampleHost.base64 (utf8 "127.0.0.1")) := by
  intro hfound
  obtain ⟨past, c, hrun, hstate, hname, -⟩ := exists_addressRun plainText loopback sampleHost sampleClient
  have hroom : (plainText loopback).length < inet6AddrStrLen := by rw [plainText_loopback]; decide
  have hban : IpBan sampleHost (plainText loopback)
      (sampleBanning.banIp sampleHost.base64 (utf8 "127.0.0.1")) := by
    rw [← plainText_loopback]
    exact .banIp sampleBanning
  obtain ⟨hplayer, -⟩ | ⟨-, honline⟩ := (isFor_iff_names hrun hroom hban).mp (hfound past c hrun hstate)
  · rw [hname] at hplayer
    cases hplayer
  · cases honline

end Zinc.Network
