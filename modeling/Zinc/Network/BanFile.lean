import Zinc.Nbt.Accepted
import Zinc.Network.BanList
import Zinc.Network.Session
import Mathlib.Data.List.Forall2

/-! The list of bans on disk. A ban becomes a JSON object; its reason goes through
network NBT and Base64, and its time is written only if it is temporary. Loading
takes a ban with a time for a temporary one and leaves the flag of the others
uninitialised. -/

namespace Zinc.Network

open Throw Buffer Buffer.ByteBuffer Nbt NBTElement JsonText

/-! ### Saving -/

/-- The bytes of a reason. -/
def reasonBytes (reason : NBTElement) : Except Fault Bytes := do
  let ((), buffer) ← writeNBTElement reason .new
  return buffer.getBytes

def saveBan (host : Host) (banData : BanData) : Except Fault Json := do
  let bytes ← reasonBytes banData.reason
  let banValue := Json.ofMembers [
    (utf8 "name", .string banData.playerName),
    (utf8 "uuid", .string (Uuids.toString banData.playerUUID)),
    (utf8 "reason", .string (host.base64.encode bytes)),
    (utf8 "from", .integer banData.banTime),
    (utf8 "id", .string banData.banId),
    (utf8 "by", .string banData.bannedBy)]
  let banValue :=
    if banData.isTemporaryban then banValue.set (utf8 "time") (.integer banData.time) else banValue
  return if banData.isIpBan then banValue.set (utf8 "ip") (.string banData.playerIp) else banValue

/-- One pass of the loop of `saveBanList`, on the IP bans and the others so far. -/
def pushBan (host : Host) (banlist : List Json × List Json) (banData : BanData) :
    Except Fault (List Json × List Json) := do
  let banValue ← saveBan host banData
  return if banData.isIpBan then (banlist.1 ++ [banValue], banlist.2)
    else (banlist.1, banlist.2 ++ [banValue])

def saveBans (host : Host) (bans : List BanData) : Except Fault (List Json × List Json) :=
  bans.foldlM (pushBan host) ([], [])

/-- The document of `saveBanList`. -/
def banDocument (ipbans bans : List Json) : Json :=
  .ofMembers [(utf8 "ipbans", .array ipbans), (utf8 "bans", .array bans)]

/-- `saveBanList`, with the content of the file as its result. -/
def saveBanList (host : Host) (bans : List BanData) : Except Fault Bytes := do
  let (ipbans, bans) ← saveBans host bans
  return host.json.dumpIndented (banDocument ipbans bans)

/-! ### Loading -/

/-- `readJSONFile`: the lines of the file, each closed with a newline. -/
def readJSONFile (host : Host) (content : Bytes) : Except Fault Json :=
  orThrow (host.json.parse (
    if content = [] then utf8 "\x7b\x7d"
    else if content.getLast? = some 10 then content
    else content ++ [10]))

/-- A member of a constant object; a missing one is undefined. -/
def constMember (key : String) : Json → Except Fault Json
  | .object members =>
    match Json.lookup (utf8 key) members with
    | some value => .ok value
    | none => .error .undefined
  | _ => .error .jsonError

/-- What a loop over a value visits. -/
def elements : Json → List Json
  | .null => []
  | .array elements => elements
  | .object members => members.map Prod.snd
  | json => [json]

/-- The reason that some bytes stand for. -/
def readReason (n : ℕ) (bytes : Bytes) : Except Fault NBTElement := do
  let ((), buffer) ← writeArray bytes writeUnsignedByte .new
  let (reason, _) ← readNBTElement n buffer
  return reason

/-- The address, which only the first loop of `loadBanList` reads. -/
def loadIp (isIpBan : Bool) (json : Json) : Except Fault Bytes :=
  if isIpBan then constMember "ip" json >>= getString else .ok []

/-- The flag and the time, which stay uninitialised without a time. -/
def loadTime (host : Host) (uninitialised : Bool × BitVec 64) (json : Json) :
    Except Fault (Bool × BitVec 64) :=
  match json.member (utf8 "time") with
  | some time => do
    let time ← host.json.getLong time
    return (true, time)
  | none => .ok uninitialised

/-- The body of the two loops of `loadBanList`; the first one has IP bans. -/
def loadBan (host : Host) (n : ℕ) (isIpBan : Bool) (uninitialised : Bool × BitVec 64) (json : Json) :
    Except Fault BanData := do
  let playerIp ← loadIp isIpBan json
  let playerName ← constMember "name" json >>= getString
  let uuid ← constMember "uuid" json >>= getString
  let reason ← constMember "reason" json >>= getString
  let reason ← readReason n (host.base64.decode reason)
  let banTime ← constMember "from" json >>= host.json.getLong
  let banId ← constMember "id" json >>= getString
  let bannedBy ← constMember "by" json >>= getString
  let (isTemporaryban, time) ← loadTime host uninitialised json
  return {
    isIpBan, playerIp, playerName
    playerUUID := (Uuids.fromString uuid).getD nilUUID
    banTime := banTime.toInt
    isTemporaryban
    time := time.toInt
    reason, banId, bannedBy }

/-- One of the two loops, with the uninitialised values for each pass. -/
def loadBans (host : Host) (n : ℕ) (isIpBan : Bool) (uninitialised : ℕ → Bool × BitVec 64) :
    ℕ → List Json → Except Fault (List BanData)
  | _, [] => .ok []
  | pass, json :: rest => do
    let data ← loadBan host n isIpBan (uninitialised pass) json
    let bans ← loadBans host n isIpBan uninitialised (pass + 1) rest
    return data :: bans

/-- The loop over a group of the document, if it is there. -/
def loadGroup (host : Host) (n : ℕ) (isIpBan : Bool) (uninitialised : ℕ → Bool × BitVec 64)
    (group : String) (banlist : Json) : Except Fault (List BanData) :=
  match banlist.member (utf8 group) with
  | some json => loadBans host n isIpBan uninitialised 0 (elements json)
  | none => .ok []

/-- `loadBanList` behind a list of bans. -/
def loadBanList (host : Host) (n : ℕ) (uninitialised : Bool → ℕ → Bool × BitVec 64) (content : Bytes)
    (bans : List BanData) : Except Fault (List BanData) := do
  let banlist ← readJSONFile host content
  let ipbans ← loadGroup host n true (uninitialised true) "ipbans" banlist
  let others ← loadGroup host n false (uninitialised false) "bans" banlist
  return bans ++ ipbans ++ others

/-! ### A ban and its value -/

variable {host : Host} {ban : BanData} {bytes : Bytes} {v : Json}

/-- What a long can hold, and no address without an IP ban. -/
structure BanData.Regular (ban : BanData) : Prop where
  banTime : (toLong ban.banTime).toInt = ban.banTime
  time : (toLong ban.time).toInt = ban.time
  playerIp : ban.isIpBan = false → ban.playerIp = []

theorem toInt_toLong (value : BitVec 64) : (toLong value.toInt).toInt = value.toInt := by
  rw [toLong, BitVec.ofInt_toInt]

/-- A ban that one of the functions made is regular. -/
theorem BanData.Made.regular {base64 : Base64} (h : ban.Made base64) : ban.Regular := by
  cases h with
  | banName | banUUID | tempBanName | tempBanUUID =>
    exact ⟨toInt_toLong _, toInt_toLong _, fun _ => rfl⟩
  | banIp | tempBanIp =>
    exact ⟨toInt_toLong _, toInt_toLong _, fun h => Bool.noConfusion h⟩

/-- The members of the value of a ban. -/
structure BanValue (host : Host) (ban : BanData) (bytes : Bytes) (v : Json) : Prop where
  name : v.member (utf8 "name") = some (.string ban.playerName)
  uuid : v.member (utf8 "uuid") = some (.string (Uuids.toString ban.playerUUID))
  reason : v.member (utf8 "reason") = some (.string (host.base64.encode bytes))
  since : v.member (utf8 "from") = some (.integer ban.banTime)
  id : v.member (utf8 "id") = some (.string ban.banId)
  moderator : v.member (utf8 "by") = some (.string ban.bannedBy)
  time : v.member (utf8 "time") =
    if ban.isTemporaryban then some (.integer ban.time) else none
  ip : ban.isIpBan = true → v.member (utf8 "ip") = some (.string ban.playerIp)

theorem saveBan_eq_ok (h : saveBan host ban = .ok v) :
    ∃ bytes, reasonBytes ban.reason = .ok bytes ∧ BanValue host ban bytes v := by
  rcases bind_eq_ok.mp h with ⟨bytes, hbytes, h⟩
  cases h
  refine ⟨bytes, hbytes, ?_⟩
  constructor
  all_goals
    cases htemporary : ban.isTemporaryban <;> cases hip : ban.isIpBan <;>
      simp [Json.ofMembers, Json.lookup]

theorem constMember_of_member {key : String} {value : Json} (h : v.member (utf8 key) = some value) :
    constMember key v = .ok value := by
  cases v with
  | object members =>
    rw [constMember, show Json.lookup (utf8 key) members = some value from h]
  | _ => cases h

/-- Loading the value of a ban changes its reason, and the flag and the time of a
permanent ban. -/
theorem loadBan_of_value {n : ℕ} {uninitialised : Bool × BitVec 64} (hregular : ban.Regular)
    (hvalue : BanValue host ban bytes v)
    (hbase64 : host.base64.decode (host.base64.encode bytes) = bytes) :
    loadBan host n ban.isIpBan uninitialised v = (do
      let reason ← readReason n bytes
      return { ban with
        reason
        isTemporaryban := ban.isTemporaryban || uninitialised.1
        time := if ban.isTemporaryban then ban.time else uninitialised.2.toInt }) := by
  have hip : loadIp ban.isIpBan v = .ok ban.playerIp := by
    unfold loadIp
    cases h : ban.isIpBan with
    | false => rw [if_neg Bool.false_ne_true, hregular.playerIp h]
    | true =>
      rw [if_pos rfl, constMember_of_member (hvalue.ip h)]
      rfl
  have htime : loadTime host uninitialised v =
      .ok (if ban.isTemporaryban then (true, toLong ban.time) else uninitialised) := by
    rw [loadTime, hvalue.time]
    cases ban.isTemporaryban <;> rfl
  unfold loadBan
  rw [hip, htime, constMember_of_member hvalue.name, constMember_of_member hvalue.uuid,
    constMember_of_member hvalue.reason, constMember_of_member hvalue.since,
    constMember_of_member hvalue.id, constMember_of_member hvalue.moderator]
  simp only [ok_bind, getString, Json.asString, orThrow, JsonText.getLong, hbase64,
    Uuids.fromString_toString, Option.getD_some, hregular.banTime]
  cases readReason n bytes with
  | error f => rfl
  | ok reason =>
    cases htemporary : ban.isTemporaryban with
    | false => simp
    | true => simp [hregular.time]

/-- The same ban, where reasons count as the same if their trees are. -/
structure BanData.Same (ban ban' : BanData) : Prop where
  reason : tree ban'.reason = tree ban.reason
  rest : { ban' with reason := ban.reason } = ban

/-- Saving and loading the reason of a ban gives its tree again. -/
def BanData.ReadsBack (n : ℕ) (ban : BanData) : Prop :=
  ∃ bytes reason, reasonBytes ban.reason = .ok bytes ∧ readReason n bytes = .ok reason ∧
    tree reason = tree ban.reason

theorem placed_reason {reason : NBTElement} (htag : reason.tag = []) :
    Placed true networkSettings (tree reason) :=
  ⟨fun _ => ⟨rfl, by rw [tree_tag, htag]⟩, fun harray => absurd harray (by decide), fun _ => rfl⟩

theorem reasonBytes_eq {reason : NBTElement} (htree : (tree reason).WellFormed)
    (htag : reason.tag = []) :
    reasonBytes reason = .ok (head true networkSettings (tree reason) ++ (tree reason).payload true) := by
  rcases encodeWith_produces (writable_fresh true) htree reason networkSettings rfl
    (placed_reason htag) .new [] fresh_new with ⟨buffer, hwrite, hfresh⟩
  rw [reasonBytes, show writeNBTElement reason .new = _ from hwrite, ok_bind]
  exact congrArg Except.ok hfresh.getBytes

/-- A reason that the format can hold comes back, from some recursion bound on. -/
theorem BanData.readsBack_of_wellFormed (htree : (tree ban.reason).WellFormed)
    (htag : ban.reason.tag = []) (htype : ban.reason.type ≠ .endTag) :
    ∃ bound, ∀ n ≥ bound, ban.ReadsBack n := by
  refine ⟨fuel (tree ban.reason), fun n hn => ⟨_, decoded networkSettings (tree ban.reason),
    reasonBytes_eq htree htag, ?_, tree_decoded htree _⟩⟩
  rcases writeArray_new (head true networkSettings (tree ban.reason) ++
    (tree ban.reason).payload true) with ⟨buffer, hwrite, hfresh⟩
  rcases decode_consumes htree networkSettings n (placed_reason htag)
    (fun hend => absurd ((tree_type ban.reason).symm.trans hend) htype) hn buffer []
    (by rw [List.append_nil]; exact hfresh.1) with ⟨rest, hread, -⟩
  rw [readReason, hwrite, ok_bind]
  simp only [show readNBTElement n buffer = _ from hread, ok_bind]
  rfl

/-- What decoding accepts is well formed. -/
theorem BanData.ReadsBack.wellFormed {n : ℕ} (h : ban.ReadsBack n) : (tree ban.reason).WellFormed := by
  rcases h with ⟨bytes, reason, -, hread, htree⟩
  rcases writeArray_new bytes with ⟨⟨b, e⟩, hwrite, hfresh⟩
  rw [readReason, hwrite, ok_bind] at hread
  rcases bind_eq_ok.mp hread with ⟨⟨reason', buffer⟩, hdecode, hreturn⟩
  cases hreturn
  obtain rfl : e = true := hfresh.1.2
  rcases accepts_of_decode hfresh.1.1.regular hdecode with ⟨rest, -, haccepts⟩
  rw [← htree]
  exact haccepts.wellFormed trivial

/-- The reason of a made ban comes back exactly if the format can hold it. -/
theorem BanData.Made.readsBack_iff_wellFormed {base64 : Base64} (h : ban.Made base64) :
    (∃ bound, ∀ n ≥ bound, ban.ReadsBack n) ↔ (tree ban.reason).WellFormed := by
  refine ⟨fun ⟨bound, hbound⟩ => (hbound bound le_rfl).wellFormed, fun htree => ?_⟩
  have hreason : ∃ reason : Text.TextComponent, ban.reason = reason.encode := by
    cases h <;> exact ⟨_, rfl⟩
  rcases hreason with ⟨reason, hreason⟩
  apply BanData.readsBack_of_wellFormed htree
  · rw [hreason, Text.TextComponent.encode_eq]
    rfl
  · rw [hreason, Text.TextComponent.encode_eq]
    exact NBTElementType.noConfusion

/-- A temporary ban with such a reason comes back. -/
theorem exists_same {n : ℕ} {uninitialised : Bool × BitVec 64} (hregular : ban.Regular)
    (hvalue : BanValue host ban bytes v) (hbytes : reasonBytes ban.reason = .ok bytes)
    (hbase64 : host.base64.decode (host.base64.encode bytes) = bytes)
    (htemporary : ban.isTemporaryban = true) (hback : ban.ReadsBack n) :
    ∃ ban', loadBan host n ban.isIpBan uninitialised v = .ok ban' ∧ ban.Same ban' := by
  rcases hback with ⟨bytes', reason, hbytes', hread, htree⟩
  cases hbytes.symm.trans hbytes'
  refine ⟨_, by rw [loadBan_of_value hregular hvalue hbase64, hread]; rfl, htree, ?_⟩
  cases ban
  simp_all

/-- A ban that comes back although the flag may be anything is temporary. -/
theorem temporary_of_same {n : ℕ} {uninitialised : Bool × BitVec 64} {ban' : BanData}
    (hregular : ban.Regular) (hvalue : BanValue host ban bytes v)
    (hbytes : reasonBytes ban.reason = .ok bytes)
    (hbase64 : host.base64.decode (host.base64.encode bytes) = bytes) (hflag : uninitialised.1 = true)
    (hload : loadBan host n ban.isIpBan uninitialised v = .ok ban') (hsame : ban.Same ban') :
    ban.isTemporaryban = true ∧ ban.ReadsBack n := by
  rw [loadBan_of_value hregular hvalue hbase64] at hload
  rcases bind_eq_ok.mp hload with ⟨reason, hread, hload⟩
  cases hload
  refine ⟨?_, bytes, reason, hbytes, hread, hsame.reason⟩
  have hrest := congrArg BanData.isTemporaryban hsame.rest
  rw [← hrest, hflag]
  exact Bool.or_true _

/-! ### The two groups -/

variable {bans : List BanData} {values : List Json}

/-- The value that was saved for a regular ban. -/
structure Saved (host : Host) (isIpBan : Bool) (ban : BanData) (v : Json) : Prop where
  regular : ban.Regular
  isIpBan : ban.isIpBan = isIpBan
  base64 : ∀ bytes, reasonBytes ban.reason = .ok bytes →
    host.base64.decode (host.base64.encode bytes) = bytes
  saved : saveBan host ban = .ok v

theorem saveBan_total {bytes : Bytes} (h : reasonBytes ban.reason = .ok bytes) :
    ∃ v, saveBan host ban = .ok v := ⟨_, by rw [saveBan, h]; rfl⟩

theorem loadBans_length {n : ℕ} {isIpBan : Bool} {uninitialised : ℕ → Bool × BitVec 64} {pass : ℕ}
    {loaded : List BanData} (h : loadBans host n isIpBan uninitialised pass values = .ok loaded) :
    loaded.length = values.length := by
  induction values generalizing pass loaded with
  | nil =>
    cases h
    rfl
  | cons v values ih =>
    rcases bind_eq_ok.mp h with ⟨ban, -, h⟩
    rcases bind_eq_ok.mp h with ⟨rest, hrest, h⟩
    cases h
    rw [List.length_cons, ih hrest, List.length_cons]

theorem exists_same_all {n : ℕ} {isIpBan : Bool} {uninitialised : ℕ → Bool × BitVec 64} {pass : ℕ}
    (hsaved : List.Forall₂ (Saved host isIpBan) bans values)
    (h : ∀ ban ∈ bans, ban.isTemporaryban = true ∧ ban.ReadsBack n) :
    ∃ loaded, loadBans host n isIpBan uninitialised pass values = .ok loaded ∧
      List.Forall₂ BanData.Same bans loaded := by
  induction hsaved generalizing pass with
  | nil => exact ⟨[], rfl, .nil⟩
  | @cons ban v bans values hban _ ih =>
    rcases saveBan_eq_ok hban.saved with ⟨bytes, hbytes, hvalue⟩
    rcases h ban List.mem_cons_self with ⟨htemporary, hback⟩
    rcases @exists_same host ban bytes v n (uninitialised pass) hban.regular hvalue hbytes
      (hban.base64 bytes hbytes) htemporary hback with ⟨ban', hload, hsame⟩
    rcases @ih (pass + 1) fun ban hmem => h ban (List.mem_cons_of_mem _ hmem) with
      ⟨loaded, hloaded, hall⟩
    rw [hban.isIpBan] at hload
    refine ⟨ban' :: loaded, ?_, .cons hsame hall⟩
    rw [loadBans, hload, ok_bind, hloaded]
    rfl

theorem temporary_of_same_all {n : ℕ} {isIpBan : Bool} {uninitialised : ℕ → Bool × BitVec 64} {pass : ℕ}
    {loaded : List BanData} (hflag : ∀ pass, (uninitialised pass).1 = true)
    (hsaved : List.Forall₂ (Saved host isIpBan) bans values)
    (hload : loadBans host n isIpBan uninitialised pass values = .ok loaded)
    (hsame : List.Forall₂ BanData.Same bans loaded) :
    ∀ ban ∈ bans, ban.isTemporaryban = true ∧ ban.ReadsBack n := by
  induction hsaved generalizing pass loaded with
  | nil => exact fun ban hmem => absurd hmem List.not_mem_nil
  | @cons ban v bans values hban _ ih =>
    rcases saveBan_eq_ok hban.saved with ⟨bytes, hbytes, hvalue⟩
    rcases bind_eq_ok.mp hload with ⟨ban', hfirst, hload⟩
    rcases bind_eq_ok.mp hload with ⟨rest, hrest, hload⟩
    cases hload
    rcases List.forall₂_cons.mp hsame with ⟨hsame, hall⟩
    rw [← hban.isIpBan] at hfirst
    have hhead := temporary_of_same hban.regular hvalue hbytes (hban.base64 bytes hbytes)
      (hflag pass) hfirst hsame
    intro ban₁ hmem
    rcases List.mem_cons.mp hmem with heq | hmem
    · rw [heq]
      exact hhead
    · exact ih hrest hall ban₁ hmem

/-! ### The whole list -/

/-- The IP bans, then the others. -/
def grouped (bans : List BanData) : List BanData :=
  bans.filter (fun ban => ban.isIpBan = true) ++ bans.filter (fun ban => ban.isIpBan = false)

/-- JSON and Base64 give back what a list of bans puts in. -/
structure FaithfulFile (host : Host) (bans : List BanData) : Prop where
  json : ∀ ipbans others, saveBans host bans = .ok (ipbans, others) →
    readJSONFile host (host.json.dumpIndented (banDocument ipbans others)) =
      .ok (banDocument ipbans others)
  base64 : ∀ ban ∈ bans, ∀ bytes, reasonBytes ban.reason = .ok bytes →
    host.base64.decode (host.base64.encode bytes) = bytes

/-- Saving a list and loading it into an empty one gives the same bans, from some
recursion bound on. -/
def Persists (host : Host) (uninitialised : Bool → ℕ → Bool × BitVec 64) (bans : List BanData) :
    Prop :=
  ∃ bound, ∀ n ≥ bound, ∃ content loaded, saveBanList host bans = .ok content ∧
    loadBanList host n uninitialised content [] = .ok loaded ∧
    List.Forall₂ BanData.Same (grouped bans) loaded

/-- The loop of `saveBanList` from any two lists of values on. -/
theorem foldlM_pushBan {a b a' b' : List Json}
    (h : bans.foldlM (pushBan host) (a, b) = .ok (a', b')) :
    ∃ ipbans others, a' = a ++ ipbans ∧ b' = b ++ others ∧
      List.Forall₂ (fun ban v => saveBan host ban = .ok v)
        (bans.filter fun ban => ban.isIpBan = true) ipbans ∧
      List.Forall₂ (fun ban v => saveBan host ban = .ok v)
        (bans.filter fun ban => ban.isIpBan = false) others := by
  induction bans generalizing a b with
  | nil =>
    cases h
    exact ⟨[], [], by simp, by simp, .nil, .nil⟩
  | cons ban bans ih =>
    rw [List.foldlM_cons] at h
    rcases bind_eq_ok.mp h with ⟨x, hx, h⟩
    rcases bind_eq_ok.mp hx with ⟨v, hv, hx⟩
    cases hip : ban.isIpBan with
    | true =>
      rw [hip, if_pos rfl] at hx
      cases hx
      rcases ih h with ⟨ipbans, others, rfl, rfl, hips, hothers⟩
      refine ⟨v :: ipbans, others, by simp, rfl, ?_, ?_⟩
      · rw [List.filter_cons_of_pos (by simpa using hip)]
        exact .cons hv hips
      · rw [List.filter_cons_of_neg (by simp [hip])]
        exact hothers
    | false =>
      rw [hip, if_neg Bool.false_ne_true] at hx
      cases hx
      rcases ih h with ⟨ipbans, others, rfl, rfl, hips, hothers⟩
      refine ⟨ipbans, v :: others, rfl, by simp, ?_, ?_⟩
      · rw [List.filter_cons_of_neg (by simp [hip])]
        exact hips
      · rw [List.filter_cons_of_pos (by simpa using hip)]
        exact .cons hv hothers

theorem saveBans_total (h : ∀ ban ∈ bans, ∃ v, saveBan host ban = .ok v)
    (banlist : List Json × List Json) :
    ∃ banlist', bans.foldlM (pushBan host) banlist = .ok banlist' := by
  induction bans generalizing banlist with
  | nil => exact ⟨banlist, rfl⟩
  | cons ban bans ih =>
    rcases h ban List.mem_cons_self with ⟨v, hv⟩
    rw [List.foldlM_cons, pushBan, hv]
    exact ih (fun ban hmem => h ban (List.mem_cons_of_mem _ hmem)) _

theorem saved_group {isIpBan : Bool} (hmade : ∀ ban ∈ bans, ban.Made host.base64)
    (hfaithful : FaithfulFile host bans)
    (h : List.Forall₂ (fun ban v => saveBan host ban = .ok v)
      (bans.filter fun ban => ban.isIpBan = isIpBan) values) :
    List.Forall₂ (Saved host isIpBan) (bans.filter fun ban => ban.isIpBan = isIpBan) values := by
  apply List.forall₂_iff_get.mpr
  rcases List.forall₂_iff_get.mp h with ⟨hlength, hget⟩
  refine ⟨hlength, fun i hi hv => ?_⟩
  have hmem := List.get_mem _ ⟨i, hi⟩
  rcases List.mem_filter.mp hmem with ⟨hban, hip⟩
  exact ⟨(hmade _ hban).regular, by simpa using hip, hfaithful.base64 _ hban, hget i hi hv⟩

/-- The two groups that a saved list consists of. -/
theorem saveBans_groups {ipbans others : List Json} (hmade : ∀ ban ∈ bans, ban.Made host.base64)
    (hfaithful : FaithfulFile host bans) (h : saveBans host bans = .ok (ipbans, others)) :
    List.Forall₂ (Saved host true) (bans.filter fun ban => ban.isIpBan = true) ipbans ∧
      List.Forall₂ (Saved host false) (bans.filter fun ban => ban.isIpBan = false) others := by
  rcases foldlM_pushBan h with ⟨ipbans', others', rfl, rfl, hips, hothers⟩
  exact ⟨saved_group hmade hfaithful hips, saved_group hmade hfaithful hothers⟩

/-- What `loadBanList` makes of a saved document. -/
theorem loadBanList_eq {n : ℕ} {uninitialised : Bool → ℕ → Bool × BitVec 64} {ipbans others : List Json}
    (hfaithful : FaithfulFile host bans) (h : saveBans host bans = .ok (ipbans, others)) :
    loadBanList host n uninitialised (host.json.dumpIndented (banDocument ipbans others)) [] = (do
      let ipbans ← loadBans host n true (uninitialised true) 0 ipbans
      let others ← loadBans host n false (uninitialised false) 0 others
      return ipbans ++ others) := by
  have hips : (banDocument ipbans others).member (utf8 "ipbans") = some (.array ipbans) := by
    simp [banDocument, Json.ofMembers]
  have hothers : (banDocument ipbans others).member (utf8 "bans") = some (.array others) := by
    simp [banDocument, Json.ofMembers]
  simp only [loadBanList, hfaithful.json ipbans others h, ok_bind, loadGroup, hips, hothers, elements,
    List.nil_append]

/-- Bans that come back with the flag set where it is uninitialised. -/
theorem temporary_of_persists (hmade : ∀ ban ∈ bans, ban.Made host.base64)
    (hfaithful : FaithfulFile host bans) (h : Persists host (fun _ _ => (true, 0)) bans) :
    ∀ ban ∈ bans, ban.isTemporaryban = true ∧ ∃ bound, ∀ n ≥ bound, ban.ReadsBack n := by
  rcases h with ⟨bound, hbound⟩
  have hall : ∀ n ≥ bound, ∀ ban ∈ bans, ban.isTemporaryban = true ∧ ban.ReadsBack n := by
    intro n hn
    rcases hbound n hn with ⟨content, loaded, hsave, hload, hsame⟩
    rcases bind_eq_ok.mp hsave with ⟨⟨ipbans, others⟩, hsaved, hcontent⟩
    cases hcontent
    rcases saveBans_groups hmade hfaithful hsaved with ⟨hips, hothers⟩
    rw [loadBanList_eq hfaithful hsaved] at hload
    rcases bind_eq_ok.mp hload with ⟨first, hfirst, hload⟩
    rcases bind_eq_ok.mp hload with ⟨second, hsecond, hload⟩
    cases hload
    have hlength := hips.length_eq.trans (loadBans_length hfirst).symm
    have htake := List.forall₂_take_append _ _ _ hsame
    have hdrop := List.forall₂_drop_append _ _ _ hsame
    rw [grouped, ← hlength, List.take_left] at htake
    rw [grouped, ← hlength, List.drop_left] at hdrop
    have hipbans := temporary_of_same_all (fun _ => rfl) hips hfirst htake
    have hrest := temporary_of_same_all (fun _ => rfl) hothers hsecond hdrop
    intro ban hmem
    cases hip : ban.isIpBan with
    | true => exact hipbans ban (List.mem_filter.mpr ⟨hmem, by simpa using hip⟩)
    | false => exact hrest ban (List.mem_filter.mpr ⟨hmem, by simpa using hip⟩)
  exact fun ban hmem => ⟨(hall bound le_rfl ban hmem).1, bound, fun n hn => (hall n hn ban hmem).2⟩

theorem persists_of_temporary (hmade : ∀ ban ∈ bans, ban.Made host.base64)
    (hfaithful : FaithfulFile host bans)
    (h : ∀ ban ∈ bans, ban.isTemporaryban = true ∧ ∃ bound, ∀ n ≥ bound, ban.ReadsBack n)
    (uninitialised : Bool → ℕ → Bool × BitVec 64) : Persists host uninitialised bans := by
  rcases exists_bound (P := fun ban n => ban.ReadsBack n) bans fun ban hmem => (h ban hmem).2 with
    ⟨bound, hbound⟩
  have hvalues : ∀ ban ∈ bans, ∃ v, saveBan host ban = .ok v := by
    intro ban hmem
    rcases hbound ban hmem bound le_rfl with ⟨bytes, -, hbytes, -⟩
    exact saveBan_total hbytes
  rcases saveBans_total hvalues ([], []) with ⟨⟨ipbans, others⟩, hsaved⟩
  rcases saveBans_groups hmade hfaithful hsaved with ⟨hips, hothers⟩
  refine ⟨bound, fun n hn => ?_⟩
  have hback : ∀ ban ∈ bans, ban.isTemporaryban = true ∧ ban.ReadsBack n :=
    fun ban hmem => ⟨(h ban hmem).1, hbound ban hmem n hn⟩
  rcases @exists_same_all host _ ipbans n true (uninitialised true) 0 hips
    fun ban hmem => hback ban (List.mem_filter.mp hmem).1 with ⟨first, hfirst, hsame₁⟩
  rcases @exists_same_all host _ others n false (uninitialised false) 0 hothers
    fun ban hmem => hback ban (List.mem_filter.mp hmem).1 with ⟨second, hsecond, hsame₂⟩
  refine ⟨_, first ++ second, by rw [saveBanList, show saveBans host bans = _ from hsaved]; rfl, ?_,
    List.rel_append hsame₁ hsame₂⟩
  rw [loadBanList_eq hfaithful hsaved, hfirst, ok_bind, hsecond]
  rfl

/-- Saving and loading gives the same bans, whatever the uninitialised values are,
exactly when every ban is temporary and the format can hold every reason. -/
theorem persists_iff (hmade : ∀ ban ∈ bans, ban.Made host.base64)
    (hfaithful : FaithfulFile host bans) :
    (∀ uninitialised, Persists host uninitialised bans) ↔
      ∀ ban ∈ bans, ban.isTemporaryban = true ∧ (tree ban.reason).WellFormed := by
  constructor
  · intro h ban hmem
    have hban := temporary_of_persists hmade hfaithful (h _) ban hmem
    exact ⟨hban.1, (hmade ban hmem).readsBack_iff_wellFormed.mp hban.2⟩
  · intro h
    exact persists_of_temporary hmade hfaithful fun ban hmem =>
      ⟨(h ban hmem).1, (hmade ban hmem).readsBack_iff_wellFormed.mpr (h ban hmem).2⟩

/-! ### A file -/

/-- Base64 of the values below. -/
def fileBase64 : Base64 where
  encode bytes :=
    if bytes = [] then []
    else if bytes = zeros 8 then utf8 "AAAAAAAAAAA="
    else utf8 "CggABHR5cGUABHRleHQIAAR0ZXh0AAAA"
  decode text :=
    if text = [] then []
    else if text = utf8 "AAAAAAAAAAA=" then zeros 8
    else [10, 8, 0, 4, 116, 121, 112, 101, 0, 4, 116, 101, 120, 116, 8, 0, 4, 116, 101, 120, 116, 0, 0, 0]

/-- A ban without a text, at a time in 2023. -/
def fileBanning : Banning := ⟨1700000000, zeros 8, 0, .new, []⟩

/-- The value of a permanent ban of a player. -/
def fileValue (name : Bytes) : Json := .ofMembers [
  (utf8 "name", .string name),
  (utf8 "uuid", .string (utf8 "00000000-0000-0000-0000-000000000000")),
  (utf8 "reason", .string (utf8 "CggABHR5cGUABHRleHQIAAR0ZXh0AAAA")),
  (utf8 "from", .integer 1700000000),
  (utf8 "id", .string (utf8 "AAAAAAAAAAA=")),
  (utf8 "by", .string [])]

/-- A server whose JSON library knows one document. -/
def fileHost (document : Json) (content : Bytes) : Host :=
  { sampleHost with
    json := { sampleHost.json with
      parse := fun text => if text = content ++ [10] then some document else none
      dumpIndented := fun _ => content }
    base64 := fileBase64 }

/-- A ban for an hour, and one of an address for a minute. -/
def fileBans : List BanData :=
  [fileBanning.tempBanName fileBase64 (utf8 "A") 3600,
    fileBanning.tempBanIp fileBase64 (utf8 "127.0.0.1") 60]

/-- The document of `fileBans`. -/
def fileDocument : Json := banDocument
  [((fileValue []).set (utf8 "time") (.integer 60)).set (utf8 "ip") (.string (utf8 "127.0.0.1"))]
  [(fileValue (utf8 "A")).set (utf8 "time") (.integer 3600)]

/-- The file of `fileBans`. -/
def temporaryFile : Bytes := utf8
  "\x7b
    \"bans\": [
        \x7b
            \"by\": \"\",
            \"from\": 1700000000,
            \"id\": \"AAAAAAAAAAA=\",
            \"name\": \"A\",
            \"reason\": \"CggABHR5cGUABHRleHQIAAR0ZXh0AAAA\",
            \"time\": 3600,
            \"uuid\": \"00000000-0000-0000-0000-000000000000\"
        \x7d
    ],
    \"ipbans\": [
        \x7b
            \"by\": \"\",
            \"from\": 1700000000,
            \"id\": \"AAAAAAAAAAA=\",
            \"ip\": \"127.0.0.1\",
            \"name\": \"\",
            \"reason\": \"CggABHR5cGUABHRleHQIAAR0ZXh0AAAA\",
            \"time\": 60,
            \"uuid\": \"00000000-0000-0000-0000-000000000000\"
        \x7d
    ]
" ++ [125]

/-- The file of a permanent ban. -/
def permanentFile : Bytes := utf8
  "\x7b
    \"bans\": [
        \x7b
            \"by\": \"\",
            \"from\": 1700000000,
            \"id\": \"AAAAAAAAAAA=\",
            \"name\": \"A\",
            \"reason\": \"CggABHR5cGUABHRleHQIAAR0ZXh0AAAA\",
            \"uuid\": \"00000000-0000-0000-0000-000000000000\"
        \x7d
    ],
    \"ipbans\": []
" ++ [125]

/-- A document that ends with a brace. -/
theorem readJSONFile_fileHost (document : Json) (content : Bytes) :
    readJSONFile (fileHost document (content ++ [125])) (content ++ [125]) = .ok document := by
  simp [readJSONFile, fileHost, orThrow]

theorem wellFormed_fileReason : (tree fileBanning.reason.encode).WellFormed :=
  Tree.wellFormed_of_fits _ (by decide)

theorem reasonBytes_file : reasonBytes fileBanning.reason.encode = .ok
    [10, 8, 0, 4, 116, 121, 112, 101, 0, 4, 116, 101, 120, 116, 8, 0, 4, 116, 101, 120, 116, 0, 0, 0] :=
  reasonBytes_eq wellFormed_fileReason rfl

/-- Bans with one reason, in a file that their values stand in. -/
theorem faithfulFile_of_saved {content : Bytes} {ipbans others : List Json}
    (hreason : ∀ ban ∈ bans, ban.reason = fileBanning.reason.encode)
    (hsaved : saveBans (fileHost (banDocument ipbans others) (content ++ [125])) bans =
      .ok (ipbans, others)) :
    FaithfulFile (fileHost (banDocument ipbans others) (content ++ [125])) bans where
  json ipbans' others' h := by
    cases hsaved.symm.trans h
    exact readJSONFile_fileHost _ _
  base64 ban hmem bytes hbytes := by
    rw [hreason ban hmem, reasonBytes_file] at hbytes
    cases hbytes
    rfl

theorem reason_of_fileBans : ∀ ban ∈ fileBans, ban.reason = fileBanning.reason.encode := by
  intro ban hmem
  simp only [fileBans, List.mem_cons, List.not_mem_nil, or_false] at hmem
  rcases hmem with rfl | rfl <;> rfl

theorem faithfulFile_temporary : FaithfulFile (fileHost fileDocument temporaryFile) fileBans := by
  apply faithfulFile_of_saved reason_of_fileBans
  simp only [saveBans, fileBans, List.foldlM_cons, List.foldlM_nil, pushBan, saveBan,
    show (fileBanning.tempBanName fileBase64 (utf8 "A") 3600).reason =
      fileBanning.reason.encode from rfl,
    show (fileBanning.tempBanIp fileBase64 (utf8 "127.0.0.1") 60).reason =
      fileBanning.reason.encode from rfl, reasonBytes_file]
  rfl

theorem faithfulFile_permanent : FaithfulFile
    (fileHost (banDocument [] [fileValue (utf8 "A")]) permanentFile)
    [fileBanning.banName fileBase64 (utf8 "A")] := by
  apply faithfulFile_of_saved
  · intro ban hmem
    rw [List.mem_singleton.mp hmem]
    rfl
  · simp only [saveBans, List.foldlM_cons, List.foldlM_nil, pushBan, saveBan,
      show (fileBanning.banName fileBase64 (utf8 "A")).reason =
        fileBanning.reason.encode from rfl, reasonBytes_file]
    rfl

/-- The temporary bans come back, the IP ban in front of the other one. -/
theorem persists_sample : Persists (fileHost fileDocument temporaryFile) (fun _ _ => (false, 0))
    fileBans := by
  have hmade : ∀ ban ∈ fileBans, ban.Made fileBase64 := by
    intro ban hmem
    simp only [fileBans, List.mem_cons, List.not_mem_nil, or_false] at hmem
    rcases hmem with rfl | rfl
    · exact .tempBanName fileBanning (utf8 "A") 3600
    · exact .tempBanIp fileBanning (utf8 "127.0.0.1") 60
  refine (persists_iff hmade faithfulFile_temporary).mpr (fun ban hmem => ⟨?_, ?_⟩) _
  · simp only [fileBans, List.mem_cons, List.not_mem_nil, or_false] at hmem
    rcases hmem with rfl | rfl <;> rfl
  · rw [reason_of_fileBans ban hmem]
    exact wellFormed_fileReason

/-- A permanent ban may come back as a temporary one. -/
theorem not_persists : ¬ ∀ (host : Host) (bans : List BanData),
    (∀ ban ∈ bans, ban.Made host.base64) → FaithfulFile host bans →
      ∀ uninitialised, Persists host uninitialised bans := by
  intro h
  have hmade : ∀ ban ∈ [fileBanning.banName fileBase64 (utf8 "A")], ban.Made fileBase64 := by
    intro ban hmem
    rw [List.mem_singleton.mp hmem]
    exact .banName fileBanning (utf8 "A")
  have hpersists := h (fileHost (banDocument [] [fileValue (utf8 "A")]) permanentFile) _ hmade
    faithfulFile_permanent fun _ _ => (true, 0)
  have htemporary := (temporary_of_persists hmade faithfulFile_permanent hpersists _
    (List.mem_singleton_self _)).1
  exact Bool.noConfusion htemporary

end Zinc.Network
