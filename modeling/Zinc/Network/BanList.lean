import Zinc.Network.Config
import Zinc.Text.Component

/-! The list of bans: the functions that add a ban and the ones that are meant to
remove bans. The latter run `std::remove_if` and drop its result, so the list
keeps its length. -/

namespace Zinc.Network

open Buffer Nbt

/-! ### Adding a ban -/

/-- What the six functions have in common: the clock, eight random bytes, the
reason and the moderator. Members that a function does not assign keep the value
of their constructor; the time of a permanent ban has none and may be anything. -/
structure Banning where
  now : BitVec 64
  randomBytes : Bytes
  uninitialised : BitVec 64
  reason : Text.TextComponent
  moderatorId : Bytes

namespace Banning

variable (base64 : Base64) (b : Banning)

/-- A permanent ban without a player. -/
def banData (isIpBan : Bool) : BanData where
  isIpBan := isIpBan
  playerIp := []
  playerName := []
  playerUUID := nilUUID
  banTime := b.now.toInt
  isTemporaryban := false
  time := b.uninitialised.toInt
  reason := b.reason.encode
  banId := base64.encode b.randomBytes
  bannedBy := base64.encode b.moderatorId

/-- The ban for a time. -/
def temporary (time : BitVec 64) (ban : BanData) : BanData :=
  { ban with isTemporaryban := true, time := time.toInt }

/-- `ban(const std::string&, ...)`. -/
def banName (playerName : Bytes) : BanData := { b.banData base64 false with playerName }

/-- `ban(const uuids::uuid&, ...)`. -/
def banUUID (playerUUID : UUID) : BanData := { b.banData base64 false with playerUUID }

def banIp (playerIp : Bytes) : BanData := { b.banData base64 true with playerIp }

/-- `tempBan(const std::string&, ...)`. -/
def tempBanName (playerName : Bytes) (time : BitVec 64) : BanData :=
  temporary time (b.banName base64 playerName)

/-- `tempBan(const uuids::uuid&, ...)`. -/
def tempBanUUID (playerUUID : UUID) (time : BitVec 64) : BanData :=
  temporary time (b.banUUID base64 playerUUID)

def tempBanIp (playerIp : Bytes) (time : BitVec 64) : BanData := temporary time (b.banIp base64 playerIp)

end Banning

/-- A ban that one of the functions pushes back. -/
inductive BanData.Made (base64 : Base64) : BanData → Prop
  | banName (b : Banning) (playerName : Bytes) : Made base64 (b.banName base64 playerName)
  | banUUID (b : Banning) (playerUUID : UUID) : Made base64 (b.banUUID base64 playerUUID)
  | banIp (b : Banning) (playerIp : Bytes) : Made base64 (b.banIp base64 playerIp)
  | tempBanName (b : Banning) (playerName : Bytes) (time : BitVec 64) :
      Made base64 (b.tempBanName base64 playerName time)
  | tempBanUUID (b : Banning) (playerUUID : UUID) (time : BitVec 64) :
      Made base64 (b.tempBanUUID base64 playerUUID time)
  | tempBanIp (b : Banning) (playerIp : Bytes) (time : BitVec 64) :
      Made base64 (b.tempBanIp base64 playerIp time)

/-! ### Removing bans -/

/-- `std::remove_if`: the elements that stay come first and in order, the length is
the same, and nothing is said about what stands behind them. -/
structure RemoveIf {α : Type} (p : α → Bool) (as bs : List α) : Prop where
  kept : as.filter (fun a => !p a) <+: bs
  length_eq : bs.length = as.length

section RemoveIf

variable {α : Type} {p : α → Bool} {as bs : List α}

/-- Without the call of `erase` the list is right only if nothing was to be removed. -/
theorem RemoveIf.eq_filter_iff (h : RemoveIf p as bs) :
    bs = as.filter (fun a => !p a) ↔ ∀ a ∈ as, p a = false := by
  constructor
  · intro heq
    have hlength : (as.filter fun a => !p a).length = as.length := by rw [← heq, h.length_eq]
    intro a ha
    simpa using List.length_filter_eq_length_iff.mp hlength a ha
  · intro hnone
    have hall : as.filter (fun a => !p a) = as := by
      apply List.filter_eq_self.mpr
      intro a ha
      rw [hnone a ha]
      rfl
    have hkept := h.kept
    rw [hall] at hkept ⊢
    exact (hkept.eq_of_length h.length_eq.symm).symm

/-- Such a list exists whatever stands behind the elements that stay. -/
theorem RemoveIf.of_rest (rest : List α) (h : rest.length = as.countP p) :
    RemoveIf p as (as.filter (fun a => !p a) ++ rest) where
  kept := List.prefix_append _ _
  length_eq := by
    rw [List.length_append, h, ← List.countP_eq_length_filter, Nat.add_comm]
    simpa using (List.length_eq_countP_add_countP p (l := as)).symm

end RemoveIf

/-- `_unbanName`. -/
def unbanName (playerName : Bytes) : List BanData → List BanData → Prop :=
  RemoveIf fun ban => ban.playerName = playerName

/-- `_unbanUUID`. -/
def unbanUUID (playerUUID : UUID) : List BanData → List BanData → Prop :=
  RemoveIf fun ban => ban.playerUUID = playerUUID

/-- `_unbanIp`. -/
def unbanIp (playerIp : Bytes) : List BanData → List BanData → Prop :=
  RemoveIf fun ban => ban.playerIp = playerIp ∧ ban.isIpBan

/-- A call of `unban` or `unbanIp`. -/
inductive Unban where
  | name (playerName : Bytes)
  | uuid (playerUUID : UUID)
  | ip (playerIp : Bytes)

namespace Unban

/-- The bans that a call is about. -/
def isAbout : Unban → BanData → Bool
  | name playerName, ban => ban.playerName = playerName
  | uuid playerUUID, ban => ban.playerUUID = playerUUID
  | ip playerIp, ban => ban.playerIp = playerIp ∧ ban.isIpBan

/-- The thread of a call. -/
def run : Unban → List BanData → List BanData → Prop
  | name playerName => unbanName playerName
  | uuid playerUUID => unbanUUID playerUUID
  | ip playerIp => unbanIp playerIp

theorem run_eq (u : Unban) : u.run = RemoveIf u.isAbout := by
  cases u <;> rfl

end Unban

/-- The bans that a call is about are gone exactly when there was none. -/
theorem unban_exact_iff (u : Unban) {bans bans' : List BanData} (h : u.run bans bans') :
    bans' = bans.filter (fun ban => !u.isAbout ban) ↔ ∀ ban ∈ bans, u.isAbout ban = false := by
  rw [u.run_eq] at h
  exact h.eq_filter_iff

/-- Values for a ban. -/
def sampleBanning : Banning := ⟨0, zeros 8, 0, .new, []⟩

/-- A ban of a name, one of an address for a minute, and one for ever. -/
def sampleBans : List BanData :=
  [sampleBanning.banName ⟨id, id⟩ [65], sampleBanning.tempBanIp ⟨id, id⟩ [49] 60,
    sampleBanning.banIp ⟨id, id⟩ [50]]

/-- The unban of another player is exact. -/
theorem unban_exact_sample :
    sampleBans = sampleBans.filter (fun ban => !(Unban.name [66]).isAbout ban) := by
  have hrun : (Unban.name [66]).run sampleBans sampleBans := RemoveIf.of_rest [] rfl
  apply (unban_exact_iff (.name [66]) hrun).mpr
  intro ban hban
  simp only [sampleBans, List.mem_cons, List.not_mem_nil, or_false] at hban
  rcases hban with rfl | rfl | rfl <;> rfl

/-- The only ban of the list stays. -/
theorem not_unban_exact : ¬ ∀ (u : Unban) (bans bans' : List BanData), u.run bans bans' →
    bans' = bans.filter (fun ban => !u.isAbout ban) := by
  intro h
  have hrun : (Unban.name [65]).run [sampleBanning.banName ⟨id, id⟩ [65]]
      [sampleBanning.banName ⟨id, id⟩ [65]] := RemoveIf.of_rest [sampleBanning.banName ⟨id, id⟩ [65]] rfl
  exact absurd (h _ _ _ hrun) (List.cons_ne_nil _ _)

end Zinc.Network
