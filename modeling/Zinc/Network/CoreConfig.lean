import Zinc.Base.Indexed
import Zinc.Base.Process
import Zinc.Network.BanFile

/-! The settings on disk. Saving writes every setting but the icon into a document of five
sections; loading goes through the same sections and takes over each setting that is there, in
the order of the source. The worlds are written in the order of a hash map and come back in
another one. Of the working directory only the two files are modelled, not the directories that
both calls make. -/

namespace Zinc.Network

open Throw Process Indexed Buffer JsonText

/-! ### Values -/

namespace CoreConfig

/-- An `int` is a word of 32 bits. -/
structure NetworkConfig where
  threshold : BitVec 32 := 256
  serverPort : BitVec 32 := 25565
  srvctlPort : BitVec 32 := 25575
  motd : Bytes := utf8 "A §bZinc§r Minecraft Server"
  maxPlayerCount : BitVec 32 := 20
  iconBase64 : Bytes := []
  iconPath : Bytes := utf8 "icon.png"

structure Security where
  onlineMode : Bool := true
  whitelist : Bool := false
  allowSurvivalFlight : Bool := false
  allowPVP : Bool := true
  backupInterval : BitVec 32 := 1440
  rateLimit : BitVec 32 := 2
  maxConcurrentAccount : BitVec 32 := 10
  rbacPath : Bytes := utf8 "config/rbac"
  unbanSupport : Bytes := []

structure Optimizations where
  viewDistance : BitVec 32 := 10
  simulationDistance : BitVec 32 := 10

inductive WorldType where
  | limbo | template | normal

inductive StorageFormat where
  | mcAnvil | hypixelSlime

inductive RedstoneMode where
  | disabled | vanilla | optimized

structure WorldConfig where
  worldType : WorldType := .normal
  storageFormat : StorageFormat := .mcAnvil
  redstoneMode : RedstoneMode := .vanilla
  requiredPermission : Bytes := utf8 "group.default"
  options : Bytes := []

structure WorldsConfig where
  registeredWorlds : AList fun _ : Bytes => WorldConfig := ∅
  defaultWorld : Bytes := utf8 "world"

end CoreConfig

open CoreConfig

structure CoreConfig where
  network : NetworkConfig := {}
  security : Security := {}
  optimizations : Optimizations := {}
  worlds : WorldsConfig := {}
  features : List Bytes := [utf8 "voice_chat", utf8 "player_models", utf8 "redpiler"]

namespace CoreConfig

/-! ### The document -/

def WorldType.text : WorldType → Bytes
  | .limbo => utf8 "limbo"
  | .template => utf8 "template"
  | .normal => utf8 "normal"

def StorageFormat.text : StorageFormat → Bytes
  | .mcAnvil => utf8 "anvil"
  | .hypixelSlime => utf8 "slime"

def RedstoneMode.text : RedstoneMode → Bytes
  | .vanilla => utf8 "vanilla"
  | .disabled => utf8 "disabled"
  | .optimized => utf8 "optimized"

def WorldConfig.json (world : WorldConfig) : Json := .ofMembers [
  (utf8 "world_type", .string world.worldType.text),
  (utf8 "storage_format", .string world.storageFormat.text),
  (utf8 "redstone_mode", .string world.redstoneMode.text),
  (utf8 "required_permission", .string world.requiredPermission),
  (utf8 "options", .string world.options)]

/-- A pass of the loop of `serialize`. -/
def worldJson (worldPair : Sigma fun _ : Bytes => WorldConfig) : Json := .ofMembers [
  (utf8 "world_id", .string worldPair.1),
  (utf8 "world_config", worldPair.2.json)]

def WorldsConfig.serialize (worlds : WorldsConfig) : List Json :=
  worlds.registeredWorlds.entries.map worldJson

/-- An `int` in a document. -/
def int (value : BitVec 32) : Json := .integer value.toInt

def NetworkConfig.json (network : NetworkConfig) : Json := .ofMembers [
  (utf8 "threshold", int network.threshold),
  (utf8 "server_port", int network.serverPort),
  (utf8 "srvctl_port", int network.srvctlPort),
  (utf8 "motd", .string network.motd),
  (utf8 "max_player_count", int network.maxPlayerCount),
  (utf8 "icon_path", .string network.iconPath)]

def Security.json (security : Security) : Json := .ofMembers [
  (utf8 "online_mode", .boolean security.onlineMode),
  (utf8 "whitelist", .boolean security.whitelist),
  (utf8 "allow_survival_flight", .boolean security.allowSurvivalFlight),
  (utf8 "allow_pvp", .boolean security.allowPVP),
  (utf8 "backup_interval_minutes", int security.backupInterval),
  (utf8 "rate_limit_seconds", int security.rateLimit),
  (utf8 "max_concurrent_account", int security.maxConcurrentAccount),
  (utf8 "rbac_path", .string security.rbacPath),
  (utf8 "unban_support", .string security.unbanSupport)]

def Optimizations.json (optimizations : Optimizations) : Json := .ofMembers [
  (utf8 "view_distance", int optimizations.viewDistance),
  (utf8 "simulation_distance", int optimizations.simulationDistance)]

/-- The section of the worlds, with their list. -/
def WorldsConfig.json (worlds : WorldsConfig) (registeredWorlds : List Json) : Json := .ofMembers [
  (utf8 "default_world", .string worlds.defaultWorld),
  (utf8 "registered_worlds", .array registeredWorlds)]

/-- The document with a list of worlds. -/
def documentWith (core : CoreConfig) (registeredWorlds : List Json) : Json := .ofMembers [
  (utf8 "network", core.network.json),
  (utf8 "security", core.security.json),
  (utf8 "optimizations", core.optimizations.json),
  (utf8 "worlds", core.worlds.json registeredWorlds),
  (utf8 "features", .array (core.features.map .string))]

/-- `coreSettings` in `save`. -/
def coreSettings (core : CoreConfig) : Json := core.documentWith core.worlds.serialize

end CoreConfig

/-! ### Loading -/

/-- What a call of `load` finds. -/
structure Loading where
  host : Host
  order : Order Bytes
  /-- The cast of a float to an `int`. -/
  floatToInt : BitVec 64 → BitVec 32
  /-- The random bytes drawn for each world. -/
  randomBytes : ℕ → Bytes
  /-- The bytes of the icon with a name, if its stream is good. -/
  icon : Bytes → Except Fault (Option Bytes)
  /-- For the list of bans. -/
  bound : ℕ
  uninitialised : Bool → ℕ → Bool × BitVec 64

namespace Loading

variable (loading : Loading) {σ α : Type}

/-- The conversion to `int`. -/
def getInt : Json → Except Fault (BitVec 32)
  | .integer value => .ok (BitVec.ofInt 32 value)
  | .float bits => .ok (loading.floatToInt bits)
  | .boolean value => .ok (if value then 1 else 0)
  | _ => .error .jsonError

/-- The conversion to `bool`. -/
def getBool : Json → Except Fault Bool
  | .boolean value => .ok value
  | _ => .error .jsonError

end Loading

/-- `if (json[part].contains(key))`, behind `if (json.contains(part))`: the setting is read and
put in its place. -/
def setting {σ α : Type} (get : Json → Except Fault α) (put : α → σ → σ) (json : Json)
    (part key : String) : Process σ Fault Unit :=
  match (json.member (utf8 part)).bind fun members => members.member (utf8 key) with
  | some value => do
    let a ← Process.lift (get value)
    update (put a)
  | none => pure ()

namespace CoreConfig

def WorldType.ofText (text : Bytes) : Option WorldType :=
  if text = utf8 "limbo" then some .limbo
  else if text = utf8 "template" then some .template
  else if text = utf8 "normal" then some .normal
  else none

def StorageFormat.ofText (text : Bytes) : Option StorageFormat :=
  if text = utf8 "anvil" then some .mcAnvil
  else if text = utf8 "slime" then some .hypixelSlime
  else none

def RedstoneMode.ofText (text : Bytes) : Option RedstoneMode :=
  if text = utf8 "disabled" then some .disabled
  else if text = utf8 "vanilla" then some .vanilla
  else if text = utf8 "optimized" then some .optimized
  else none

variable (loading : Loading)

def loadNetwork (json : Json) : Process CoreConfig Fault Unit := do
  setting loading.getInt (fun v core => { core with network.threshold := v }) json
    "network" "threshold"
  setting loading.getInt (fun v core => { core with network.serverPort := v }) json
    "network" "server_port"
  setting loading.getInt (fun v core => { core with network.srvctlPort := v }) json
    "network" "srvctl_port"
  setting getString (fun v core => { core with network.motd := v }) json "network" "motd"
  setting loading.getInt (fun v core => { core with network.maxPlayerCount := v }) json
    "network" "max_player_count"
  setting getString (fun v core => { core with network.iconPath := v }) json "network" "icon_path"

def loadSecurity (json : Json) : Process CoreConfig Fault Unit := do
  setting Loading.getBool (fun v core => { core with security.onlineMode := v }) json
    "security" "online_mode"
  setting Loading.getBool (fun v core => { core with security.whitelist := v }) json
    "security" "whitelist"
  setting Loading.getBool (fun v core => { core with security.allowSurvivalFlight := v }) json
    "security" "allow_survival_flight"
  setting Loading.getBool (fun v core => { core with security.allowPVP := v }) json
    "security" "allow_pvp"
  setting loading.getInt (fun v core => { core with security.backupInterval := v }) json
    "security" "backup_interval_minutes"
  setting loading.getInt (fun v core => { core with security.rateLimit := v }) json
    "security" "rate_limit_seconds"
  setting loading.getInt (fun v core => { core with security.maxConcurrentAccount := v }) json
    "security" "max_concurrent_account"
  setting getString (fun v core => { core with security.rbacPath := v }) json
    "security" "rbac_path"
  setting getString (fun v core => { core with security.unbanSupport := v }) json
    "security" "unban_support"

def loadOptimizations (json : Json) : Process CoreConfig Fault Unit := do
  setting loading.getInt (fun v core => { core with optimizations.viewDistance := v }) json
    "optimizations" "view_distance"
  setting loading.getInt (fun v core => { core with optimizations.simulationDistance := v }) json
    "optimizations" "simulation_distance"

/-- The settings of one world; a name that is not known changes nothing. -/
def loadWorldConfig (registeredWorld : Json) : Process WorldConfig Fault Unit := do
  setting getString (fun v world =>
    { world with worldType := (WorldType.ofText v).getD world.worldType }) registeredWorld
    "world_config" "world_type"
  setting getString (fun v world =>
    { world with storageFormat := (StorageFormat.ofText v).getD world.storageFormat })
    registeredWorld "world_config" "storage_format"
  setting getString (fun v world =>
    { world with redstoneMode := (RedstoneMode.ofText v).getD world.redstoneMode })
    registeredWorld "world_config" "redstone_mode"
  setting getString (fun v world => { world with requiredPermission := v }) registeredWorld
    "world_config" "required_permission"
  setting getString (fun v world => { world with options := v }) registeredWorld
    "world_config" "options"

/-- The id of a world, which is made up if it has none. -/
def loadWorldId (drawn : Bytes) (registeredWorld : Json) : Except Fault Bytes :=
  match registeredWorld.member (utf8 "world_id") with
  | some value => getString value
  | none => .ok (utf8 "world_" ++ loading.host.base64.encode drawn)

/-- A pass of the loop over the worlds; `insert` leaves a world that is there. -/
def loadWorld (registeredWorld : Json × ℕ) : Process CoreConfig Fault Unit := do
  let worldConfig ← Process.lift (result (loadWorldConfig registeredWorld.1) {})
  let worldId ← Process.lift
    (loadWorldId loading (loading.randomBytes registeredWorld.2) registeredWorld.1)
  update fun core =>
    { core with worlds.registeredWorlds :=
        loading.order.emplace worldId worldConfig core.worlds.registeredWorlds }

def loadWorlds (json : Json) : Process CoreConfig Fault Unit := do
  setting getString (fun v core => { core with worlds.defaultWorld := v }) json
    "worlds" "default_world"
  match (json.member (utf8 "worlds")).bind fun worlds => worlds.member (utf8 "registered_worlds") with
  | some registeredWorlds => forEach (loadWorld loading) (elements registeredWorlds).zipIdx
  | none => pure ()

def loadFeature (feature : Json) : Process CoreConfig Fault Unit := do
  let feature ← Process.lift (getString feature)
  update fun core => { core with features := core.features ++ [feature] }

def loadFeatures (json : Json) : Process CoreConfig Fault Unit :=
  match json.member (utf8 "features") with
  | some features => do
    update fun core => { core with features := [] }
    forEach loadFeature (elements features)
  | none => pure ()

/-- `load` as far as the document decides it. -/
def loadSettings (json : Json) : Process CoreConfig Fault Unit := do
  loadNetwork loading json
  loadSecurity loading json
  loadOptimizations loading json
  loadWorlds loading json
  loadFeatures json

/-- An empty path for the roles is replaced. -/
def withRbacPath (core : CoreConfig) : CoreConfig :=
  if core.security.rbacPath = [] then { core with security.rbacPath := utf8 "config/rbac" } else core

/-- The icon, as far as there is one. -/
def withIcon (icon : Option Bytes) (core : CoreConfig) : CoreConfig :=
  match icon with
  | some bytes => { core with network.iconBase64 := loading.host.base64.encode bytes }
  | none => core

end CoreConfig

/-! ### What loading makes of a document -/

section Setting

variable {σ α : Type} {get : Json → Except Fault α} {put : α → σ → σ} {json members value : Json}
  {part key : String} {a : α}

theorem setting_updates (hpart : json.member (utf8 part) = some members)
    (hkey : members.member (utf8 key) = some value) (hget : get value = .ok a) :
    Updates (setting get put json part key) (put a) := by
  rw [setting, hpart, Option.bind_some, hkey]
  exact Updates.lift_bind hget (.update _)

end Setting

theorem Loading.getInt_int (loading : Loading) (value : BitVec 32) :
    loading.getInt (int value) = .ok value := congrArg Except.ok (BitVec.ofInt_toInt ..)

theorem Loading.getBool_boolean (value : Bool) : getBool (.boolean value) = .ok value := rfl

theorem getString_string (value : Bytes) : getString (.string value) = .ok value := rfl

namespace CoreConfig

@[simp] theorem WorldType.ofText_text (worldType : WorldType) :
    WorldType.ofText worldType.text = some worldType := by
  cases worldType <;> simp [text, ofText]

@[simp] theorem StorageFormat.ofText_text (storageFormat : StorageFormat) :
    StorageFormat.ofText storageFormat.text = some storageFormat := by
  cases storageFormat <;> simp [text, ofText]

@[simp] theorem RedstoneMode.ofText_text (redstoneMode : RedstoneMode) :
    RedstoneMode.ofText redstoneMode.text = some redstoneMode := by
  cases redstoneMode <;> simp [text, ofText]

variable (loading : Loading) (core : CoreConfig) (registeredWorlds : List Json)

theorem member_network :
    (core.documentWith registeredWorlds).member (utf8 "network") = some core.network.json := by
  simp [documentWith, Json.ofMembers]

theorem member_security :
    (core.documentWith registeredWorlds).member (utf8 "security") = some core.security.json := by
  simp [documentWith, Json.ofMembers]

theorem member_optimizations :
    (core.documentWith registeredWorlds).member (utf8 "optimizations") =
      some core.optimizations.json := by
  simp [documentWith, Json.ofMembers]

theorem member_features : (core.documentWith registeredWorlds).member (utf8 "features") =
    some (.array (core.features.map .string)) := by
  simp [documentWith, Json.ofMembers]

theorem loadNetwork_updates : Updates (loadNetwork loading (core.documentWith registeredWorlds))
    fun loaded =>
      { loaded with network := { core.network with iconBase64 := loaded.network.iconBase64 } } := by
  have hpart := member_network core registeredWorlds
  refine (setting_updates hpart ?_ (loading.getInt_int core.network.threshold)).bind
    ((setting_updates hpart ?_ (loading.getInt_int core.network.serverPort)).bind
    ((setting_updates hpart ?_ (loading.getInt_int core.network.srvctlPort)).bind
    ((setting_updates hpart ?_ (getString_string core.network.motd)).bind
    ((setting_updates hpart ?_ (loading.getInt_int core.network.maxPlayerCount)).bind
    (setting_updates hpart ?_ (getString_string core.network.iconPath))))))
  all_goals simp [NetworkConfig.json, Json.ofMembers]

theorem loadSecurity_updates : Updates (loadSecurity loading (core.documentWith registeredWorlds))
    fun loaded => { loaded with security := core.security } := by
  have hpart := member_security core registeredWorlds
  refine (setting_updates hpart ?_ (Loading.getBool_boolean core.security.onlineMode)).bind
    ((setting_updates hpart ?_ (Loading.getBool_boolean core.security.whitelist)).bind
    ((setting_updates hpart ?_ (Loading.getBool_boolean core.security.allowSurvivalFlight)).bind
    ((setting_updates hpart ?_ (Loading.getBool_boolean core.security.allowPVP)).bind
    ((setting_updates hpart ?_ (loading.getInt_int core.security.backupInterval)).bind
    ((setting_updates hpart ?_ (loading.getInt_int core.security.rateLimit)).bind
    ((setting_updates hpart ?_ (loading.getInt_int core.security.maxConcurrentAccount)).bind
    ((setting_updates hpart ?_ (getString_string core.security.rbacPath)).bind
    (setting_updates hpart ?_ (getString_string core.security.unbanSupport)))))))))
  all_goals simp [Security.json, Json.ofMembers]

theorem loadOptimizations_updates :
    Updates (loadOptimizations loading (core.documentWith registeredWorlds))
      fun loaded => { loaded with optimizations := core.optimizations } := by
  have hpart := member_optimizations core registeredWorlds
  refine (setting_updates hpart ?_ (loading.getInt_int core.optimizations.viewDistance)).bind
    (setting_updates hpart ?_ (loading.getInt_int core.optimizations.simulationDistance))
  all_goals simp [Optimizations.json, Json.ofMembers]

/-- A world that was saved, whatever it is loaded over. -/
theorem loadWorldConfig_updates (worldPair : Sigma fun _ : Bytes => WorldConfig) :
    Updates (loadWorldConfig (worldJson worldPair)) fun _ => worldPair.2 := by
  have hpart : (worldJson worldPair).member (utf8 "world_config") = some worldPair.2.json := by
    simp [worldJson, Json.ofMembers]
  refine ((setting_updates hpart ?_ (getString_string worldPair.2.worldType.text)).bind
    ((setting_updates hpart ?_ (getString_string worldPair.2.storageFormat.text)).bind
    ((setting_updates hpart ?_ (getString_string worldPair.2.redstoneMode.text)).bind
    ((setting_updates hpart ?_ (getString_string worldPair.2.requiredPermission)).bind
    (setting_updates hpart ?_ (getString_string worldPair.2.options)))))).congr ?_
  case refine_6 =>
    intro world
    simp
  all_goals simp [WorldConfig.json, Json.ofMembers]

theorem loadWorld_updates (worldPair : Sigma fun _ : Bytes => WorldConfig) (i : ℕ) :
    Updates (loadWorld loading (worldJson worldPair, i)) fun loaded =>
      { loaded with worlds.registeredWorlds :=
          loading.order.emplace worldPair.1 worldPair.2 loaded.worlds.registeredWorlds } := by
  have hid : loadWorldId loading (loading.randomBytes i) (worldJson worldPair) = .ok worldPair.1 := by
    simp [loadWorldId, worldJson, Json.ofMembers, getString_string]
  exact Updates.lift_bind ((loadWorldConfig_updates worldPair).result {})
    (Updates.lift_bind hid (.update _))

/-- The loop over worlds that were saved, from any of its passes on. -/
theorem forEach_loadWorld_updates (entries : List (Sigma fun _ : Bytes => WorldConfig)) (i : ℕ) :
    Updates (forEach (loadWorld loading) ((entries.map worldJson).zipIdx i)) fun loaded =>
      { loaded with worlds.registeredWorlds :=
          loading.order.emplaceAll entries loaded.worlds.registeredWorlds } := by
  induction entries generalizing i with
  | nil => exact .pure
  | cons worldPair entries ih => exact (loadWorld_updates loading worldPair i).bind (ih (i + 1))

theorem loadWorlds_updates : Updates (loadWorlds loading core.coreSettings) fun loaded =>
    { loaded with worlds := {
        registeredWorlds := loading.order.emplaceAll core.worlds.registeredWorlds.entries
          loaded.worlds.registeredWorlds
        defaultWorld := core.worlds.defaultWorld } } := by
  have hpart : core.coreSettings.member (utf8 "worlds") = some (core.worlds.json core.worlds.serialize) := by
    simp [coreSettings, documentWith, Json.ofMembers]
  have hdefault : (core.worlds.json core.worlds.serialize).member (utf8 "default_world") =
      some (.string core.worlds.defaultWorld) := by
    simp [WorldsConfig.json, Json.ofMembers]
  have hregistered : (core.worlds.json core.worlds.serialize).member (utf8 "registered_worlds") =
      some (.array core.worlds.serialize) := by
    simp [WorldsConfig.json, Json.ofMembers]
  rw [loadWorlds, hpart, Option.bind_some, hregistered]
  exact (setting_updates hpart hdefault (getString_string _)).bind
    (forEach_loadWorld_updates loading core.worlds.registeredWorlds.entries 0)

theorem forEach_loadFeature_updates (features : List Bytes) :
    Updates (forEach loadFeature (features.map .string)) fun loaded =>
      { loaded with features := loaded.features ++ features } := by
  induction features with
  | nil => exact Updates.pure.congr fun loaded => by simp
  | cons feature features ih =>
    have hfirst : Updates (loadFeature (.string feature)) fun loaded =>
        { loaded with features := loaded.features ++ [feature] } :=
      Updates.lift_bind (getString_string feature) (.update _)
    exact (hfirst.bind ih).congr fun loaded => by simp

theorem loadFeatures_updates : Updates (loadFeatures (core.documentWith registeredWorlds))
    fun loaded => { loaded with features := core.features } := by
  rw [loadFeatures, member_features]
  exact (Updates.update _).bind (forEach_loadFeature_updates core.features)

/-- A configuration that is loaded over another one: its settings without the icon, and its worlds
beside those that are there. -/
def loadedOver (core loaded : CoreConfig) : CoreConfig :=
  { core with
    network.iconBase64 := loaded.network.iconBase64
    worlds.registeredWorlds := loading.order.emplaceAll core.worlds.registeredWorlds.entries
      loaded.worlds.registeredWorlds }

theorem loadSettings_updates :
    Updates (loadSettings loading core.coreSettings) (core.loadedOver loading) :=
  (loadNetwork_updates loading core _).bind
    ((loadSecurity_updates loading core _).bind
    ((loadOptimizations_updates loading core _).bind
    ((loadWorlds_updates loading core).bind
    (loadFeatures_updates core _))))

/-! ### The same configuration -/

/-- The same settings but for the icon; the order of the worlds does not count. -/
structure Same (core loaded : CoreConfig) : Prop where
  network : { loaded.network with iconBase64 := core.network.iconBase64 } = core.network
  security : loaded.security = core.security
  optimizations : loaded.optimizations = core.optimizations
  defaultWorld : loaded.worlds.defaultWorld = core.worlds.defaultWorld
  registeredWorlds :
    loaded.worlds.registeredWorlds.entries.Perm core.worlds.registeredWorlds.entries
  features : loaded.features = core.features

variable {loading core} {loaded : CoreConfig}

theorem Same.withRbacPath (h : core.Same loaded) (hpath : core.security.rbacPath ≠ []) :
    loaded.withRbacPath = loaded := by
  rw [CoreConfig.withRbacPath, if_neg]
  rwa [h.security]

theorem Same.withIcon (h : core.Same loaded) (icon : Option Bytes) :
    core.Same (loaded.withIcon loading icon) := by
  cases icon with
  | none => exact h
  | some bytes =>
    exact ⟨h.network, h.security, h.optimizations, h.defaultWorld, h.registeredWorlds, h.features⟩

/-- The same settings in a document, with the worlds in another order. -/
theorem Same.coreSettings (h : core.Same loaded) :
    loaded.coreSettings = core.documentWith loaded.worlds.serialize := by
  have hnetwork : loaded.network.json = core.network.json := by
    rw [← h.network]
    rfl
  have hworlds : ∀ worlds, loaded.worlds.json worlds = core.worlds.json worlds := by
    intro worlds
    rw [WorldsConfig.json, WorldsConfig.json, h.defaultWorld]
  rw [CoreConfig.coreSettings, documentWith, hnetwork, h.security, h.optimizations, hworlds, h.features]
  rfl

theorem Same.serialize (h : core.Same loaded) :
    loaded.worlds.serialize.Perm core.worlds.serialize := h.registeredWorlds.map worldJson

/-- Where there are no worlds yet, nothing else stays. -/
theorem same_loadedOver (loading : Loading) (core : CoreConfig) :
    core.Same (core.loadedOver loading {}) := by
  refine ⟨rfl, rfl, rfl, rfl, ?_, rfl⟩
  have hperm := perm_emplaceAll loading.order core.worlds.registeredWorlds.entries ∅
    core.worlds.registeredWorlds.nodupKeys fun entry _ => AList.notMem_empty entry.1
  rwa [AList.empty_entries, List.append_nil] at hperm

end CoreConfig

/-! ### The calls -/

/-- A `ZincConfig`, and the two files of its working directory. -/
structure Workdir where
  core : CoreConfig := {}
  bans : List BanData := []
  zinc : Bytes
  banlist : Bytes

namespace Workdir

/-- A `ZincConfig` that has just been made, beside the same files. -/
def fresh (dir : Workdir) : Workdir := { zinc := dir.zinc, banlist := dir.banlist }

/-- What happens to `m_core` alone. -/
def onCore (x : Process CoreConfig Fault Unit) : Process Workdir Fault Unit :=
  within Workdir.core (fun core dir => { dir with core }) x

def save (host : Host) : Process Workdir Fault Unit := do
  update fun dir => { dir with core := dir.core.withRbacPath }
  update fun dir => { dir with zinc := host.json.dumpIndented dir.core.coreSettings }
  let content ← look fun dir => saveBanList host dir.bans
  update fun dir => { dir with banlist := content }

def load (loading : Loading) : Process Workdir Fault Unit := do
  let coreSettings ← look fun dir => readJSONFile loading.host dir.zinc
  onCore (loadSettings loading coreSettings)
  update fun dir => { dir with core := dir.core.withRbacPath }
  let icon ← look fun dir => loading.icon dir.core.network.iconPath
  update fun dir => { dir with core := dir.core.withIcon loading icon }
  let bans ← look fun dir =>
    loadBanList loading.host loading.bound loading.uninitialised dir.banlist dir.bans
  update fun dir => { dir with bans }
  save loading.host

/-! ### Saving and loading -/

variable {core : CoreConfig} {dir : Workdir}

theorem save_core (host : Host) (hpath : dir.core.security.rbacPath ≠ []) :
    (save host dir).2.core = dir.core ∧
      (save host dir).2.zinc = host.json.dumpIndented dir.core.coreSettings := by
  have hcore : dir.core.withRbacPath = dir.core := if_neg hpath
  simp only [save, Process.bind_apply, update, look, hcore]
  cases saveBanList host dir.bans <;> exact ⟨rfl, rfl⟩

theorem leaves_save (host : Host) (hpath : core.security.rbacPath ≠ []) :
    Leaves (fun dir : Workdir => core.Same dir.core) (save host) := by
  intro dir hsame
  rw [← hsame.security] at hpath
  rwa [(save_core host hpath).1]

/-- The settings come from the document, and what `load` does afterwards keeps them. -/
theorem load_same (loading : Loading) (hpath : core.security.rbacPath ≠ [])
    (hjson : readJSONFile loading.host dir.zinc = .ok core.coreSettings) :
    core.Same (load loading dir.fresh).2.core := by
  have hsettings : Updates (onCore (loadSettings loading core.coreSettings)) _ :=
    (loadSettings_updates loading core).within
  rw [load, look_bind (s := dir.fresh) hjson]
  refine hsettings.leaves (P := fun dir => core.Same dir.core) (s := dir.fresh) ?_
    (same_loadedOver loading core)
  refine Leaves.bind ?_ fun _ => ?_
  · exact Leaves.update fun dir hsame => by rwa [hsame.withRbacPath hpath]
  refine (Leaves.look _).bind fun icon => ?_
  refine (Leaves.update fun dir hsame => hsame.withIcon icon).bind fun _ => ?_
  refine (Leaves.look _).bind fun bans => Leaves.bind ?_ fun _ => leaves_save _ hpath
  exact Leaves.update fun dir hsame => hsame

/-- When the icon and the list of bans do not throw, `load` returns, and has saved what it
loaded. -/
theorem load_returns (loading : Loading) (hpath : core.security.rbacPath ≠ [])
    (hjson : readJSONFile loading.host dir.zinc = .ok core.coreSettings)
    {icon : Option Bytes} (hicon : loading.icon core.network.iconPath = .ok icon)
    {bans : List BanData} (hbans : loadBanList loading.host loading.bound loading.uninitialised
      dir.banlist [] = .ok bans)
    {content : Bytes} (hcontent : saveBanList loading.host bans = .ok content) :
    ∃ loaded, load loading dir.fresh = (.ok (), loaded) ∧
      loaded.zinc = loading.host.json.dumpIndented loaded.core.coreSettings := by
  have hsettings : Updates (onCore (loadSettings loading core.coreSettings)) _ :=
    (loadSettings_updates loading core).within
  have hrbac := (same_loadedOver loading core).withRbacPath hpath
  have hrbac' : (withIcon loading icon (core.loadedOver loading {})).withRbacPath =
      withIcon loading icon (core.loadedOver loading {}) :=
    ((same_loadedOver loading core).withIcon icon).withRbacPath hpath
  rw [load, look_bind (s := dir.fresh) hjson, hsettings.bind_eq, (Updates.update _).bind_eq]
  simp only [fresh, hrbac]
  rw [look_bind (f := fun dir : Workdir => loading.icon dir.core.network.iconPath) hicon,
    (Updates.update _).bind_eq,
    look_bind (f := fun dir : Workdir => loadBanList loading.host loading.bound loading.uninitialised
      dir.banlist dir.bans) hbans,
    (Updates.update _).bind_eq, save, (Updates.update _).bind_eq, (Updates.update _).bind_eq]
  simp only [hrbac']
  rw [look_bind (f := fun dir : Workdir => saveBanList loading.host dir.bans) hcontent]
  exact ⟨_, rfl, rfl⟩

/-- Loading a saved file into a fresh configuration gives every setting but the icon, and saving
again writes the same document, with the worlds in some order; so does `load` itself, unless the
icon or the list of bans throws. -/
theorem load_save (loading : Loading) (dir : Workdir) (hpath : dir.core.security.rbacPath ≠ [])
    (hjson : readJSONFile loading.host (loading.host.json.dumpIndented dir.core.coreSettings) =
      .ok dir.core.coreSettings) :
    let saved := (save loading.host dir).2
    let loaded := (load loading saved.fresh).2
    saved.zinc = loading.host.json.dumpIndented (dir.core.documentWith dir.core.worlds.serialize) ∧
      dir.core.Same loaded.core ∧
      ∃ worlds, worlds.Perm dir.core.worlds.serialize ∧
        (save loading.host loaded).2.zinc =
          loading.host.json.dumpIndented (dir.core.documentWith worlds) ∧
        ∀ icon bans content, loading.icon dir.core.network.iconPath = .ok icon →
          loadBanList loading.host loading.bound loading.uninitialised saved.banlist [] = .ok bans →
          saveBanList loading.host bans = .ok content →
            (load loading saved.fresh).1 = .ok () ∧
              loaded.zinc = loading.host.json.dumpIndented (dir.core.documentWith worlds) := by
  intro saved loaded
  have hzinc : saved.zinc = loading.host.json.dumpIndented dir.core.coreSettings :=
    (save_core loading.host hpath).2
  have hread : readJSONFile loading.host saved.zinc = .ok dir.core.coreSettings := by
    rw [hzinc, hjson]
  have hsame : dir.core.Same loaded.core := load_same loading hpath hread
  refine ⟨hzinc, hsame, loaded.core.worlds.serialize, hsame.serialize, ?_, ?_⟩
  · have hloaded : loaded.core.security.rbacPath ≠ [] := by rwa [hsame.security]
    rw [(save_core loading.host hloaded).2, hsame.coreSettings]
  · intro icon bans content hicon hbans hcontent
    obtain ⟨result, hload, hresult⟩ := load_returns loading hpath hread hicon hbans hcontent
    have hsaved : loaded = result := congrArg Prod.snd hload
    refine ⟨congrArg Prod.fst hload, ?_⟩
    rw [← hsame.coreSettings, hsaved, hresult]

/-- The file of a configuration with one world, which is not like a new one, up to its end. -/
def sampleText : Bytes := utf8
  "\x7b
    \"features\": [
        \"voice_chat\",
        \"player_models\",
        \"redpiler\"
    ],
    \"network\": \x7b
        \"icon_path\": \"icon.png\",
        \"max_player_count\": 20,
        \"motd\": \"A §bZinc§r Minecraft Server\",
        \"server_port\": 25565,
        \"srvctl_port\": 25575,
        \"threshold\": 256
    \x7d,
    \"optimizations\": \x7b
        \"simulation_distance\": 10,
        \"view_distance\": 10
    \x7d,
    \"security\": \x7b
        \"allow_pvp\": true,
        \"allow_survival_flight\": false,
        \"backup_interval_minutes\": 1440,
        \"max_concurrent_account\": 10,
        \"online_mode\": true,
        \"rate_limit_seconds\": 2,
        \"rbac_path\": \"config/rbac\",
        \"unban_support\": \"\",
        \"whitelist\": false
    \x7d,
    \"worlds\": \x7b
        \"default_world\": \"world\",
        \"registered_worlds\": [
            \x7b
                \"world_config\": \x7b
                    \"options\": \"\",
                    \"redstone_mode\": \"optimized\",
                    \"required_permission\": \"group.default\",
                    \"storage_format\": \"slime\",
                    \"world_type\": \"limbo\"
                \x7d,
                \"world_id\": \"hub\"
            \x7d
        ]
    \x7d
"

def sampleWorld : WorldConfig :=
  { worldType := .limbo, storageFormat := .hypixelSlime, redstoneMode := .optimized }

/-- The configuration of that file. -/
def sampleCore : CoreConfig :=
  { worlds := { registeredWorlds := AList.singleton (utf8 "hub") sampleWorld } }

/-- No icon, and a JSON library that knows the one document. -/
def sampleLoading : Loading where
  host := fileHost sampleCore.coreSettings (sampleText ++ [125])
  order := .newest
  floatToInt _ := 0
  randomBytes _ := zeros 4
  icon _ := .ok none
  bound := 0
  uninitialised _ _ := (false, 0)

theorem load_save_hub :
    sampleCore.Same (load sampleLoading
      (save sampleLoading.host { core := sampleCore, zinc := [], banlist := [] }).2.fresh).2.core := by
  refine (load_save sampleLoading { core := sampleCore, zinc := [], banlist := [] } ?_ ?_).2.1
  · decide
  · exact readJSONFile_fileHost _ _

end Workdir

end Zinc.Network
