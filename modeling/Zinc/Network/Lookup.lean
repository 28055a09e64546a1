import Zinc.Network.Dispatch
import Zinc.Network.Session

/-! Which functions the handlers call. A packet is looked up in a table under one key at
most; unless a function is registered under it, the handler calls an empty one and
leaves it in the table. -/

namespace Zinc.Network.Dispatch

open Throw Buffer Buffer.ByteBuffer ZincConnection

variable {host : Host} {moment : Moment} {online : ℤ} {packet : ZincPacket} {c : ZincConnection}
  {data : ByteBuffer} {tables : Tables} {dispatcher : Dispatcher}

/-! ### The tables of the repository -/

theorem callPluginChannel_initial {channel : Bytes} (h : dispatcher.tables = initialTables host) :
    (callPluginChannel moment channel data c dispatcher).1 =
      Network.callPluginChannel host moment channel c := by
  rw [callPluginChannel, Network.callPluginChannel, h]
  by_cases hchannel : channel = utf8 "minecraft:brand"
  · simp [subscript, initialTables, hchannel, invoke]
  · simp [subscript, initialTables, hchannel, invoke]

theorem callCookieResponseParser_initial {cookieId : Bytes} {cookieData : Option Bytes}
    (h : dispatcher.tables = initialTables host) :
    (callCookieResponseParser moment cookieId cookieData c dispatcher).1 =
      Network.callCookieResponseParser cookieId cookieData c := by
  rw [callCookieResponseParser, Network.callCookieResponseParser, h]
  rfl

theorem loginPluginResponse_initial (h : dispatcher.tables = initialTables host) :
    (loginPluginResponse host moment data c dispatcher).1 =
      Network.loginPluginResponse host moment data c := by
  rw [loginPluginResponse, Network.loginPluginResponse, Process.bind_fst]
  apply congrArg
  funext ⟨id, rest⟩
  dsimp only
  split
  · rw [Process.bind_fst]
    change (callPluginChannel moment _ rest c dispatcher).1 >>= _ = _
    rw [callPluginChannel_initial h]
    rfl
  · rfl

theorem cookieResponse_initial (h : dispatcher.tables = initialTables host) :
    (cookieResponse host moment data c dispatcher).1 = Network.cookieResponse host moment data c := by
  rw [cookieResponse, Network.cookieResponse, Process.bind_fst]
  apply congrArg
  funext ⟨cookieId, rest⟩
  rw [Process.bind_fst]
  apply congrArg
  funext ⟨bytes, rest⟩
  cases bytes with
  | none => exact callCookieResponseParser_initial h
  | some cookieRawData =>
    rw [Process.bind_fst]
    apply congrArg
    funext cookieData
    exact callCookieResponseParser_initial h

theorem pluginMessage_initial (h : dispatcher.tables = initialTables host) :
    (pluginMessage moment data c dispatcher).1 = Network.pluginMessage host moment data c := by
  rw [pluginMessage, Network.pluginMessage, Process.bind_fst]
  apply congrArg
  funext ⟨channel, rest⟩
  exact callPluginChannel_initial h

theorem done_fst (x : Dispatching ZincConnection) (dispatcher : Dispatcher) :
    (done x dispatcher).1 = Handled.done (x dispatcher).1 := Process.bind_fst x _ dispatcher

/-- With the tables of the repository a packet is handled as `switch` handles it. -/
theorem switch_initial (host : Host) (moment : Moment) (online : ℤ) (packet : ZincPacket)
    (c : ZincConnection) (calls : List Call) :
    (switch host moment online packet c ⟨initialTables host, calls⟩).1 =
      Network.switch host moment online packet c := by
  unfold switch
  split
  next h =>
    rw [done_fst, loginPluginResponse_initial rfl]
    simp [Network.switch, switchLogin, h]
  split
  next h =>
    rw [done_fst, cookieResponse_initial rfl]
    obtain h | h := h
    · simp [Network.switch, switchLogin, h]
    · simp [Network.switch, switchConfig, h]
  split
  next h =>
    rw [done_fst, pluginMessage_initial rfl]
    simp [Network.switch, switchConfig, h]
  · rfl

/-! ### Calls -/

/-- What is looked up: a key of one of the tables. -/
inductive Key where
  | pluginChannel (channel : Bytes)
  | cookieResponseParser (cookieId : Bytes)

/-- A function is registered under the key. -/
def Key.Registered (tables : Tables) : Key → Prop
  | pluginChannel channel => ∃ f, tables.pluginChannels channel = some (some f)
  | cookieResponseParser cookieId => ∃ f, tables.cookieResponseParsers cookieId = some (some f)

/-- The call is of the function that is registered under its key. -/
def Call.Registered (tables : Tables) : Call → Prop
  | pluginChannel channel function _ =>
    ∃ f, function = some f ∧ tables.pluginChannels channel = some (some f)
  | cookieResponseParser cookieId function _ =>
    ∃ f, function = some f ∧ tables.cookieResponseParsers cookieId = some (some f)
  | loginError _ => True

/-- Only registered functions were called, and the tables are what they were. -/
def Total (tables : Tables) (dispatcher : Dispatcher) : Prop :=
  (∀ call ∈ dispatcher.calls, call.Registered tables) ∧ dispatcher.tables = tables

theorem total_nil (tables : Tables) : Total tables ⟨tables, []⟩ := ⟨by simp, rfl⟩

theorem total_callPluginChannel {channel : Bytes} :
    Total tables (callPluginChannel moment channel data c ⟨tables, []⟩).2 ↔
      (Key.pluginChannel channel).Registered tables := by
  cases h : tables.pluginChannels channel with
  | none => simp [callPluginChannel, subscript, Total, Call.Registered, Key.Registered, h]
  | some function =>
    simp [callPluginChannel, subscript, Total, Call.Registered, Key.Registered, h]

theorem total_callCookieResponseParser {cookieId : Bytes} {cookieData : Option Bytes} :
    Total tables (callCookieResponseParser moment cookieId cookieData c ⟨tables, []⟩).2 ↔
      (Key.cookieResponseParser cookieId).Registered tables := by
  cases h : tables.cookieResponseParsers cookieId with
  | none => simp [callCookieResponseParser, subscript, Total, Call.Registered, Key.Registered, h]
  | some function =>
    simp [callCookieResponseParser, subscript, Total, Call.Registered, Key.Registered, h]

/-- What a handler does behind a reader. -/
theorem total_lift_bind {α β : Type} {x : Except Fault α} {f : α → Dispatching β} :
    Total tables ((Process.lift x >>= f) ⟨tables, []⟩).2 ↔
      ∀ a, x = .ok a → Total tables (f a ⟨tables, []⟩).2 := by
  cases x with
  | error e => simp [total_nil]
  | ok a => simp

/-! ### Handlers -/

theorem total_loginPluginResponse :
    Total tables (loginPluginResponse host moment data c ⟨tables, []⟩).2 ↔
      ∀ id rest, readArray readUnsignedByte 4 data = .ok (id, rest) →
        c.isLoginPluginChannelOpened id = true →
          (Key.pluginChannel (c.getLoginPluginChannel id)).Registered tables := by
  rw [loginPluginResponse, total_lift_bind, Prod.forall]
  refine forall₂_congr fun id rest => imp_congr_right fun _ => ?_
  dsimp only
  split
  next hopen =>
    rw [Process.bind_pure_snd, total_callPluginChannel]
    simp [hopen]
  next hopen =>
    have htotal : Total tables (sendLoginError host
        "Server received invalid login plugin channel id" c ⟨tables, []⟩).2 := by
      simp [sendLoginError, Total, Call.Registered]
    simp [hopen, htotal]

/-- The payload of a cookie passes the server's own check, if there is one. -/
def PayloadReadable (host : Host) (moment : Moment) (bytes : Option Bytes) : Prop :=
  ∀ cookieRawData ∈ bytes, ∃ cookieData, extractedPayload host moment cookieRawData = .ok cookieData

theorem total_cookieResponse :
    Total tables (cookieResponse host moment data c ⟨tables, []⟩).2 ↔
      ∀ cookieId rest, readIdentifier data = .ok (cookieId, rest) →
        ∀ bytes rest', readPrefixedOptional readPrefixedByteArray rest = .ok (bytes, rest') →
          PayloadReadable host moment bytes →
            (Key.cookieResponseParser cookieId.toString).Registered tables := by
  rw [cookieResponse, total_lift_bind, Prod.forall]
  refine forall₂_congr fun cookieId rest => imp_congr_right fun _ => ?_
  dsimp only
  rw [total_lift_bind, Prod.forall]
  refine forall₂_congr fun bytes rest' => imp_congr_right fun _ => ?_
  cases bytes with
  | none => simp [total_callCookieResponseParser, PayloadReadable]
  | some cookieRawData =>
    dsimp only
    rw [total_lift_bind]
    simp [total_callCookieResponseParser, PayloadReadable]

theorem total_pluginMessage :
    Total tables (pluginMessage moment data c ⟨tables, []⟩).2 ↔
      ∀ channel rest, readIdentifier data = .ok (channel, rest) →
        (Key.pluginChannel channel.toString).Registered tables := by
  rw [pluginMessage, total_lift_bind, Prod.forall]
  refine forall₂_congr fun channel rest => imp_congr_right fun _ => ?_
  exact total_callPluginChannel

theorem total_done {x : Dispatching ZincConnection} :
    Total tables (done x ⟨tables, []⟩).2 ↔ Total tables (x ⟨tables, []⟩).2 := by
  rw [done, Process.bind_pure_snd]

/-! ### Packets -/

/-- The key that a packet is looked up under, if it can be read that far. -/
inductive Asks (host : Host) (moment : Moment) (packet : ZincPacket) (c : ZincConnection) : Key → Prop
  | loginPluginResponse {id : Bytes} {rest : ByteBuffer} (hkind : c.state = .login ∧ packet.id = 2)
      (hid : readArray readUnsignedByte 4 packet.data = .ok (id, rest))
      (hopen : c.isLoginPluginChannelOpened id = true) :
      Asks host moment packet c (.pluginChannel (c.getLoginPluginChannel id))
  | cookieResponse {cookieId : Identifier} {bytes : Option Bytes} {rest rest' : ByteBuffer}
      (hkind : c.state = .login ∧ packet.id = 4 ∨ c.state = .config ∧ packet.id = 1)
      (hcookieId : readIdentifier packet.data = .ok (cookieId, rest))
      (hbytes : readPrefixedOptional readPrefixedByteArray rest = .ok (bytes, rest'))
      (hpayload : PayloadReadable host moment bytes) :
      Asks host moment packet c (.cookieResponseParser cookieId.toString)
  | pluginMessage {channel : Identifier} {rest : ByteBuffer}
      (hkind : c.state = .config ∧ packet.id = 2)
      (hchannel : readIdentifier packet.data = .ok (channel, rest)) :
      Asks host moment packet c (.pluginChannel channel.toString)

/-- A packet is dispatched properly exactly when a function is registered under the key
that it is looked up under. -/
theorem dispatch_total_iff (host : Host) (moment : Moment) (online : ℤ) (packet : ZincPacket)
    (c : ZincConnection) (tables : Tables) :
    Total tables (switch host moment online packet c ⟨tables, []⟩).2 ↔
      ∀ key, Asks host moment packet c key → key.Registered tables := by
  unfold switch
  split
  next hkind =>
    rw [total_done, total_loginPluginResponse]
    constructor
    · intro h key hasks
      cases hasks with
      | loginPluginResponse _ hid hopen => exact h _ _ hid hopen
      | cookieResponse hkind' => simp [hkind] at hkind'
      | pluginMessage hkind' => simp [hkind] at hkind'
    · exact fun h id rest hid hopen => h _ (.loginPluginResponse hkind hid hopen)
  split
  next hkind₁ hkind =>
    rw [total_done, total_cookieResponse]
    constructor
    · intro h key hasks
      cases hasks with
      | loginPluginResponse hkind' => exact absurd hkind' hkind₁
      | cookieResponse _ hcookieId hbytes hpayload => exact h _ _ hcookieId _ _ hbytes hpayload
      | pluginMessage hkind' => simp [hkind'] at hkind
    · exact fun h cookieId rest hcookieId bytes rest' hbytes hpayload =>
        h _ (.cookieResponse hkind hcookieId hbytes hpayload)
  split
  next hkind₁ hkind₂ hkind =>
    rw [total_done, total_pluginMessage]
    constructor
    · intro h key hasks
      cases hasks with
      | loginPluginResponse hkind' => exact absurd hkind' hkind₁
      | cookieResponse hkind' => exact absurd hkind' hkind₂
      | pluginMessage _ hchannel => exact h _ _ hchannel
    · exact fun h channel rest hchannel => h _ (.pluginMessage hkind hchannel)
  next hkind₁ hkind₂ hkind₃ =>
    refine ⟨fun _ key hasks => ?_, fun _ => total_nil tables⟩
    cases hasks with
    | loginPluginResponse hkind' => exact absurd hkind' hkind₁
    | cookieResponse hkind' => exact absurd hkind' hkind₂
    | pluginMessage hkind' => exact absurd hkind' hkind₃

/-! ### Registration -/

/-- What the tables can contain: functions are registered in any order, under any key. -/
inductive Reachable (host : Host) : Tables → Prop
  | initial : Reachable host (initialTables host)
  | pluginChannel {tables : Tables} (h : Reachable host tables) (channel : Bytes) (f : PluginChannel) :
      Reachable host { tables with
        pluginChannels := Function.update tables.pluginChannels channel (some (some f)) }
  | cookieResponseParser {tables : Tables} (h : Reachable host tables) (cookieId : Bytes)
      (f : CookieResponseParser) :
      Reachable host { tables with
        cookieResponseParsers := Function.update tables.cookieResponseParsers cookieId (some (some f)) }

/-- `contains`. -/
def Key.Contained (tables : Tables) : Key → Prop
  | pluginChannel channel => tables.pluginChannels channel ≠ none
  | cookieResponseParser cookieId => tables.cookieResponseParsers cookieId ≠ none

/-- Whatever a table contains by registration is a function. -/
theorem function_of_update {α : Type} (table : Table α) {key key' : Bytes} {f : α}
    (h : table key ≠ none → ∃ g, table key = some (some g))
    (hkey : Function.update table key' (some (some f)) key ≠ none) :
    ∃ g, Function.update table key' (some (some f)) key = some (some g) := by
  by_cases hsame : key = key'
  · rw [hsame, Function.update_self]
    exact ⟨f, rfl⟩
  · rw [Function.update_of_ne hsame] at hkey ⊢
    exact h hkey

theorem Reachable.registered_iff (h : Reachable host tables) (key : Key) :
    key.Registered tables ↔ key.Contained tables := by
  constructor
  · cases key with
    | pluginChannel => exact fun ⟨f, hf⟩ => by simp [Key.Contained, hf]
    | cookieResponseParser => exact fun ⟨f, hf⟩ => by simp [Key.Contained, hf]
  · intro hkey
    induction h with
    | initial =>
      cases key with
      | cookieResponseParser => exact absurd rfl hkey
      | pluginChannel channel =>
        exact function_of_update (fun _ => none) (fun h => (h rfl).elim) hkey
    | pluginChannel _ _ _ ih =>
      cases key with
      | cookieResponseParser => exact ih hkey
      | pluginChannel channel => exact function_of_update _ ih hkey
    | cookieResponseParser _ _ _ ih =>
      cases key with
      | cookieResponseParser => exact function_of_update _ ih hkey
      | pluginChannel channel => exact ih hkey

/-- A plugin message on the channel `a:b`. -/
def strangeMessage : ZincPacket := ⟨2, ofBytes [3, 97, 58, 98]⟩

theorem readIdentifier_strangeMessage : ∃ rest,
    readIdentifier strangeMessage.data = .ok (⟨[97], [98]⟩, rest) := by
  have hstored : Stored true (ofBytes [3, 97, 58, 98]) _ := (writeBytes_new [3, 97, 58, 98]).2.1
  have hlength : ([97, 58, 98] : Bytes).length < 2 ^ 31 := by decide
  obtain ⟨rest, hread, -⟩ := (readable_stored true).readVarBytes hlength _ [] hstored
  refine ⟨rest, ?_⟩
  rw [strangeMessage, readIdentifier, bind_of_eq_ok (show readString _ = _ from hread)]
  rfl

/-- The message calls an empty function. -/
theorem not_dispatch_total : ¬ ∀ host moment online packet c tables, Reachable host tables →
    Total tables (switch host moment online packet c ⟨tables, []⟩).2 := by
  intro h
  have htotal := h sampleHost (sampleMoment []) 0 strangeMessage { waiting [] with state := .config }
    (initialTables sampleHost) .initial
  change Total _ (done (pluginMessage _ _ _) _).2 at htotal
  rw [total_done, total_pluginMessage] at htotal
  obtain ⟨rest, hread⟩ := readIdentifier_strangeMessage
  obtain ⟨f, hf⟩ := htotal _ _ hread
  rw [initialTables] at hf
  dsimp only at hf
  rw [Function.update_of_ne (by decide)] at hf
  cases hf

end Zinc.Network.Dispatch
