import Zinc.Network.Lookup

/-! Login plugin requests and their responses. A request names its channel by three
random bytes and carries them as an `int`, so as a VarInt; the handler of a response
reads four raw bytes and looks for a channel with that name. No channel has one, so
every response is refused. -/

namespace Zinc.Network.Dispatch

open Throw Buffer Buffer.ByteBuffer ZincConnection

variable {host : Host} {moment : Moment} {online : ℤ} {packet : ZincPacket} {c c' : ZincConnection}
  {data : ByteBuffer} {tables : Tables} {channels : List (Bytes × Bytes)} {m : BitVec 32}
  {payload : Bytes}

/-! ### Open channels -/

/-- The `int` that a request carries for the id of its channel. -/
def messageId (id : Bytes) : BitVec 32 := BitVec.ofNat 32 (Endian.value (id.take 3))

/-- The channels that `sendPluginMessage` opens, some of them closed again. -/
inductive OpenedBy (host : Host) : List (Bytes × Bytes) → Prop
  | none : OpenedBy host []
  | sent {c c' : ZincConnection} {moment : Moment} {pluginChannel : Identifier} {data : Bytes}
      (h : OpenedBy host c.openedLoginPluginChannels)
      (hsent : c.sendPluginMessage host moment pluginChannel data = .ok c') :
      OpenedBy host c'.openedLoginPluginChannels
  | closed {c : ZincConnection} (h : OpenedBy host c.openedLoginPluginChannels) (id : Bytes) :
      OpenedBy host (c.closeLoginPluginChannel id).openedLoginPluginChannels

theorem opened_of_sends {ids : List (BitVec 32)} (h : Sends host ids c c') :
    c'.openedLoginPluginChannels = c.openedLoginPluginChannels := by
  obtain ⟨encrypt, new, rfl, -⟩ := h
  rfl

/-- A request opens a channel under an id of three bytes that was not in use, and carries it. -/
theorem openLoginPluginChannel_eq_ok {channel : Bytes} {sent : BitVec 32}
    (h : c.openLoginPluginChannel moment channel = .ok (sent, c')) :
    ∃ id, id.length = 3 ∧ c.isLoginPluginChannelOpened id = false ∧ sent = messageId id ∧
      c'.openedLoginPluginChannels = (id, channel) :: c.openedLoginPluginChannels := by
  unfold openLoginPluginChannel at h
  split at h
  next id hfind =>
    cases h
    have hunused := List.find?_some hfind
    exact ⟨id, moment.length_channelIds id (List.mem_of_find?_eq_some hfind), by simpa using hunused,
      rfl, rfl⟩
  · cases h

theorem sendPluginMessage_opened {pluginChannel : Identifier} {data : Bytes}
    (h : c.sendPluginMessage host moment pluginChannel data = .ok c') :
    c'.openedLoginPluginChannels = c.openedLoginPluginChannels ∨ ∃ id, id.length = 3 ∧
      c'.openedLoginPluginChannels = (id, pluginChannel.toString) :: c.openedLoginPluginChannels := by
  unfold sendPluginMessage at h
  split at h
  · obtain ⟨⟨sent, c₁⟩, hopen, h⟩ := bind_eq_ok.mp h
    obtain ⟨id, hlength, -, -, hopened⟩ := openLoginPluginChannel_eq_ok hopen
    exact .inr ⟨id, hlength, (opened_of_sends (post_eq_ok h)).trans hopened⟩
  · exact .inl (opened_of_sends (post_eq_ok h))
  · exact .inl (opened_of_sends (post_eq_ok h))
  · cases h
    exact .inl rfl

theorem OpenedBy.length_id (h : OpenedBy host channels) : ∀ p ∈ channels, p.1.length = 3 := by
  induction h with
  | none => simp
  | sent h hsent ih =>
    obtain hopened | ⟨id, hlength, hopened⟩ := sendPluginMessage_opened hsent
    · rwa [hopened]
    · rw [hopened]
      exact List.forall_mem_cons.mpr ⟨hlength, ih⟩
  | closed h id ih => exact fun p hp => ih p (List.mem_filter.mp hp).1

/-! ### Responses -/

/-- Four bytes can be read from every packet; past its end they are zeros. -/
theorem readArray_four (h : Fresh true data payload) :
    ∃ id rest, readArray readUnsignedByte 4 data = .ok (id, rest) ∧ id.length = 4 := by
  have hmemory : ((memory payload).take 4).length = 4 := by
    have := length_memory payload
    rw [List.length_take]
    unfold blockSize at this
    omega
  have hall := Consumes.replicate (fun b => [b]) ((memory payload).take 4) fun b _ =>
    (readable_ahead true payload.length).readByte b
  rw [List.flatMap_singleton', hmemory] at hall
  have hahead := h.ahead
  rw [← List.take_append_drop 4 (memory payload)] at hahead
  obtain ⟨rest, hread, -⟩ := hall data _ hahead
  exact ⟨_, rest, hread, hmemory⟩

/-- The message of a refusal. -/
def refusal : Call := .loginError "Server received invalid login plugin channel id"

/-- No response is accepted: four bytes never name an open channel. -/
theorem loginPluginResponse_refuses (hopened : OpenedBy host c.openedLoginPluginChannels)
    (hdata : Fresh true data payload) :
    loginPluginResponse host moment data c ⟨tables, []⟩ =
      (c.sendLoginError host "Server received invalid login plugin channel id", ⟨tables, [refusal]⟩) := by
  obtain ⟨id, rest, hread, hlength⟩ := readArray_four hdata
  have hclosed : c.isLoginPluginChannelOpened id = false := by
    apply List.any_eq_false.mpr
    intro p hp hid
    have hthree := hopened.length_id p hp
    rw [of_decide_eq_true hid, hlength] at hthree
    cases hthree
  rw [loginPluginResponse, hread, Process.lift_ok_bind]
  dsimp only
  rw [hclosed, if_neg Bool.false_ne_true]
  rfl

theorem switch_response (hopened : OpenedBy host c.openedLoginPluginChannels)
    (hkind : c.state = .login ∧ packet.id = 2) (hdata : Fresh true packet.data payload) :
    switch host moment online packet c ⟨tables, []⟩ =
      (Handled.done (c.sendLoginError host "Server received invalid login plugin channel id"),
        ⟨tables, [refusal]⟩) := by
  rw [switch, if_pos hkind]
  apply Prod.ext
  · rw [done_fst, loginPluginResponse_refuses hopened hdata]
  · rw [done, Process.bind_pure_snd, loginPluginResponse_refuses hopened hdata]

/-- What should become of a response with a message id and a payload: the channel whose
request carried the id gets the payload and is closed, and a response with any other id
is refused. -/
structure Correlates (tables : Tables) (c : ZincConnection) (m : BitVec 32) (payload : Bytes)
    (result : Except Fault Handled) (dispatcher : Dispatcher) : Prop where
  accepted : ∀ id channel, (id, channel) ∈ c.openedLoginPluginChannels → messageId id = m →
    (∃ function data, dispatcher.calls = [.pluginChannel channel function data] ∧
      Stored true data payload) ∧
    Returns (fun handled => handled.connection.openedLoginPluginChannels =
      c.openedLoginPluginChannels.filter fun p => p.1 ≠ id) result
  refused : (∀ p ∈ c.openedLoginPluginChannels, messageId p.1 ≠ m) →
    (∃ message, dispatcher.calls = [.loginError message]) ∧ dispatcher.tables = tables ∧
    Returns (fun handled => handled.connection.openedLoginPluginChannels =
      c.openedLoginPluginChannels) result

/-- A response is treated properly exactly when no open channel has its message id. -/
theorem correlates_iff (hopened : OpenedBy host c.openedLoginPluginChannels)
    (hkind : c.state = .login ∧ packet.id = 2) (hdata : Fresh true packet.data (intBytes m ++ payload)) :
    Correlates tables c m payload (switch host moment online packet c ⟨tables, []⟩).1
        (switch host moment online packet c ⟨tables, []⟩).2 ↔
      ∀ p ∈ c.openedLoginPluginChannels, messageId p.1 ≠ m := by
  rw [switch_response hopened hkind hdata]
  constructor
  · rintro h ⟨id, channel⟩ hp hid
    obtain ⟨⟨function, data, hcall, -⟩, -⟩ := h.accepted id channel hp hid
    cases hcall
  · intro hother
    refine ⟨fun id channel hp hid => absurd hid (hother _ hp), fun _ => ⟨⟨_, rfl⟩, rfl, ?_⟩⟩
    intro handled hdone
    exact opened_of_sends (sendLoginError_eq_ok (done_eq_ok hdone))

/-! ### One request -/

/-- The id 1, 2, 3 is drawn. -/
def drawing : Moment :=
  { sampleMoment [] with channelIds := [[1, 2, 3]], length_channelIds := by simp }

def brand : Identifier := ⟨utf8 "minecraft", utf8 "brand"⟩

/-- A connection that waits for the response to one request. -/
theorem exists_openedBy : ∃ c : ZincConnection, OpenedBy sampleHost c.openedLoginPluginChannels ∧
    c.state = .login ∧ c.openedLoginPluginChannels = [([1, 2, 3], brand.toString)] := by
  have hwrite := (produces_writeVarInt (messageId [1, 2, 3])).bind
    (((writable_fresh true).writeVarBytes brand.toString).bind (produces_writeBytes []))
  let c : ZincConnection := { waiting [] with state := .login }
  obtain ⟨c', hpost⟩ := @post_total_plain sampleHost
    { c with openedLoginPluginChannels := [([1, 2, 3], brand.toString)] } 4 _ _ hwrite rfl
  have hsent : c.sendPluginMessage sampleHost drawing brand [] = .ok c' := hpost
  have hsends := post_eq_ok hpost
  refine ⟨c', .sent (c := c) .none hsent, hsends.state_eq, opened_of_sends hsends⟩

/-- A response to a request that was not made is refused. -/
theorem correlates_iff_other : ∃ c : ZincConnection, c.openedLoginPluginChannels ≠ [] ∧
    (Correlates (initialTables sampleHost) c 0 []
      (switch sampleHost drawing 0 ⟨2, ofBytes (intBytes 0 ++ [])⟩ c ⟨initialTables sampleHost, []⟩).1
      (switch sampleHost drawing 0 ⟨2, ofBytes (intBytes 0 ++ [])⟩ c ⟨initialTables sampleHost, []⟩).2 ↔
    ∀ p ∈ c.openedLoginPluginChannels, messageId p.1 ≠ 0) := by
  obtain ⟨c, hopened, hstate, hchannels⟩ := exists_openedBy
  refine ⟨c, by simp [hchannels], ?_⟩
  exact correlates_iff hopened ⟨hstate, rfl⟩ (writeBytes_new _).2

/-- The response to a request is refused. -/
theorem not_correlates : ¬ ∀ host moment online packet (c : ZincConnection) tables m payload,
    OpenedBy host c.openedLoginPluginChannels → c.state = .login ∧ packet.id = 2 →
    Fresh true packet.data (intBytes m ++ payload) →
    Correlates tables c m payload (switch host moment online packet c ⟨tables, []⟩).1
      (switch host moment online packet c ⟨tables, []⟩).2 := by
  intro h
  obtain ⟨c, hopened, hstate, hchannels⟩ := exists_openedBy
  obtain ⟨packet, hid, hdata⟩ : ∃ packet : ZincPacket, packet.id = 2 ∧
      Fresh true packet.data (intBytes (messageId [1, 2, 3]) ++ []) :=
    ⟨⟨2, ofBytes _⟩, rfl, (writeBytes_new _).2⟩
  have hcorrelates := h sampleHost drawing 0 packet c (initialTables sampleHost) _ _ hopened
    ⟨hstate, hid⟩ hdata
  obtain ⟨⟨function, data, hcalls, -⟩, -⟩ :=
    hcorrelates.accepted [1, 2, 3] brand.toString (by simp [hchannels]) rfl
  rw [switch_response hopened ⟨hstate, hid⟩ hdata] at hcalls
  cases hcalls

end Zinc.Network.Dispatch
