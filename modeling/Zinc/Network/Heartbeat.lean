import Zinc.Network.Session

/-! Keep alives and pings. The answer to a client's settings carries the time and four random
bytes; the client is to send both back. A keep alive is checked against the time and uses it
up, which leaves the value -1 behind; a ping is checked against the bytes and may be repeated.
So which of them pass is told by the last of the packets that write the two values. -/

namespace Zinc.Network

open Throw History Buffer Buffer.ByteBuffer ZincConnection

variable {host : Host} {past : Past ZincConnection Input} {c c₀ c' : ZincConnection} {i : Input}
  {moment : Moment} {handled : Handled}

/-! ### Packets -/

/-- A client's settings that are answered. -/
def Asked (host : Host) (c : ZincConnection) (i : Input) : Prop := ConfigInfo c i ∧ ¬ Banned host c i

def KeepAlive (value : BitVec 64) (c : ZincConnection) (i : Input) : Prop :=
  c.state = .config ∧ i.packet.id = 4 ∧ ∃ rest, readNumeric 8 i.packet.data = .ok (value, rest)

def Ping (bytes : Bytes) (c : ZincConnection) (i : Input) : Prop :=
  c.state = .config ∧ i.packet.id = 5 ∧
    ∃ rest, readArray readUnsignedByte 4 i.packet.data = .ok (bytes, rest)

/-- A packet is handled, and nothing is sent for it. -/
def Passes (host : Host) (c : ZincConnection) (i : Input) : Prop :=
  ∃ handled, switch host i.moment i.online i.packet c = .ok handled ∧
    handled.connection.output = c.output

/-- A keep alive that passes. -/
def Echoed (host : Host) (c : ZincConnection) (i : Input) : Prop :=
  (∃ value, KeepAlive value c i) ∧ Passes host c i

/-- A login error in the state `Config` is seen. -/
theorem not_output_eq_of_loginError {message : String} (hstate : c.state = .config)
    (h : c.sendLoginError host message = .ok c') : c'.output ≠ c.output := by
  rcases sendLoginError_eq_ok h with ⟨encrypt, new, rfl, -, hkeys, -⟩
  rw [hstate] at hkeys
  intro houtput
  rw [List.append_right_eq_self.mp houtput] at hkeys
  simp [disconnectIds] at hkeys

theorem switch_of_config (hstate : c.state = .config) :
    switch host i.moment i.online i.packet c = switchConfig host i.moment i.packet c := by
  rw [switch, hstate]

theorem switch_keepAlive {value : BitVec 64} (h : KeepAlive value c i) :
    switch host i.moment i.online i.packet c =
      Handled.done (if c.networkInfo.lastKeepAlive ≠ value then
        c.sendLoginError host "Server received invalid keep alive packet"
      else .ok { c with networkInfo := { c.networkInfo with lastKeepAlive := -1 } }) := by
  rcases h with ⟨hstate, hid, rest, hread⟩
  have hswitch : switchConfig host i.moment i.packet c = Handled.done (keepAlive host i.packet.data c) := by
    simp [switchConfig, hid]
  rw [switch_of_config hstate, hswitch, keepAlive, hread, ok_bind]
  rfl

theorem switch_ping {bytes : Bytes} (h : Ping bytes c i) :
    switch host i.moment i.online i.packet c =
      Handled.done (if c.networkInfo.verifyToken ≠ bytes then
        c.sendLoginError host "Server received invalid ping packet"
      else .ok c) := by
  rcases h with ⟨hstate, hid, rest, hread⟩
  have hswitch : switchConfig host i.moment i.packet c = Handled.done (ping host i.packet.data c) := by
    simp [switchConfig, hid]
  rw [switch_of_config hstate, hswitch, ping, hread, ok_bind]
  rfl

theorem passes_keepAlive_iff {value : BitVec 64} (h : KeepAlive value c i) :
    Passes host c i ↔ c.networkInfo.lastKeepAlive = value := by
  unfold Passes
  rw [switch_keepAlive h]
  split
  next hne =>
    refine iff_of_false ?_ hne
    rintro ⟨handled, hdone, houtput⟩
    exact not_output_eq_of_loginError h.1 (done_eq_ok hdone) houtput
  next heq => exact iff_of_true ⟨_, rfl, rfl⟩ (not_not.mp heq)

theorem passes_ping_iff {bytes : Bytes} (h : Ping bytes c i) :
    Passes host c i ↔ c.networkInfo.verifyToken = bytes := by
  unfold Passes
  rw [switch_ping h]
  split
  next hne =>
    refine iff_of_false ?_ hne
    rintro ⟨handled, hdone, houtput⟩
    exact not_output_eq_of_loginError h.1 (done_eq_ok hdone) houtput
  next heq => exact iff_of_true ⟨_, rfl, rfl⟩ (not_not.mp heq)

/-! ### What writes the time -/

/-- The computation leaves a connection that waits for a value, if it leaves any. -/
abbrev Awaits (value : BitVec 64) (x : Except Fault ZincConnection) : Prop :=
  Returns (fun c => c.networkInfo.lastKeepAlive = value) x

/-- The same for a handler. -/
abbrev HandledAwaits (value : BitVec 64) (x : Except Fault Handled) : Prop :=
  Returns (fun handled => handled.connection.networkInfo.lastKeepAlive = value) x

variable {ids : List (BitVec 32)} {value : BitVec 64} {x : Except Fault ZincConnection}
  {data : ByteBuffer}

theorem Awaits.done (h : Awaits value x) : HandledAwaits value (Handled.done x) :=
  Returns.bind h fun _ hc => Returns.ok hc

theorem Awaits.leave (h : Awaits value x) : HandledAwaits value (Handled.leave x) :=
  Returns.bind h fun _ hc => Returns.ok hc

theorem Sends.awaits (h : Sends host ids c c') (hc : c.networkInfo.lastKeepAlive = value) :
    c'.networkInfo.lastKeepAlive = value := by
  rcases h with ⟨encrypt, new, rfl, -⟩
  exact hc

theorem awaits_post {id : BitVec 32} {write : Action Unit} (h : c.networkInfo.lastKeepAlive = value) :
    Awaits value (c.post host id write) :=
  fun _ hc => (post_eq_ok hc).awaits h

theorem awaits_loginError {message : String} (h : c.networkInfo.lastKeepAlive = value) :
    Awaits value (c.sendLoginError host message) :=
  fun _ hc => (sendLoginError_eq_ok hc).awaits h

theorem awaits_encryptionRequest (h : c.networkInfo.lastKeepAlive = value) :
    HandledAwaits value (Handled.done (sendEncryptionRequest host moment c)) :=
  Awaits.done (awaits_post (by exact h))

theorem awaits_loginStart (online : ℤ) (c : ZincConnection) :
    HandledAwaits c.networkInfo.lastKeepAlive (loginStart host moment online data c) := by
  unfold loginStart
  split
  · exact Awaits.leave (awaits_loginError rfl)
  split
  · exact Awaits.leave (awaits_loginError rfl)
  split
  · exact Awaits.done (awaits_loginError rfl)
  split
  · exact Awaits.done (awaits_loginError rfl)
  refine Returns.of_bind ?_
  rintro ⟨name, data⟩
  refine Returns.of_bind ?_
  rintro ⟨uuid, data'⟩
  dsimp only
  split
  · exact Awaits.done (awaits_loginError rfl)
  split
  · refine Returns.bind (P := fun c' => c'.networkInfo.lastKeepAlive = c.networkInfo.lastKeepAlive) ?_
      fun c' hc' => awaits_encryptionRequest hc'
    unfold setupCompression
    split
    · exact Returns.ok rfl
    · exact Returns.bind (awaits_post rfl) fun c' hc' => Returns.ok hc'
  · exact awaits_encryptionRequest rfl

theorem awaits_encryptionResponse (c : ZincConnection) :
    HandledAwaits c.networkInfo.lastKeepAlive (encryptionResponse host moment data c) := by
  have hsuccess : ∀ c' : ZincConnection, c'.networkInfo.lastKeepAlive = c.networkInfo.lastKeepAlive →
      HandledAwaits c.networkInfo.lastKeepAlive (do
        let connection ← sendInitial host moment .login c'
        Handled.done (sendLoginSuccess host connection)) := by
    intro c' hc'
    rw [sendInitial_eq, ok_bind]
    exact Awaits.done (awaits_post hc')
  unfold encryptionResponse
  refine Returns.of_bind ?_
  rintro ⟨⟨secret, token⟩, rest⟩
  dsimp only
  split
  · split
    · split
      · exact hsuccess _ rfl
      · exact Awaits.leave (awaits_loginError rfl)
    · exact hsuccess _ rfl
  · exact Awaits.done (awaits_loginError rfl)

theorem awaits_loginPluginResponse (c : ZincConnection) :
    Awaits c.networkInfo.lastKeepAlive (loginPluginResponse host moment data c) := by
  unfold loginPluginResponse
  refine Returns.of_bind ?_
  rintro ⟨id, rest⟩
  dsimp only
  split
  · refine Returns.bind (P := fun c' => c'.networkInfo.lastKeepAlive = c.networkInfo.lastKeepAlive) ?_
      fun c' hc' => Returns.ok hc'
    exact fun _ hc => (callPluginChannel_eq_ok hc).awaits rfl
  · exact awaits_loginError rfl

theorem awaits_switchLogin (online : ℤ) (packet : ZincPacket) (c : ZincConnection) :
    HandledAwaits c.networkInfo.lastKeepAlive (switchLogin host moment online packet c) := by
  unfold switchLogin
  split
  · exact awaits_loginStart online c
  split
  · exact awaits_encryptionResponse c
  split
  · exact Awaits.done (awaits_loginPluginResponse c)
  split
  · exact Returns.ok rfl
  split
  · exact Awaits.done fun _ hc => absurd hc cookieResponse_ne_ok
  · exact Returns.ok rfl

/-- A packet that is neither of the two that write the time. -/
theorem awaits_switchConfig (hasked : ¬ Asked host c i) (hechoed : ¬ Echoed host c i)
    (hstate : c.state = .config) :
    HandledAwaits c.networkInfo.lastKeepAlive (switchConfig host i.moment i.packet c) := by
  unfold switchConfig
  split
  next h0 =>
    unfold configInfo
    intro handled h
    rcases bind_eq_ok.mp h with ⟨⟨turnedAway, c₁⟩, hban, h⟩
    rcases checkBan_eq_ok hban with ⟨hbanned, hsends⟩
    have haway : turnedAway = true := by
      by_contra haway
      exact hasked ⟨⟨hstate, h0⟩, fun hb => haway (hbanned.mpr hb)⟩
    rw [haway] at h hsends
    rw [← Except.ok.inj (leave_eq_ok h)]
    exact hsends.awaits rfl
  split
  · exact Awaits.done fun _ hc => absurd hc cookieResponse_ne_ok
  split
  · apply Awaits.done
    refine Returns.of_bind ?_
    exact fun _ _ hc => (callPluginChannel_eq_ok hc).awaits rfl
  split
  · exact Returns.ok rfl
  split
  next h4 =>
    apply Awaits.done
    intro c' h
    rcases bind_eq_ok.mp h with ⟨⟨value, rest⟩, hread, h⟩
    have hkeepAlive : KeepAlive value c i := ⟨hstate, h4, rest, hread⟩
    have hne : c.networkInfo.lastKeepAlive ≠ value := fun heq =>
      hechoed ⟨⟨value, hkeepAlive⟩, (passes_keepAlive_iff hkeepAlive).mpr heq⟩
    dsimp only at h
    rw [if_pos hne] at h
    exact awaits_loginError rfl c' h
  split
  · apply Awaits.done
    refine Returns.of_bind ?_
    rintro ⟨ping, rest⟩
    dsimp only
    split
    · exact awaits_loginError rfl
    · exact Returns.ok rfl
  · exact Returns.ok rfl

theorem awaits_switch (hasked : ¬ Asked host c i) (hechoed : ¬ Echoed host c i) :
    HandledAwaits c.networkInfo.lastKeepAlive (switch host i.moment i.online i.packet c) := by
  unfold switch
  split
  next =>
    split
    · apply Awaits.done
      unfold handshake
      refine Returns.of_bind fun _ => Returns.of_bind fun _ => Returns.of_bind fun _ =>
        Returns.of_bind fun _ => Returns.ok rfl
    · exact Returns.ok rfl
  next =>
    apply Awaits.done
    unfold status
    split
    · exact fun _ hc => (Sends.of_send hc).awaits rfl
    · exact awaits_post rfl
  next => exact awaits_switchLogin i.online i.packet c
  next hstate => exact awaits_switchConfig hasked hechoed hstate
  next => exact Returns.ok rfl
  next => exact Returns.ok rfl

/-! ### Runs -/

/-- The packets that write the time. -/
def Beat (host : Host) (c : ZincConnection) (i : Input) : Prop := Asked host c i ∨ Echoed host c i

/-- The value behind a packet that writes it. -/
def written (x : ZincConnection × Input) : BitVec 64 :=
  if x.2.packet.id = 0 then BitVec.ofInt 64 x.2.moment.now else -1

/-- The answer to a client's settings. -/
theorem asked_networkInfo (hasked : Asked host c i)
    (h : switch host i.moment i.online i.packet c = .ok handled) :
    handled.connection.state = .config ∧
      handled.connection.networkInfo.lastKeepAlive = BitVec.ofInt 64 i.moment.now ∧
      handled.connection.networkInfo.verifyToken = i.moment.randomBytes 4 := by
  obtain ⟨⟨hstate, hid⟩, hban⟩ := hasked
  rw [switch_of_config hstate, switchConfig, if_pos hid, configInfo] at h
  rcases bind_eq_ok.mp h with ⟨⟨turnedAway, c₁⟩, hcheck, hrest⟩
  have haway : turnedAway = false :=
    Bool.eq_false_iff.mpr fun haway => hban ((checkBan_eq_ok hcheck).1.mp haway)
  subst haway
  obtain rfl := checkBan_eq_false hcheck
  dsimp only at hrest
  rw [if_neg Bool.false_ne_true] at hrest
  rcases bind_eq_ok.mp hrest with ⟨⟨settingsInfo, data⟩, -, hsend⟩
  rcases @sendConfiguration_eq_ok host { c₁ with settingsInfo } _ _ hstate (done_eq_ok hsend) with
    ⟨encrypt, new, hc', -⟩
  rw [hc']
  exact ⟨hstate, rfl, rfl⟩

theorem Received.asked_iff (h : Received c c₀) : Asked host c₀ i ↔ Asked host c i := by
  rcases h with ⟨input, decrypt, shouldContinue, -, rfl⟩
  exact Iff.rfl

theorem Received.echoed_iff (h : Received c c₀) : Echoed host c₀ i ↔ Echoed host c i := by
  rcases h with ⟨input, decrypt, shouldContinue, -, rfl⟩
  refine and_congr_right_iff.mpr ?_
  rintro ⟨value, hkeepAlive⟩
  have hsame : KeepAlive value c i := hkeepAlive
  rw [passes_keepAlive_iff hkeepAlive, passes_keepAlive_iff hsame]

theorem Step.lastKeepAlive (h : Step host c i c') :
    (Beat host c i ∧ c'.networkInfo.lastKeepAlive = written (c, i)) ∨
      (¬ Beat host c i ∧ c'.networkInfo.lastKeepAlive = c.networkInfo.lastKeepAlive) := by
  rcases h with ⟨-, c₀, handled, hreceived, hswitch, rfl⟩
  by_cases hasked : Asked host c i
  · have hwritten := (asked_networkInfo (hreceived.asked_iff.mpr hasked) hswitch).2.1
    exact .inl ⟨.inl hasked, by rw [hwritten, written, if_pos hasked.1.2]⟩
  by_cases hechoed : Echoed host c i
  · obtain ⟨⟨value, hkeepAlive⟩, hpasses⟩ := hreceived.echoed_iff.mpr hechoed
    rw [switch_keepAlive hkeepAlive, if_neg (not_not.mpr ((passes_keepAlive_iff hkeepAlive).mp hpasses))]
      at hswitch
    refine .inl ⟨.inr hechoed, ?_⟩
    rw [← Except.ok.inj (done_eq_ok hswitch), written, if_neg (by rw [hkeepAlive.2.1]; decide)]
  · refine .inr ⟨fun hbeat => hbeat.elim hasked hechoed, ?_⟩
    have hwaits := awaits_switch (fun h => hasked (hreceived.asked_iff.mp h))
      (fun h => hechoed (hreceived.echoed_iff.mp h)) handled hswitch
    rcases hreceived with ⟨input, decrypt, shouldContinue, -, rfl⟩
    exact hwaits

/-- What a ping is checked against, and the states in which it stays. -/
def Pings (host : Host) (past : Past ZincConnection Input) (view : View) : Prop :=
  (∃ x, LastOf (Asked host) past x ∧ view.verifyToken = x.2.moment.randomBytes 4 ∧
    (view.state = .config ∨ view.state = .play)) ∨
  (Never (Asked host) past ∧ view.verifyToken.length ≠ 4)

/-- Behind the answer to the settings only another answer writes the bytes. -/
theorem Effect.keeps {view : View} (h : Effect host c i view) (hasked : ¬ Asked host c i)
    (hstate : c.state = .config ∨ c.state = .play) :
    view.verifyToken = c.networkInfo.verifyToken ∧ (view.state = .config ∨ view.state = .play) := by
  have hlogin : c.state ≠ .login := by rcases hstate with h | h <;> rw [h] <;> decide
  cases h with
  | sends ids => exact ⟨rfl, hstate⟩
  | handshake state hhandshake => rw [hhandshake] at hstate; simp at hstate
  | accepted ids h => exact absurd h.loginStart.1 hlogin
  | passed keyed h => exact absurd h.1.1 hlogin
  | unverified keyed h => exact absurd h.1.1 hlogin
  | loginAck h => exact absurd h.1 hlogin
  | configured registries h hban => exact absurd ⟨h, hban⟩ hasked
  | banned h hban => exact ⟨rfl, hstate⟩
  | configAck h => exact ⟨rfl, .inr rfl⟩

/-- A token of the login does not have the length of a ping. -/
theorem Effect.length_ne {view : View} (h : Effect host c i view) (hasked : ¬ Asked host c i)
    (hlength : c.networkInfo.verifyToken.length ≠ 4) : view.verifyToken.length ≠ 4 := by
  cases h with
  | sends | handshake | loginAck | banned | configAck => exact hlength
  | accepted =>
    rw [show View.verifyToken _ = i.moment.randomBytes 64 from rfl, i.moment.length_randomBytes]
    decide
  | passed | unverified => exact fun h => absurd (show 0 = 4 from h) (by decide)
  | configured registries h hban => exact absurd ⟨h, hban⟩ hasked

theorem pings (h : ConnectionRun host past c) : Pings host past c.view := by
  induction h with
  | start h =>
    rw [h.view_eq]
    exact .inr ⟨fun x hx => absurd hx List.not_mem_nil, by decide⟩
  | @next past c c' i _ hstep ih =>
    by_cases hasked : Asked host c i
    · rcases hstep with ⟨-, c₀, handled, hreceived, hswitch, rfl⟩
      have hwritten := asked_networkInfo (hreceived.asked_iff.mpr hasked) hswitch
      exact .inl ⟨(c, i), lastOf_concat hasked, hwritten.2.2, .inl hwritten.1⟩
    · have heffect := hstep.handles.1
      rcases ih with ⟨x, hx, htoken, hstate⟩ | ⟨hnever, hlength⟩
      · rcases heffect.keeps hasked hstate with ⟨hkeeps, hstate'⟩
        exact .inl ⟨x, hx.concat hasked, hkeeps.trans htoken, hstate'⟩
      · exact .inr ⟨hnever.concat hasked, heffect.length_ne hasked hlength⟩

/-- What a keep alive has to carry: what the last packet that wrote the time left behind, or what
the memory of a new connection held. -/
def Due (host : Host) (past : Past ZincConnection Input) (c : ZincConnection) (value : BitVec 64) : Prop :=
  (∃ x, LastOf (Beat host) past x ∧ value = written x) ∨
    (Never (Beat host) past ∧ value = (origin past c).networkInfo.lastKeepAlive)

/-- What a ping has to carry: the bytes of the last answer to the client's settings. -/
def DueBytes (host : Host) (past : Past ZincConnection Input) (bytes : Bytes) : Prop :=
  ∃ x, LastOf (Asked host) past x ∧ bytes = x.2.moment.randomBytes 4

/-- In every run of a connection the keep alives and the pings that pass are those that are due. -/
theorem heartbeat (h : ConnectionRun host past c) (i : Input) :
    (∀ value, KeepAlive value c i → (Passes host c i ↔ Due host past c value)) ∧
      ∀ bytes, Ping bytes c i → (Passes host c i ↔ DueBytes host past bytes) := by
  constructor
  · intro value hkeepAlive
    rw [passes_keepAlive_iff hkeepAlive]
    have hstep (c : ZincConnection) (i : Input) (c' : ZincConnection) (hs : Step host c i c') :=
      hs.lastKeepAlive
    rcases Run.written hstep h with ⟨x, hx, hvalue⟩ | ⟨hnever, hvalue⟩
    · rw [hvalue]
      refine ⟨fun heq => .inl ⟨x, hx, heq.symm⟩, ?_⟩
      rintro (⟨y, hy, rfl⟩ | ⟨hnever, -⟩)
      · rw [hx.unique hy]
      · exact absurd hnever hx.not_never
    · rw [hvalue]
      refine ⟨fun heq => .inr ⟨hnever, heq.symm⟩, ?_⟩
      rintro (⟨y, hy, -⟩ | ⟨-, rfl⟩)
      · exact absurd hnever hy.not_never
      · rfl
  · intro bytes hping
    rw [passes_ping_iff hping]
    obtain ⟨-, -, rest, hread⟩ := hping
    rcases pings h with ⟨x, hx, htoken, -⟩ | ⟨hnever, hlength⟩
    · rw [show c.networkInfo.verifyToken = _ from htoken]
      refine ⟨fun heq => ⟨x, hx, heq.symm⟩, ?_⟩
      rintro ⟨y, hy, rfl⟩
      rw [hx.unique hy]
    · refine iff_of_false (fun heq => hlength ?_) ?_
      · rw [show c.view.verifyToken = bytes from heq]
        exact length_of_replicate hread
      · rintro ⟨y, hy, -⟩
        exact absurd hnever hy.not_never

/-- Behind a login and its settings. -/
theorem heartbeat_sample : ∃ past c, ConnectionRun sampleHost past c ∧ c.state = .config ∧
    past.length = 5 ∧ ∀ i,
      (∀ value, KeepAlive value c i → (Passes sampleHost c i ↔ Due sampleHost past c value)) ∧
        ∀ bytes, Ping bytes c i → (Passes sampleHost c i ↔ DueBytes sampleHost past bytes) := by
  rcases login_run simple_sampleHost sampleClient (sampleMoment []) place_sampleHost rfl
    accepts_waiting rfl with ⟨c₁, c₂, c₃, c₄, hrun, -, -, -, hat₄⟩
  rcases @configInfo_step sampleHost (sampleMoment []) _ _ rfl rfl 0
    ⟨[], 0, 0, false, 0, 0, false, false, 0⟩ (by decide) _ hat₄ with ⟨c₅, hstep, hat₅⟩
  exact ⟨_, c₅, hrun.next hstep, hat₅.state_eq, rfl, fun i => heartbeat (hrun.next hstep) i⟩

end Zinc.Network
