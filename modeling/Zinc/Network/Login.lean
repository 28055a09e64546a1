import Zinc.Network.Session

/-! The way from the handshake to the state `Config`. Login Ack moves there
unconditionally, so a connection has logged in only if its client waits for Login
Success. Login Success is sent for a verify token that decrypts to the one of the
connection; both are empty for a connection without a token and a token that
cannot be decrypted. -/

namespace Zinc.Network

open Throw History Buffer ZincConnection

variable {host : Host} {past : Past ZincConnection Input} {c : ZincConnection} {i : Input}

/-! ### The login gate -/

/-- An encryption response with the right token, and the player is known. -/
def Verified (host : Host) (c : ZincConnection) (i : Input) : Prop :=
  Passed host c i ∧ (host.config.onlineMode = true → LookedUp host c i)

/-- A Login Start was accepted, later an encryption response was verified. -/
def LoggedIn (host : Host) (past : Past ZincConnection Input) : Prop :=
  Then (Accepted host) (Verified host) past

def WasAccepted (host : Host) (past : Past ZincConnection Input) : Prop :=
  ∃ x ∈ past, Accepted host x.1 x.2

/-- Login Ack waits for Login Success, and an encryption response that passes
although there is no verify token comes after an accepted Login Start. -/
def Gated (host : Host) (past : Past ZincConnection Input) (c : ZincConnection) (i : Input) : Prop :=
  (LoginAck c i → (State.login, 2) ∈ c.view.sent) ∧
    (Passed host c i → c.networkInfo.verifyToken = [] → WasAccepted host past)

structure GateInvariant (host : Host) (past : Past ZincConnection Input) (view : View) : Prop where
  token : view.state ≠ .config → view.state ≠ .play → view.verifyToken ≠ [] → WasAccepted host past
  success : (State.login, 2) ∈ view.sent → LoggedIn host past
  online : view.state = .config ∨ view.state = .play → LoggedIn host past

theorem WasAccepted.concat (h : WasAccepted host past) (x : ZincConnection × Input) :
    WasAccepted host (past ++ [x]) := by
  rcases h with ⟨y, hy, haccepted⟩
  exact ⟨y, List.mem_append_left [x] hy, haccepted⟩

/-- Nothing is lost when a packet neither grants a token nor sends Login Success. -/
theorem GateInvariant.sends (h : GateInvariant host past c.view) {ids : List (BitVec 32)}
    (hids : c.state = .login → 2 ∉ ids) :
    GateInvariant host (past ++ [(c, i)]) (c.view.send ids) where
  token hconfig hplay htoken := (h.token hconfig hplay htoken).concat _
  success hsent := by
    rcases View.mem_sent_send.mp hsent with hold | ⟨hstate, hid⟩
    · exact (h.success hold).concat _
    · exact absurd hid (hids hstate.symm)
  online hstate := (h.online hstate).concat _

theorem GateInvariant.step {view : View} (h : GateInvariant host past c.view)
    (hgated : Gated host past c i) (heffect : Effect host c i view) :
    GateInvariant host (past ++ [(c, i)]) view := by
  have hpassed : Passed host c i → WasAccepted host past := by
    intro hp
    by_cases htoken : c.networkInfo.verifyToken = []
    · exact hgated.2 hp htoken
    · have hstate : c.view.state = .login := hp.1.1
      exact h.token (by rw [hstate]; decide) (by rw [hstate]; decide) htoken
  cases heffect with
  | sends ids hlogin hconfig =>
    apply h.sends
    intro hstate
    rcases hlogin hstate with rfl | rfl <;> decide
  | handshake state hstate hnew =>
    have hview : c.view.state = .handshake := hstate
    refine ⟨fun _ _ htoken => ?_, fun hsent => (h.success hsent).concat _, ?_⟩
    · exact (h.token (by rw [hview]; decide) (by rw [hview]; decide) htoken).concat _
    · rintro (rfl | rfl) <;> simp at hnew
  | accepted ids haccepted hids =>
    have hsend := @GateInvariant.sends host past c i h ids fun _ => by
      rcases hids with rfl | rfl <;> decide
    refine ⟨fun _ _ _ => ⟨(c, i), List.mem_append_right _ (List.mem_singleton_self _), haccepted⟩,
      hsend.success, hsend.online⟩
  | passed keyed hp hlookup =>
    rcases hpassed hp with ⟨x, hx, haccepted⟩
    have hlogged : LoggedIn host (past ++ [(c, i)]) :=
      Then.of_mem hx haccepted ⟨hp, hlookup⟩
    exact ⟨fun _ _ htoken => absurd rfl htoken, fun _ => hlogged, fun _ => hlogged⟩
  | unverified keyed hp =>
    have hsend := @GateInvariant.sends host past c i h [0] fun _ => by decide
    exact ⟨fun _ _ htoken => absurd rfl htoken, hsend.success, hsend.online⟩
  | loginAck hack =>
    have hlogged := (h.success (hgated.1 hack)).concat (c, i)
    exact ⟨fun hconfig => absurd rfl hconfig, fun _ => hlogged, fun _ => hlogged⟩
  | configured registries hinfo =>
    have hview : c.view.state = .config := hinfo.1
    have hlogged := (h.online (.inl hview)).concat (c, i)
    exact ⟨fun hconfig => absurd hview hconfig, fun _ => hlogged, fun _ => hlogged⟩
  | banned hinfo =>
    have hview : c.view.state = .config := hinfo.1
    have hlogged := (h.online (.inl hview)).concat (c, i)
    exact ⟨fun hconfig => absurd hview hconfig, fun _ => hlogged, fun _ => hlogged⟩
  | configAck hack =>
    have hlogged := (h.online (.inl hack.1)).concat (c, i)
    exact ⟨fun _ hplay => absurd rfl hplay, fun _ => hlogged, fun _ => hlogged⟩

theorem gateInvariant (h : ConnectionRun host past c) (hgated : Always (Gated host) past) :
    GateInvariant host past c.view := by
  apply h.invariant (I := fun past c => GateInvariant host past c.view) _ _ hgated
  · intro c hc
    rw [hc.view_eq]
    exact ⟨fun _ _ htoken => absurd rfl htoken, fun hsent => by simp at hsent, by simp⟩
  · intro past c i c' hinv hgated hstep
    exact hinv.step hgated hstep.handles.1

/-- Whoever gets to the state `Config` has logged in. -/
theorem loggedIn_of_config (h : ConnectionRun host past c) (hgated : Always (Gated host) past)
    (hstate : c.state = .config ∨ c.state = .play) : LoggedIn host past :=
  (gateInvariant h hgated).online hstate

/-- A whole login meets the condition. -/
theorem loggedIn_sample : ∃ past c, ConnectionRun sampleHost past c ∧ c.state = .config ∧
    LoggedIn sampleHost past := by
  rcases login_run simple_sampleHost sampleClient (sampleMoment []) place_sampleHost rfl
    accepts_waiting rfl with ⟨c₁, c₂, c₃, c₄, hrun, hat₁, hat₂, hat₃, hat₄⟩
  refine ⟨_, c₄, hrun, hat₄.state_eq, loggedIn_of_config hrun ?_ (.inl hat₄.state_eq)⟩
  have hstart : ∀ {past c i}, i.packet.id = 0 → Gated sampleHost past c i := by
    intro past c i hid
    refine ⟨fun hack => ?_, fun hpassed => absurd hpassed (not_passed_of_id (by rw [hid]; decide))⟩
    rw [hack.2] at hid
    exact absurd hid (by decide)
  simp only [always_concat, always_nil, true_and]
  refine ⟨⟨⟨hstart rfl, hstart rfl⟩, ?_, ?_⟩, ?_, ?_⟩
  · exact fun hack => absurd (show (1 : BitVec 32) = 3 from hack.2) (by decide)
  · intro _ htoken
    rw [hat₂.verifyToken_eq] at htoken
    exact absurd htoken (by decide)
  · intro _
    rw [hat₃.sent_eq]
    decide
  · exact fun hpassed => absurd (show (3 : BitVec 32) = 1 from hpassed.1.2) (by decide)

/-- Whatever the server, Login Ack alone gets a client to the state `Config`. -/
theorem not_loggedIn_of_config : ¬ ∃ host, ∀ past c, ConnectionRun host past c → c.state = .config →
    LoggedIn host past := by
  rintro ⟨host, h⟩
  rcases @handshake_step host (waiting []) (sampleMoment []) 0 accepts_waiting rfl with ⟨c₁, h₁, hat₁⟩
  rcases @loginAck_step host c₁ [] (sampleMoment []) 0 [] hat₁ with ⟨c₂, h₂, hat₂⟩
  rcases h _ c₂ (((Run.start accepts_waiting).next h₁).next h₂) hat₂.state_eq with
    ⟨x, y, hsub, haccepted, -⟩
  have hx := hsub.subset List.mem_cons_self
  simp only [List.nil_append, List.cons_append, List.mem_cons, List.not_mem_nil, or_false] at hx
  rcases hx with rfl | rfl
  · exact absurd haccepted.loginStart.1 (by decide)
  · exact absurd (show (3 : BitVec 32) = 0 from haccepted.loginStart.2) (by decide)

/-! ### The verify token -/

/-- The last Login Start issued the token, and no response has used it up. -/
def Issued (host : Host) (past : Past ZincConnection Input) (verifyToken : Bytes) : Prop :=
  ∃ before x after, past = before ++ x :: after ∧ Accepted host x.1 x.2 ∧
    verifyToken = x.2.moment.randomBytes 64 ∧
    ∀ y ∈ after, ¬ LoginStart y.1 y.2 ∧ ¬ Passed host y.1 y.2

/-- The token of a response decrypts to an issued token of 64 bytes. -/
def TokenAccepted (host : Host) (past : Past ZincConnection Input) (i : Input) : Prop :=
  ∃ secret token verifyToken, Response i secret token ∧ host.decrypt token = some verifyToken ∧
    verifyToken.length = 64 ∧ Issued host past verifyToken

/-- A response that finds no verify token has a token that decrypts to something,
and no Login Start is refused while there is a verify token. -/
def TokenGuarded (host : Host) (c : ZincConnection) (i : Input) : Prop :=
  (EncryptionResponse c i → c.networkInfo.verifyToken = [] →
    ∀ secret token, Response i secret token → RSAWrapper.decrypt host token ≠ []) ∧
  (LoginStart c i → c.networkInfo.verifyToken ≠ [] → Accepted host c i)

structure TokenInvariant (host : Host) (past : Past ZincConnection Input) (view : View) : Prop where
  handshake : view.state = .handshake → view.verifyToken = []
  login : view.state = .login → view.verifyToken ≠ [] → Issued host past view.verifyToken

theorem Issued.concat {verifyToken : Bytes} (h : Issued host past verifyToken)
    (hstart : ¬ LoginStart c i) (hpassed : ¬ Passed host c i) :
    Issued host (past ++ [(c, i)]) verifyToken := by
  rcases h with ⟨before, x, after, rfl, haccepted, hrandom, hafter⟩
  refine ⟨before, x, after ++ [(c, i)], by simp, haccepted, hrandom, ?_⟩
  intro y hy
  rcases List.mem_append.mp hy with hold | hnew
  · exact hafter y hold
  · rw [List.mem_singleton.mp hnew]
    exact ⟨hstart, hpassed⟩

theorem TokenInvariant.step {view : View} (h : TokenInvariant host past c.view)
    (hguarded : TokenGuarded host c i) (heffect : Effect host c i view) :
    TokenInvariant host (past ++ [(c, i)]) view := by
  cases heffect with
  | sends ids hlogin hconfig haccepted hpassed =>
    refine ⟨h.handshake, fun hstate htoken => (h.login hstate htoken).concat ?_ hpassed⟩
    exact fun hstart => haccepted (hguarded.2 hstart htoken)
  | handshake state hstate hnew =>
    have htoken := h.handshake hstate
    exact ⟨fun _ => htoken, fun _ hne => absurd htoken hne⟩
  | accepted ids haccepted hids =>
    have hlogin : c.view.state = .login := haccepted.loginStart.1
    refine ⟨fun hhandshake => ?_, fun _ _ => ?_⟩
    · rw [show c.view.state = .handshake from hhandshake] at hlogin
      cases hlogin
    · exact ⟨past, (c, i), [], rfl, haccepted, rfl, by simp⟩
  | passed => exact ⟨fun _ => rfl, fun _ hne => absurd rfl hne⟩
  | unverified => exact ⟨fun _ => rfl, fun _ hne => absurd rfl hne⟩
  | loginAck => exact ⟨State.noConfusion, State.noConfusion⟩
  | configured registries hinfo =>
    have hconfig : c.view.state = .config := hinfo.1
    exact ⟨fun hstate => State.noConfusion (hconfig.symm.trans hstate),
      fun hstate => State.noConfusion (hconfig.symm.trans hstate)⟩
  | banned hinfo =>
    have hconfig : c.view.state = .config := hinfo.1
    exact ⟨fun hstate => State.noConfusion (hconfig.symm.trans hstate),
      fun hstate => State.noConfusion (hconfig.symm.trans hstate)⟩
  | configAck => exact ⟨State.noConfusion, State.noConfusion⟩

/-- A response that passes does so by the issued token. -/
theorem TokenInvariant.accepted (h : TokenInvariant host past c.view)
    (hguarded : TokenGuarded host c i) (hpassed : Passed host c i) : TokenAccepted host past i := by
  rcases hpassed with ⟨hresponse, secret, token, hread, htoken⟩
  have hne : c.networkInfo.verifyToken ≠ [] := by
    intro hempty
    exact hguarded.1 hresponse hempty secret token hread (htoken.trans hempty)
  have hissued := h.login hresponse.1 hne
  refine ⟨secret, token, c.networkInfo.verifyToken, hread, ?_, ?_, hissued⟩
  · rw [← htoken] at hne ⊢
    unfold RSAWrapper.decrypt at hne ⊢
    cases hdecrypt : host.decrypt token with
    | none => exact absurd (by rw [hdecrypt]; rfl) hne
    | some out => rfl
  · rcases hissued with ⟨-, x, -, -, -, hrandom, -⟩
    rw [show c.networkInfo.verifyToken = _ from hrandom]
    exact x.2.moment.length_randomBytes 64

/-- Every response that passes does so by the token that the last Login Start issued. -/
theorem always_tokenAccepted (h : ConnectionRun host past c)
    (hguarded : Always (fun _ => TokenGuarded host) past) :
    Always (fun past c i => Passed host c i → TokenAccepted host past i) past := by
  refine (h.invariant (I := fun past c => TokenInvariant host past c.view ∧
    Always (fun past c i => Passed host c i → TokenAccepted host past i) past) ?_ ?_ hguarded).2
  · intro c hc
    rw [hc.view_eq]
    exact ⟨⟨fun _ => rfl, State.noConfusion⟩, always_nil⟩
  · rintro past c i c' ⟨hinv, halways⟩ hguard hstep
    exact ⟨hinv.step hguard hstep.handles.1,
      always_concat.mpr ⟨halways, hinv.accepted hguard⟩⟩

/-- A whole login meets the condition. -/
theorem always_tokenAccepted_sample : ∃ past c, ConnectionRun sampleHost past c ∧
    c.state = .config ∧
    Always (fun past c i => Passed sampleHost c i → TokenAccepted sampleHost past i) past := by
  rcases login_run simple_sampleHost sampleClient (sampleMoment []) place_sampleHost rfl
    accepts_waiting rfl with ⟨c₁, c₂, c₃, c₄, hrun, hat₁, hat₂, hat₃, hat₄⟩
  refine ⟨_, c₄, hrun, hat₄.state_eq, always_tokenAccepted hrun ?_⟩
  simp only [always_concat, always_nil, true_and]
  refine ⟨⟨⟨⟨?_, ?_⟩, ?_, ?_⟩, ?_, ?_⟩, ?_, ?_⟩
  · exact fun hresponse => State.noConfusion hresponse.1
  · exact fun hstart => State.noConfusion hstart.1
  · exact fun hresponse => absurd (show (0 : BitVec 32) = 1 from hresponse.2) (by decide)
  · exact fun _ htoken => absurd hat₁.verifyToken_eq htoken
  · intro _ htoken
    rw [hat₂.verifyToken_eq] at htoken
    exact absurd htoken (by decide)
  · exact fun hstart => absurd (show (1 : BitVec 32) = 0 from hstart.2) (by decide)
  · exact fun hresponse => absurd (show (3 : BitVec 32) = 1 from hresponse.2) (by decide)
  · exact fun hstart => absurd (show (3 : BitVec 32) = 0 from hstart.2) (by decide)

/-- A client without anything: an empty secret and an empty token. -/
def emptyClient : Client where
  playerName := []
  playerUUID := nilUUID
  sharedSecret := []
  verifyToken := []
  length_playerName := by decide
  length_sharedSecret := by decide
  length_verifyToken := by decide

/-- A token that cannot be decrypted passes when there is no verify token. -/
theorem not_always_tokenAccepted : ¬ ∀ host past c, ConnectionRun host past c →
    Always (fun past c i => Passed host c i → TokenAccepted host past i) past := by
  intro h
  let host : Host := { sampleHost with decrypt := fun _ => none }
  have hsimple : Simple host := ⟨rfl, by decide, by decide⟩
  rcases @handshake_step host (waiting []) (sampleMoment []) 0 accepts_waiting rfl with ⟨c₁, h₁, hat₁⟩
  rcases response_step hsimple emptyClient (sampleMoment []) 0 (c := c₁) hat₁ with ⟨c₂, h₂, -⟩
  have halways := h host _ c₂ (((Run.start accepts_waiting).next h₁).next h₂)
  rcases response_packetOfValues 1 emptyClient.length_sharedSecret emptyClient.length_verifyToken with
    ⟨rest, hread⟩
  have hpassed : Passed host c₁ (emptyClient.response (sampleMoment []) 0) :=
    ⟨⟨hat₁.state_eq, rfl⟩, _, _, ⟨rest, hread⟩, hat₁.verifyToken_eq.symm⟩
  rcases (always_concat.mp halways).2 hpassed with ⟨secret, token, verifyToken, -, hdecrypt, -⟩
  cases hdecrypt

end Zinc.Network
