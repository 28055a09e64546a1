import Zinc.Network.Login

/-! Refusals. A login error, a disconnect and a ban message are packets like any
other: the connection stays open, in its state, and the handlers do not look back.
A refused connection is served on as soon as its client sends a packet that would
have been served before. -/

namespace Zinc.Network

open Throw History Buffer ZincConnection

variable {host : Host} {past : Past ZincConnection Input} {c c' : ZincConnection} {i : Input}

/-- A disconnect was sent, whatever its text. -/
def Refused (view : View) : Prop :=
  (State.login, 0) ∈ view.sent ∨ (State.config, 2) ∈ view.sent ∨ (State.play, 0x1C) ∈ view.sent

/-- The encryption request, Login Success and the registry data. -/
def serviceKeys : List (State × BitVec 32) := [(.login, 1), (.login, 2), (.config, 7)]

/-- Between two views no client came closer to the game. -/
structure Stays (view view' : View) : Prop where
  config : view'.state = .config → view.state = .config
  play : view'.state = .play → view.state = .play
  sent : ∃ new, view'.sent = view.sent ++ new ∧ ∀ key ∈ new, key ∉ serviceKeys

/-- A refusal is final: behind it the connection stays, and its client is not counted. -/
def Final (past : Past ZincConnection Input) (view : View) : Prop :=
  ∀ before c i after, past = before ++ (c, i) :: after → Refused c.view →
    Stays c.view view ∧ ∀ x ∈ (c, i) :: after, onlineAfter x.2.packet x.1 x.2.online = x.2.online

/-- The client of a refused connection sends nothing that would be served. -/
structure Obedient (host : Host) (c : ZincConnection) (i : Input) : Prop where
  loginStart : Refused c.view → ¬ Accepted host c i
  response : Refused c.view → ¬ Verified host c i
  loginAck : Refused c.view → ¬ LoginAck c i
  configInfo : Refused c.view → ConfigInfo c i → Banned host c i
  configAck : Refused c.view → ¬ ConfigAck c i

theorem Stays.trans {view view' view'' : View} (h : Stays view view') (h' : Stays view' view'') :
    Stays view view'' := by
  rcases h.sent with ⟨new, hnew, hkeys⟩
  rcases h'.sent with ⟨new', hnew', hkeys'⟩
  refine ⟨fun hstate => h.config (h'.config hstate), fun hstate => h.play (h'.play hstate),
    new ++ new', by rw [hnew', hnew, List.append_assoc], fun key hkey => ?_⟩
  rcases List.mem_append.mp hkey with hold | hlast
  · exact hkeys key hold
  · exact hkeys' key hlast

/-- Packets are sent and the state stays as it is. -/
theorem Stays.send {view view' : View} {ids : List (BitVec 32)} (hstate : view'.state = view.state)
    (hsent : view'.sent = (view.send ids).sent)
    (hids : ∀ id ∈ ids, (view.state, id) ∉ serviceKeys) : Stays view view' := by
  refine ⟨fun h => hstate ▸ h, fun h => hstate ▸ h, _, hsent, fun key hkey => ?_⟩
  rcases List.mem_map.mp hkey with ⟨id, hid, rfl⟩
  exact hids id hid

theorem Refused.mono {view view' : View} (h : Refused view) (hstays : Stays view view') :
    Refused view' := by
  rcases hstays.sent with ⟨new, hnew, -⟩
  unfold Refused
  rw [hnew]
  simp only [List.mem_append]
  exact h.imp .inl (.imp .inl .inl)

/-- One packet behind a refusal. -/
theorem Effect.stays {view : View} (heffect : Effect host c i view) (hobedient : Obedient host c i)
    (hrefused : Refused c.view) : Stays c.view view := by
  cases heffect with
  | sends ids hlogin hconfig =>
    refine .send rfl rfl fun id hid => ?_
    change (c.state, id) ∉ serviceKeys
    cases hstate : c.state with
    | login => rcases hlogin hstate with rfl | rfl <;> simp_all [serviceKeys]
    | config => rcases hconfig hstate with rfl | rfl | rfl <;> simp_all [serviceKeys]
    | _ => simp [serviceKeys]
  | handshake state hstate hnew =>
    refine ⟨?_, ?_, [], (List.append_nil _).symm, by simp⟩
    · rintro rfl
      simp at hnew
    · rintro rfl
      simp at hnew
  | accepted ids haccepted => exact absurd haccepted (hobedient.loginStart hrefused)
  | passed keyed hpassed hlookup => exact absurd ⟨hpassed, hlookup⟩ (hobedient.response hrefused)
  | unverified keyed hpassed =>
    refine @Stays.send c.view _ [0] rfl rfl fun id hid => ?_
    rw [List.mem_singleton.mp hid, show c.view.state = .login from hpassed.1.1]
    decide
  | loginAck hack => exact absurd hack (hobedient.loginAck hrefused)
  | configured registries hinfo hban => exact absurd (hobedient.configInfo hrefused hinfo) hban
  | banned hinfo =>
    refine .send rfl rfl fun id hid => ?_
    rw [List.mem_singleton.mp hid, show c.view.state = .config from hinfo.1]
    decide
  | configAck hack => exact absurd hack (hobedient.configAck hrefused)

theorem onlineAfter_of_not_loginAck (h : ¬ LoginAck c i) :
    onlineAfter i.packet c i.online = i.online := if_neg h

theorem Final.step {view : View} (h : Final past c.view) (hobedient : Obedient host c i)
    (heffect : Effect host c i view) : Final (past ++ [(c, i)]) view := by
  intro before c₁ i₁ after heq hrefused
  rcases after.eq_nil_or_concat with rfl | ⟨after', x, rfl⟩
  · obtain ⟨rfl, hlast⟩ := List.append_inj' heq rfl
    obtain ⟨rfl, rfl⟩ := Prod.mk.inj (List.singleton_inj.mp hlast)
    refine ⟨heffect.stays hobedient hrefused, fun x hx => ?_⟩
    rw [List.mem_singleton.mp hx]
    exact onlineAfter_of_not_loginAck (hobedient.loginAck hrefused)
  · rw [List.concat_eq_append, ← List.cons_append, ← List.append_assoc] at heq
    obtain ⟨rfl, hlast⟩ := List.append_inj' heq rfl
    obtain rfl := List.singleton_inj.mp hlast
    rcases h before c₁ i₁ after' rfl hrefused with ⟨hstays, hcount⟩
    have hrefused' := hrefused.mono hstays
    refine ⟨hstays.trans (heffect.stays hobedient hrefused'), fun x hx => ?_⟩
    rw [List.concat_eq_append, ← List.cons_append] at hx
    rcases List.mem_append.mp hx with hold | hnew
    · exact hcount x hold
    · rw [List.mem_singleton.mp hnew]
      exact onlineAfter_of_not_loginAck (hobedient.loginAck hrefused')

/-- Refusals are final for clients that obey them. -/
theorem final_of_run (h : ConnectionRun host past c)
    (hobedient : Always (fun _ => Obedient host) past) : Final past c.view := by
  apply h.invariant (I := fun past c => Final past c.view) _ _ hobedient
  · intro c hc before c₁ i₁ after heq
    simp at heq
  · intro past c i c' h hobey hstep
    exact h.step hobey hstep.handles.1

/-- A client that tries again on a full server obeys. -/
theorem final_sample : ∃ past c, ConnectionRun sampleHost past c ∧ Refused c.view ∧
    Final past c.view := by
  rcases handshake_step (sampleMoment []) 20 accepts_waiting rfl with ⟨c₁, h₁, hat₁⟩
  rcases @fullServer_step sampleHost 20 c₁ _ sampleClient (sampleMoment []) le_rfl _
    hat₁ (hat₁.plain (by decide)).1 with ⟨c₂, h₂, hat₂, henc₂⟩
  rcases @fullServer_step sampleHost 20 c₂ _ sampleClient (sampleMoment []) le_rfl _
    hat₂ henc₂ with ⟨c₃, h₃, hat₃, -⟩
  have hrun := ((Run.start accepts_waiting).next h₁).next h₂ |>.next h₃
  refine ⟨_, c₃, hrun, .inl (by rw [hat₃.sent_eq]; decide), final_of_run hrun ?_⟩
  have hobey : ∀ {c}, c.state = .login ∨ c.state = .handshake →
      Obedient sampleHost c (sampleClient.loginStart (sampleMoment []) 20) := by
    intro c hstate
    refine ⟨fun _ ha => absurd ha.online_lt (by decide), fun _ hv => ?_, fun _ hack => ?_,
      fun _ hinfo => ?_, fun _ hack => ?_⟩
    · exact absurd (show (0 : BitVec 32) = 1 from hv.1.1.2) (by decide)
    · exact absurd (show (0 : BitVec 32) = 3 from hack.2) (by decide)
    · rcases hstate with h | h <;> exact State.noConfusion (h.symm.trans hinfo.1)
    · exact absurd (show (0 : BitVec 32) = 3 from hack.2) (by decide)
  simp only [always_concat, always_nil, true_and]
  refine ⟨⟨?_, hobey (.inl hat₁.state_eq)⟩, hobey (.inl hat₂.state_eq)⟩
  have hnew : ¬ Refused (waiting []).view := by simp [Refused, ZincConnection.view, waiting,
    ZincConnection.new]
  exact ⟨fun h => absurd h hnew, fun h => absurd h hnew, fun h => absurd h hnew,
    fun h => absurd h hnew, fun h => absurd h hnew⟩

/-- Whatever the server, a client that it refused for lack of places plays on with
Login Ack. -/
theorem not_final_of_run : ¬ ∃ host, ∀ past c, ConnectionRun host past c → Final past c.view := by
  rintro ⟨host, h⟩
  rcases @handshake_step host (waiting []) (sampleMoment []) host.config.maxPlayerCount
    accepts_waiting rfl with ⟨c₁, h₁, hat₁⟩
  rcases fullServer_step sampleClient (sampleMoment []) le_rfl hat₁ (hat₁.plain (by decide)).1 with
    ⟨c₂, h₂, hat₂, -⟩
  rcases @loginAck_step host c₂ _ (sampleMoment []) 0 _ hat₂ with ⟨c₃, h₃, hat₃⟩
  have hfinal := h _ c₃ (((Run.start accepts_waiting).next h₁).next h₂ |>.next h₃)
  have hstays := (hfinal _ c₂ _ [] rfl (.inl (by rw [hat₂.sent_eq]; decide))).1
  exact State.noConfusion (hat₂.state_eq.symm.trans (hstays.config hat₃.state_eq))

end Zinc.Network
