import Zinc.Network.Session

/-! What a client gets to see of the server: the states that a connection goes through and the
ids of the packets that it is sent. The protocol is an automaton whose steps are packets of
the client; each answer is one of a few sequences of ids. Every run of a connection is a run
of this automaton, and the words of the automaton have a simple form: the answers of Status,
or those of Login and then those of Config. -/

namespace Zinc.Network

open Throw History Buffer ZincConnection

/-! ### The protocol -/

namespace Protocol

structure Phase where
  state : State
  sent : List (State × BitVec 32)

/-- The states that a packet may lead to. -/
def successors (state : State) (id : BitVec 32) : List State :=
  match state with
  | .handshake => if id = 0 then [.status, .login, .transfer] else [.handshake]
  | .login => if id = 3 then [.config] else [.login]
  | .config => if id = 3 then [.play] else [.config]
  | state => [state]

/-- The answer to a client's settings: the registries stand behind four other packets. -/
def configuration (registries : ℕ) : List (BitVec 32) :=
  6 :: 4 :: 5 :: 12 :: (List.replicate registries 7 ++ [2])

/-- The answers to a packet. A cookie response has none, as it is never handled to its end. -/
def answers (registries : ℕ) (state : State) (id : BitVec 32) : List (List (BitVec 32)) :=
  match state with
  | .status => [[id]]
  | .login =>
    if id = 0 then [[0], [1], [3, 1]] else if id = 1 then [[0], [2]] else if id = 2 then [[0]]
    else if id = 4 then [] else [[]]
  | .config =>
    if id = 0 then [[2], configuration registries] else if id = 1 then [] else if id = 2 then [[1]]
    else if id = 4 ∨ id = 5 then [[], [2]] else [[]]
  | _ => [[]]

def Step (registries : ℕ) (s : Phase) (id : BitVec 32) (t : Phase) : Prop :=
  t.state ∈ successors s.state id ∧
    ∃ ids ∈ answers registries s.state id, t.sent = s.sent ++ ids.map fun id => (s.state, id)

abbrev Run (registries : ℕ) : Past Phase (BitVec 32) → Phase → Prop :=
  History.Run (· = ⟨.handshake, []⟩) (Step registries)

end Protocol

open Protocol

def ZincConnection.phase (connection : ZincConnection) : Phase :=
  ⟨connection.state, connection.output.map Sent.key⟩

/-! ### Handlers -/

variable {host : Host} {c c' c₁ : ZincConnection} {i : Input} {ids : List (BitVec 32)} {handled : Handled}

/-- A packet with the id `id` is answered, in a connection that is otherwise like `c`. -/
def Answered (host : Host) (c : ZincConnection) (id : BitVec 32) (c' : ZincConnection) : Prop :=
  Protocol.Step host.registries.length c.phase id c'.phase

theorem Answered.of_sends {id : BitVec 32} (h : Sends host ids c₁ c') (hstate : c₁.state = c.state)
    (houtput : c₁.output = c.output) (hsucc : c.state ∈ successors c.state id)
    (hids : ids ∈ answers host.registries.length c.state id) : Answered host c id c' := by
  rcases h with ⟨encrypt, new, rfl, -, hkeys, -⟩
  refine ⟨hstate.symm ▸ hsucc, ids, hids, ?_⟩
  simp only [phase, List.map_append, houtput, hkeys, hstate]

/-- A packet that only moves on. -/
theorem Answered.of_move {id : BitVec 32} (houtput : c'.output = c.output)
    (hsucc : c'.state ∈ successors c.state id)
    (hids : [] ∈ answers host.registries.length c.state id) : Answered host c id c' :=
  ⟨hsucc, [], hids, by simp only [phase, houtput, List.map_nil, List.append_nil]⟩

theorem loginStart_answered (hi : LoginStart c i)
    (h : loginStart host i.moment i.online i.packet.data c = .ok handled) :
    Answered host c i.packet.id handled.connection := by
  obtain ⟨hstate, hid⟩ := hi
  have hsucc : c.state ∈ successors c.state i.packet.id := by simp [hstate, hid, successors]
  have hanswers : ∀ ids, ids = [0] ∨ ids = [1] ∨ ids = [3, 1] →
      ids ∈ answers host.registries.length c.state i.packet.id := by
    simp [hstate, hid, answers]
  have herror : ∀ {message : String} {playerInfo : PlayerInfo} {c' : ZincConnection},
      sendLoginError host message { c with playerInfo } = .ok c' → Answered host c i.packet.id c' := by
    intro message playerInfo c' hsend
    have hsends := sendLoginError_eq_ok hsend
    have hids : disconnectIds c.state = [0] := by rw [hstate]; rfl
    exact .of_sends hsends rfl rfl hsucc (hanswers _ (.inl hids))
  unfold loginStart at h
  split at h
  next => exact herror (leave_eq_ok h)
  next =>
  split at h
  next => exact herror (leave_eq_ok h)
  next =>
  split at h
  next => exact herror (done_eq_ok h)
  next =>
  split at h
  next => exact herror (done_eq_ok h)
  next =>
  rcases bind_eq_ok.mp h with ⟨⟨name, data⟩, -, h⟩
  rcases bind_eq_ok.mp h with ⟨⟨uuid, data'⟩, -, h⟩
  simp only at h
  split at h
  next => exact herror (done_eq_ok h)
  next =>
  split at h
  next =>
    rcases bind_eq_ok.mp h with ⟨c₁, hcompress, h⟩
    unfold setupCompression at hcompress
    rw [if_neg (not_not.mpr hstate)] at hcompress
    rcases bind_eq_ok.mp hcompress with ⟨c₂, hpost, hcompress⟩
    obtain rfl := Except.ok.inj hcompress
    rcases post_eq_ok hpost with ⟨encrypt, new, rfl, hrolls, hkeys, hwhole⟩
    have hsends : Sends host ([3] ++ [1]) { c with
        playerInfo := { c.playerInfo with playerName := name, playerUUID := uuid }
        isCompressed := true
        networkInfo := { c.networkInfo with verifyToken := i.moment.randomBytes 64 } } _ :=
      Sends.trans ⟨encrypt, new, rfl, hrolls, hkeys, hwhole⟩ (post_eq_ok (done_eq_ok h))
    exact .of_sends hsends rfl rfl hsucc (hanswers _ (.inr (.inr rfl)))
  next => exact .of_sends (post_eq_ok (done_eq_ok h)) rfl rfl hsucc (hanswers _ (.inr (.inl rfl)))

theorem encryptionResponse_answered (hi : EncryptionResponse c i)
    (h : encryptionResponse host i.moment i.packet.data c = .ok handled) :
    Answered host c i.packet.id handled.connection := by
  obtain ⟨hstate, hid⟩ := hi
  have hsucc : c.state ∈ successors c.state i.packet.id := by simp [hstate, hid, successors]
  have hanswers : ∀ ids, ids = [0] ∨ ids = [2] →
      ids ∈ answers host.registries.length c.state i.packet.id := by
    simp [hstate, hid, answers]
  have herror : ∀ {message : String} {c₁ c' : ZincConnection}, sendLoginError host message c₁ = .ok c' →
      c₁.state = c.state → c₁.output = c.output → Answered host c i.packet.id c' := by
    intro message c₁ c' hsend hstate₁ houtput
    have hids : disconnectIds c₁.state = [0] := by rw [hstate₁, hstate]; rfl
    exact .of_sends (sendLoginError_eq_ok hsend) hstate₁ houtput hsucc (hanswers _ (.inl hids))
  unfold encryptionResponse at h
  rcases bind_eq_ok.mp h with ⟨⟨⟨secret, token⟩, rest⟩, -, h⟩
  simp only at h
  split at h
  next =>
    have hsuccess : ∀ {playerInfo : PlayerInfo}, (do
          let connection ← sendInitial host i.moment .login { c.setupEncryption
              (RSAWrapper.decrypt host secret) with
            networkInfo := { c.networkInfo with verifyToken := [] }, playerInfo := playerInfo }
          Handled.done (sendLoginSuccess host connection)) = .ok handled →
        Answered host c i.packet.id handled.connection := by
      intro playerInfo h
      rw [sendInitial_eq, ok_bind] at h
      exact .of_sends (post_eq_ok (done_eq_ok h)) rfl rfl hsucc (hanswers _ (.inr rfl))
    split at h
    next =>
      split at h
      next => exact hsuccess h
      next => exact herror (leave_eq_ok h) rfl rfl
    next => exact hsuccess h
  next => exact herror (done_eq_ok h) rfl rfl

theorem switchLogin_answered (hstate : c.state = .login)
    (h : switchLogin host i.moment i.online i.packet c = .ok handled) :
    Answered host c i.packet.id handled.connection := by
  unfold switchLogin at h
  split at h
  next h0 => exact loginStart_answered ⟨hstate, h0⟩ h
  next h0 =>
  split at h
  next h1 => exact encryptionResponse_answered ⟨hstate, h1⟩ h
  next h1 =>
  split at h
  next h2 =>
    have hsucc : c.state ∈ successors c.state i.packet.id := by simp [hstate, h2, successors]
    have hids : [0] ∈ answers host.registries.length c.state i.packet.id := by
      simp [hstate, h2, answers]
    rcases bind_eq_ok.mp (done_eq_ok h) with ⟨⟨id, data⟩, -, h⟩
    simp only at h
    split at h
    next =>
      rcases bind_eq_ok.mp h with ⟨c₁, hcall, h⟩
      have hsends := callPluginChannel_eq_ok hcall
      rw [hstate] at hsends
      have hanswered : Answered host c i.packet.id c₁ := .of_sends hsends rfl rfl hsucc hids
      rw [← Except.ok.inj h]
      exact hanswered
    next =>
      have hsends := sendLoginError_eq_ok h
      rw [hstate] at hsends
      exact .of_sends hsends rfl rfl hsucc hids
  next h2 =>
  split at h
  next h3 =>
    rw [← Except.ok.inj (done_eq_ok h)]
    exact .of_move rfl (by simp [hstate, h3, successors, loginAck]) (by simp [hstate, h3, answers])
  next h3 =>
  split at h
  next => exact absurd (done_eq_ok h) cookieResponse_ne_ok
  next h4 =>
    rw [← Except.ok.inj (done_eq_ok h)]
    refine .of_move rfl ?_ ?_
    · simp only [hstate, successors, if_neg h3, List.mem_singleton]
    · simp only [hstate, answers, if_neg h0, if_neg h1, if_neg h2, if_neg h4, List.mem_singleton]

theorem configInfo_answered (hi : ConfigInfo c i)
    (h : configInfo host i.moment i.packet.data c = .ok handled) :
    Answered host c i.packet.id handled.connection := by
  have hstate := hi.1
  have hsucc : c.state ∈ successors c.state i.packet.id := by simp [hi.1, hi.2, successors]
  have hanswers : ∀ ids, ids = [2] ∨ ids = configuration host.registries.length →
      ids ∈ answers host.registries.length c.state i.packet.id := by
    simp [hi.1, hi.2, answers]
  unfold configInfo at h
  rcases bind_eq_ok.mp h with ⟨⟨turnedAway, c₁⟩, hban, h⟩
  simp only at h
  split at h
  next haway =>
    have hsends := (checkBan_eq_ok hban).2
    rw [if_pos haway, hstate] at hsends
    rw [← Except.ok.inj (leave_eq_ok h)]
    exact .of_sends hsends rfl rfl hsucc (hanswers _ (.inl rfl))
  next haway =>
    rw [Bool.eq_false_iff.mpr haway] at hban
    rcases bind_eq_ok.mp h with ⟨⟨settingsInfo, data⟩, -, hsend⟩
    rw [checkBan_eq_false hban] at hsend
    have hsends := @sendConfiguration_eq_ok host { c with settingsInfo } _ _ hstate (done_eq_ok hsend)
    exact .of_sends hsends rfl rfl hsucc (hanswers _ (.inr rfl))

theorem switchConfig_answered (hstate : c.state = .config)
    (h : switchConfig host i.moment i.packet c = .ok handled) :
    Answered host c i.packet.id handled.connection := by
  unfold switchConfig at h
  split at h
  next h0 => exact configInfo_answered ⟨hstate, h0⟩ h
  next h0 =>
  split at h
  next => exact absurd (done_eq_ok h) cookieResponse_ne_ok
  next h1 =>
  split at h
  next h2 =>
    rcases bind_eq_ok.mp (done_eq_ok h) with ⟨⟨channel, data⟩, -, h⟩
    have hsends := callPluginChannel_eq_ok h
    rw [hstate] at hsends
    exact .of_sends hsends rfl rfl (by simp [hstate, h2, successors]) (by simp [hstate, h2, answers, channelIds])
  next h2 =>
  split at h
  next h3 =>
    rw [← Except.ok.inj (done_eq_ok h)]
    exact .of_move rfl (by simp [hstate, h3, successors]) (by simp [hstate, h3, answers])
  next h3 =>
  have hsucc : c.state ∈ successors c.state i.packet.id := by
    simp only [hstate, successors, if_neg h3, List.mem_singleton]
  -- a keep alive and a pong are answered only when they are wrong
  have hcheck : ∀ {P : Prop} [Decidable P] {message : String} {c' : ZincConnection},
      i.packet.id = 4 ∨ i.packet.id = 5 →
      (if P then sendLoginError host message c else .ok c') = .ok handled.connection →
      c'.state = c.state → c'.output = c.output → Answered host c i.packet.id handled.connection := by
    intro P _ message c' hid hsend hsame houtput
    have hids : ∀ ids, ids = [] ∨ ids = [2] →
        ids ∈ answers host.registries.length c.state i.packet.id := by
      rcases hid with hid | hid <;> simp [hstate, hid, answers]
    split at hsend
    next =>
      have hsends := sendLoginError_eq_ok hsend
      rw [hstate] at hsends
      exact .of_sends hsends rfl rfl hsucc (hids _ (.inr rfl))
    next =>
      rw [← Except.ok.inj hsend]
      exact .of_move houtput (by rwa [hsame]) (hids _ (.inl rfl))
  split at h
  next h4 =>
    rcases bind_eq_ok.mp (done_eq_ok h) with ⟨⟨id, data⟩, -, h⟩
    exact hcheck (.inl h4) h rfl rfl
  next h4 =>
  split at h
  next h5 =>
    rcases bind_eq_ok.mp (done_eq_ok h) with ⟨⟨ping, data⟩, -, h⟩
    exact hcheck (.inr h5) h rfl rfl
  next h5 =>
    rw [← Except.ok.inj (done_eq_ok h)]
    refine .of_move rfl hsucc ?_
    simp only [hstate, answers, if_neg h0, if_neg h1, if_neg h2, if_neg (not_or.mpr ⟨h4, h5⟩),
      List.mem_singleton]

theorem switch_answered (h : switch host i.moment i.online i.packet c = .ok handled) :
    Answered host c i.packet.id handled.connection := by
  unfold switch at h
  split at h
  next hstate =>
    split at h
    next h0 =>
      rcases bind_eq_ok.mp (done_eq_ok h) with ⟨⟨protocolVersion, data₁⟩, -, h⟩
      rcases bind_eq_ok.mp h with ⟨⟨serverAddr, data₂⟩, -, h⟩
      rcases bind_eq_ok.mp h with ⟨⟨serverPort, data₃⟩, -, h⟩
      rcases bind_eq_ok.mp h with ⟨⟨state, data₄⟩, -, h⟩
      rw [← Except.ok.inj h]
      refine .of_move rfl ?_ (by simp [hstate, answers])
      rcases handshakeState_cases state with hnew | hnew | hnew <;> simp [hstate, h0, hnew, successors]
    next h0 =>
      rw [← Except.ok.inj (done_eq_ok h)]
      refine .of_move rfl ?_ (by simp [hstate, answers])
      simp only [hstate, successors, if_neg h0, List.mem_singleton]
  next hstate =>
    have hsucc : c.state ∈ successors c.state i.packet.id := by simp [hstate, successors]
    have hids : [i.packet.id] ∈ answers host.registries.length c.state i.packet.id := by
      simp [hstate, answers]
    have hstatus := done_eq_ok h
    unfold status at hstatus
    split at hstatus
    next => exact .of_sends (Sends.of_send hstatus) rfl rfl hsucc hids
    next h0 =>
      rw [not_not.mp h0] at hids hsucc ⊢
      exact .of_sends (post_eq_ok hstatus) rfl rfl hsucc hids
  next hstate => exact switchLogin_answered hstate h
  next hstate => exact switchConfig_answered hstate h
  next hstate =>
    rw [← Except.ok.inj (done_eq_ok h)]
    exact .of_move rfl (by simp [hstate, successors]) (by simp [hstate, answers])
  next hstate =>
    rw [← Except.ok.inj (done_eq_ok h)]
    exact .of_move rfl (by simp [hstate, successors]) (by simp [hstate, answers])

/-! ### Runs -/

theorem Received.phase_eq (h : Received c c') : c'.phase = c.phase := by
  rcases h with ⟨input, decrypt, shouldContinue, -, rfl⟩
  rfl

theorem Step.answered (h : Step host c i c') : Answered host c i.packet.id c' := by
  rcases h with ⟨-, c₀, handled, hreceived, hswitch, rfl⟩
  have hanswered := switch_answered hswitch
  rwa [Answered, hreceived.phase_eq] at hanswered

/-- A run of a connection is a run of the protocol. -/
theorem run_protocol {past : Past ZincConnection Input} (h : ConnectionRun host past c) :
    Protocol.Run host.registries.length (past.map (Prod.map phase fun i => i.packet.id)) c.phase := by
  refine (Run.simulate (I := fun _ => True) ?_ (fun _ _ _ _ hstep => ⟨trivial, hstep.answered⟩) h).2
  rintro _ ⟨ip, networkInfo, settingsInfo, kickAtLogin, rfl⟩
  exact ⟨trivial, rfl⟩

/-! ### Words -/

namespace Protocol

def loginAnswers : List (List (BitVec 32)) := [[0], [1], [2], [3, 1]]

def configAnswers (registries : ℕ) : List (List (BitVec 32)) := [[1], [2], configuration registries]

/-- The packets of some answers, all sent in one state. -/
def spell (state : State) (blocks : List (List (BitVec 32))) : List (State × BitVec 32) :=
  blocks.flatten.map fun id => (state, id)

theorem spell_concat (state : State) (blocks : List (List (BitVec 32))) (ids : List (BitVec 32)) :
    spell state (blocks ++ [ids]) = spell state blocks ++ ids.map fun id => (state, id) := by
  simp [spell]

/-- The packets sent so far in a state, after the packets `asked` were received in `Status`. -/
inductive Transcript (registries : ℕ) (asked : List (BitVec 32)) :
    State → List (State × BitVec 32) → Prop
  | handshake (h : asked = []) : Transcript registries asked .handshake []
  | status : Transcript registries asked .status (asked.map fun id => (.status, id))
  | transfer : Transcript registries asked .transfer []
  | login (logins : List (List (BitVec 32))) (h : ∀ ids ∈ logins, ids ∈ loginAnswers) :
      Transcript registries asked .login (spell .login logins)
  | joined (state : State) (hstate : state = .config ∨ state = .play)
      (logins configs : List (List (BitVec 32))) (h : ∀ ids ∈ logins, ids ∈ loginAnswers)
      (h' : ∀ ids ∈ configs, ids ∈ configAnswers registries) :
      Transcript registries asked state (spell .login logins ++ spell .config configs)

/-- The packets received in `Status`. -/
def asked (past : Past Phase (BitVec 32)) : List (BitVec 32) :=
  (past.filter fun x => x.1.state = .status).map Prod.snd

variable {registries : ℕ} {s t : Phase} {id : BitVec 32} {past : Past Phase (BitVec 32)}

theorem asked_concat_status (hstate : s.state = .status) :
    asked (past ++ [(s, id)]) = asked past ++ [id] := by
  simp [asked, hstate]

theorem asked_concat (hstate : s.state ≠ .status) : asked (past ++ [(s, id)]) = asked past := by
  simp [asked, hstate]

theorem mem_loginAnswers {ids : List (BitVec 32)} (h : ids ∈ answers registries .login id) :
    ids = [] ∨ ids ∈ loginAnswers := by
  simp only [answers] at h
  split_ifs at h <;> simp only [List.mem_cons, List.not_mem_nil, or_false] at h <;>
    simp only [loginAnswers, List.mem_cons, List.not_mem_nil, or_false] <;> tauto

theorem mem_configAnswers {ids : List (BitVec 32)} (h : ids ∈ answers registries .config id) :
    ids = [] ∨ ids ∈ configAnswers registries := by
  simp only [answers] at h
  split_ifs at h <;> simp only [List.mem_cons, List.not_mem_nil, or_false] at h <;>
    simp only [configAnswers, List.mem_cons, List.not_mem_nil, or_false] <;> tauto

/-- An answer becomes one more block, or none if it is empty. -/
theorem exists_blocks (state : State) {blocks set : List (List (BitVec 32))} {ids : List (BitVec 32)}
    (hblocks : ∀ ids ∈ blocks, ids ∈ set) (hids : ids = [] ∨ ids ∈ set) :
    ∃ blocks', (∀ ids ∈ blocks', ids ∈ set) ∧
      spell state blocks' = spell state blocks ++ ids.map fun id => (state, id) := by
  rcases hids with rfl | hids
  · exact ⟨blocks, hblocks, by simp⟩
  · refine ⟨blocks ++ [ids], ?_, spell_concat state blocks ids⟩
    intro ids' hmem
    rcases List.mem_append.mp hmem with hmem | hmem
    · exact hblocks ids' hmem
    · rwa [List.mem_singleton.mp hmem]

/-- One packet. -/
theorem Transcript.step (h : Transcript registries (asked past) s.state s.sent)
    (hstep : Step registries s id t) :
    Transcript registries (asked (past ++ [(s, id)])) t.state t.sent := by
  obtain ⟨state, sent⟩ := s
  obtain ⟨state', sent'⟩ := t
  obtain ⟨hsucc, ids, hids, hsent⟩ := hstep
  simp only at h hsucc hids hsent
  subst hsent
  cases h with
  | handshake hasked =>
    rw [asked_concat (by simp), hasked]
    obtain rfl : ids = [] := by simpa [answers] using hids
    simp only [successors] at hsucc
    split_ifs at hsucc
    · simp only [List.mem_cons, List.not_mem_nil, or_false] at hsucc
      rcases hsucc with rfl | rfl | rfl
      · exact .status
      · exact .login [] (by simp)
      · exact .transfer
    · obtain rfl := List.mem_singleton.mp hsucc
      exact .handshake rfl
  | status =>
    obtain rfl : ids = [id] := by simpa [answers] using hids
    obtain rfl := List.mem_singleton.mp hsucc
    rw [asked_concat_status rfl, ← List.map_append]
    exact .status
  | transfer =>
    obtain rfl : ids = [] := by simpa [answers] using hids
    obtain rfl := List.mem_singleton.mp hsucc
    exact .transfer
  | login logins hlogins =>
    obtain ⟨logins', hlogins', hspell⟩ := exists_blocks .login hlogins (mem_loginAnswers hids)
    rw [asked_concat (by simp), ← hspell]
    simp only [successors] at hsucc
    split_ifs at hsucc
    · obtain rfl := List.mem_singleton.mp hsucc
      have hjoined : Transcript registries (asked past) .config (spell .login logins' ++ spell .config []) :=
        .joined .config (.inl rfl) logins' [] hlogins' (by simp)
      simpa [spell] using hjoined
    · obtain rfl := List.mem_singleton.mp hsucc
      exact .login logins' hlogins'
  | joined _ hstate logins configs hlogins hconfigs =>
    rcases hstate with rfl | rfl
    · obtain ⟨configs', hconfigs', hspell⟩ :=
        exists_blocks .config hconfigs (mem_configAnswers hids)
      rw [asked_concat (by simp), List.append_assoc, ← hspell]
      simp only [successors] at hsucc
      split_ifs at hsucc
      · obtain rfl := List.mem_singleton.mp hsucc
        exact .joined .play (.inr rfl) logins configs' hlogins hconfigs'
      · obtain rfl := List.mem_singleton.mp hsucc
        exact .joined .config (.inl rfl) logins configs' hlogins hconfigs'
    · obtain rfl : ids = [] := by simpa [answers] using hids
      obtain rfl := List.mem_singleton.mp hsucc
      rw [asked_concat (by simp), List.map_nil, List.append_nil]
      exact .joined .play (.inr rfl) logins configs hlogins hconfigs

theorem transcript_of_protocol (h : Protocol.Run registries past s) :
    Transcript registries (asked past) s.state s.sent := by
  induction h with
  | start h =>
    obtain rfl := h
    exact .handshake rfl
  | next _ hstep ih => exact ih.step hstep

end Protocol

/-- The packets that a client sent in `Status`. -/
def statusRequests (past : Past ZincConnection Input) : List (BitVec 32) :=
  (past.filter fun x => x.1.state = .status).map fun x => x.2.packet.id

theorem asked_eq (past : Past ZincConnection Input) :
    asked (past.map (Prod.map phase fun i => i.packet.id)) = statusRequests past := by
  unfold asked statusRequests
  rw [List.filter_map, List.map_map]
  rfl

/-- Every run is a run of the protocol, with a transcript of its form. -/
theorem transcript_of_run {past : Past ZincConnection Input} (h : ConnectionRun host past c) :
    Protocol.Run host.registries.length (past.map (Prod.map phase fun i => i.packet.id)) c.phase ∧
      Transcript host.registries.length (statusRequests past) c.state (c.output.map Sent.key) := by
  have hprotocol := run_protocol h
  refine ⟨hprotocol, ?_⟩
  rw [← asked_eq]
  exact transcript_of_protocol hprotocol

/-- A whole login. -/
theorem transcript_of_run_sample : ∃ past c, ConnectionRun sampleHost past c ∧ c.state = .config ∧
    Protocol.Run 0 (past.map (Prod.map phase fun i => i.packet.id)) c.phase ∧
      Transcript 0 (statusRequests past) c.state (c.output.map Sent.key) := by
  rcases login_run simple_sampleHost sampleClient (sampleMoment []) place_sampleHost rfl
    accepts_waiting rfl with ⟨c₁, c₂, c₃, c₄, hrun, -, -, -, hat⟩
  exact ⟨_, c₄, hrun, hat.state_eq, transcript_of_run hrun⟩

end Zinc.Network
