import Zinc.Network.Effect

/-! What no handler changes. The address and the buffered input of a connection and
the reason to kick it stay as they are; only Handshake sets the flag to go on, and only
Login Ack finishes the login. -/

namespace Zinc.Network

open Throw Buffer Buffer.ByteBuffer Nbt Handled ZincConnection

structure Standing where
  ip : Bytes
  input : Bytes
  kickAtLogin : ℕ
  loginFinished : Bool
  shouldContinue : Bool

def ZincConnection.standing (connection : ZincConnection) : Standing where
  ip := connection.ip
  input := connection.input
  kickAtLogin := connection.kickAtLogin
  loginFinished := connection.loginFinished
  shouldContinue := connection.shouldContinue

/-- The computation leaves a connection with the given members, if it leaves any. -/
abbrev Stands (standing : Standing) (x : Except Fault ZincConnection) : Prop :=
  Returns (fun c => c.standing = standing) x

/-- The same for a handler. -/
abbrev HandledStands (standing : Standing) (x : Except Fault Handled) : Prop :=
  Returns (fun handled => handled.connection.standing = standing) x

variable {host : Host} {moment : Moment} {c c' : ZincConnection} {ids : List (BitVec 32)}
  {standing : Standing} {x : Except Fault ZincConnection} {data : ByteBuffer}

theorem Sends.standing_eq (h : Sends host ids c c') : c'.standing = c.standing := by
  obtain ⟨encrypt, new, rfl, -⟩ := h
  rfl

theorem Stands.done (h : Stands standing x) : HandledStands standing (done x) :=
  Returns.bind h fun _ hc => Returns.ok hc

theorem Stands.leave (h : Stands standing x) : HandledStands standing (leave x) :=
  Returns.bind h fun _ hc => Returns.ok hc

theorem stands_send (h : c.standing = standing) (packet : ZincPacket) :
    Stands standing (c.send host.libs host.config.threshold packet) :=
  fun _ hc => (Sends.of_send hc).standing_eq.trans h

theorem stands_post {id : BitVec 32} {write : Action Unit} (h : c.standing = standing) :
    Stands standing (c.post host id write) :=
  fun _ hc => (post_eq_ok hc).standing_eq.trans h

theorem stands_loginError {message : String} (h : c.standing = standing) :
    Stands standing (c.sendLoginError host message) :=
  fun _ hc => (sendLoginError_eq_ok hc).standing_eq.trans h

theorem stands_callPluginChannel (channel : Bytes) (c : ZincConnection) :
    Stands c.standing (callPluginChannel host moment channel c) :=
  fun _ hc => (callPluginChannel_eq_ok hc).standing_eq

theorem stands_cookieResponse (c : ZincConnection) :
    Stands c.standing (cookieResponse host moment data c) :=
  fun _ hc => absurd hc cookieResponse_ne_ok

/-! ### Login -/

theorem stands_setupCompression (h : c.standing = standing) :
    Stands standing (c.setupCompression host) := by
  unfold setupCompression
  split
  · exact Returns.ok h
  · exact Returns.bind (stands_post h) fun c' hc' => Returns.ok hc'

theorem stands_encryptionRequest (h : c.standing = standing) :
    HandledStands standing (done (sendEncryptionRequest host moment c)) := by
  rw [← h]
  exact Stands.done (stands_post rfl)

theorem stands_loginStart (online : ℤ) (c : ZincConnection) :
    HandledStands c.standing (loginStart host moment online data c) := by
  unfold loginStart
  split
  · exact Stands.leave (stands_loginError rfl)
  split
  · exact Stands.leave (stands_loginError rfl)
  split
  · exact Stands.done (stands_loginError rfl)
  split
  · exact Stands.done (stands_loginError rfl)
  refine Returns.of_bind ?_
  rintro ⟨name, data⟩
  refine Returns.of_bind ?_
  rintro ⟨uuid, data'⟩
  dsimp only
  split
  · exact Stands.done (stands_loginError rfl)
  split
  · exact Returns.bind (stands_setupCompression rfl) fun c' hc' => stands_encryptionRequest hc'
  · exact stands_encryptionRequest rfl

/-- What is sent to a player who is let in. -/
theorem stands_loginSuccess (h : c.standing = standing) :
    HandledStands standing (do
      let connection ← sendInitial host moment .login c
      done (sendLoginSuccess host connection)) := by
  rw [sendInitial_eq, ok_bind]
  exact Stands.done (stands_post h)

theorem stands_encryptionResponse (c : ZincConnection) :
    HandledStands c.standing (encryptionResponse host moment data c) := by
  unfold encryptionResponse
  refine Returns.of_bind ?_
  rintro ⟨⟨secret, token⟩, rest⟩
  dsimp only
  split
  · split
    · split
      · exact stands_loginSuccess rfl
      · exact Stands.leave (stands_loginError rfl)
    · exact stands_loginSuccess rfl
  · exact Stands.done (stands_loginError rfl)

theorem stands_loginPluginResponse (c : ZincConnection) :
    Stands c.standing (loginPluginResponse host moment data c) := by
  unfold loginPluginResponse
  refine Returns.of_bind ?_
  rintro ⟨id, rest⟩
  dsimp only
  split
  · exact Returns.bind (stands_callPluginChannel _ c) fun c' hc' => Returns.ok hc'
  · exact stands_loginError rfl

/-- The members behind a packet. -/
def standingAfter (packet : ZincPacket) (c : ZincConnection) : Standing :=
  { c.standing with
    loginFinished := if c.state = .login ∧ packet.id = 3 then true else c.loginFinished
    shouldContinue := if c.state = .handshake ∧ packet.id = 0 then true else c.shouldContinue }

theorem switchLogin_stands (online : ℤ) (packet : ZincPacket) (hstate : c.state = .login) :
    HandledStands (standingAfter packet c) (switchLogin host moment online packet c) := by
  have hother : packet.id ≠ 3 → standingAfter packet c = c.standing := by
    intro hid
    rw [standingAfter, if_neg (fun h => hid h.2), if_neg (by simp [hstate])]
    rfl
  unfold switchLogin
  split
  next h => rw [hother (by simp [h])]; exact stands_loginStart online c
  split
  next h => rw [hother (by simp [h])]; exact stands_encryptionResponse c
  split
  next h => rw [hother (by simp [h])]; exact Stands.done (stands_loginPluginResponse c)
  split
  next h =>
    rw [standingAfter, if_pos ⟨hstate, h⟩, if_neg (by simp [hstate])]
    exact Returns.ok rfl
  next h =>
  rw [hother h]
  split
  · exact Stands.done (stands_cookieResponse c)
  · exact Returns.ok rfl

/-! ### Config -/

theorem stands_sendConfiguration (h : c.standing = standing) :
    Stands standing (sendConfiguration host moment c) := by
  unfold sendConfiguration
  refine Returns.bind (stands_post h) fun c₁ h₁ => ?_
  refine Returns.bind (stands_post h₁) fun c₂ h₂ => ?_
  refine Returns.bind (stands_post h₂) fun c₃ h₃ => ?_
  refine Returns.bind (stands_post h₃) fun c₄ h₄ => ?_
  rw [sendInitial_eq, ok_bind]
  intro c' h'
  obtain ⟨c₅, h₅, h₆⟩ := bind_eq_ok.mp h'
  rw [(sendDisconnect_eq_ok h₆).standing_eq, (foldlM_post_eq_ok _ h₅).standing_eq, h₄]

theorem stands_configInfo (c : ZincConnection) :
    HandledStands c.standing (configInfo host moment data c) := by
  have hban : Returns (fun x : Bool × ZincConnection => x.2.standing = c.standing)
      (checkBan host moment c) := by
    rintro ⟨turnedAway, c'⟩ h
    exact (checkBan_eq_ok (i := ⟨moment, 0, .ofId 0⟩) h).2.standing_eq
  unfold configInfo
  refine Returns.bind hban ?_
  rintro ⟨turnedAway, c'⟩ hc'
  dsimp only at hc' ⊢
  split
  · exact Returns.ok hc'
  · refine Returns.of_bind ?_
    rintro ⟨settingsInfo, rest⟩
    refine Stands.done (stands_sendConfiguration ?_)
    exact hc'

theorem switchConfig_stands (packet : ZincPacket) (c : ZincConnection) :
    HandledStands c.standing (switchConfig host moment packet c) := by
  unfold switchConfig
  split
  · exact stands_configInfo c
  split
  · exact Stands.done (stands_cookieResponse c)
  split
  · apply Stands.done
    refine Returns.of_bind ?_
    exact fun _ => stands_callPluginChannel _ c
  split
  · exact Returns.ok rfl
  split
  · apply Stands.done
    refine Returns.of_bind ?_
    rintro ⟨keepAlive, rest⟩
    dsimp only
    split
    · exact stands_loginError rfl
    · exact Returns.ok rfl
  split
  · apply Stands.done
    refine Returns.of_bind ?_
    rintro ⟨ping, rest⟩
    dsimp only
    split
    · exact stands_loginError rfl
    · exact Returns.ok rfl
  · exact Returns.ok rfl

/-! ### All packets -/

theorem switch_stands (online : ℤ) (packet : ZincPacket) (c : ZincConnection) :
    HandledStands (standingAfter packet c) (switch host moment online packet c) := by
  have hother : c.state ≠ .login → c.state ≠ .handshake → standingAfter packet c = c.standing := by
    intro hlogin hhandshake
    rw [standingAfter, if_neg (fun h => hlogin h.1), if_neg (fun h => hhandshake h.1)]
    rfl
  unfold switch
  split
  next hstate =>
    split
    next hid =>
      rw [standingAfter, if_neg (by simp [hstate]), if_pos ⟨hstate, hid⟩]
      apply Stands.done
      unfold handshake
      iterate 4
        refine Returns.of_bind ?_
        rintro ⟨_, _⟩
      exact Returns.ok rfl
    next hid =>
      rw [standingAfter, if_neg (by simp [hstate]), if_neg (fun h => hid h.2)]
      exact Returns.ok rfl
  next hstate =>
    rw [hother (by simp [hstate]) (by simp [hstate])]
    apply Stands.done
    unfold status
    split
    · exact stands_send rfl packet
    · exact stands_post rfl
  next hstate => exact switchLogin_stands online packet hstate
  next hstate =>
    rw [hother (by simp [hstate]) (by simp [hstate])]
    exact switchConfig_stands packet c
  next hstate =>
    rw [hother (by simp [hstate]) (by simp [hstate])]
    exact Returns.ok rfl
  next hstate =>
    rw [hother (by simp [hstate]) (by simp [hstate])]
    exact Returns.ok rfl

end Zinc.Network
