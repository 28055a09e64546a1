import Zinc.Network.Session

/-! The flag that a connection is encrypted. `setupEncryption` sets it whatever
the shared secret is, but a key may have 16, 24 or 32 bytes and a register only
16, and both setters ignore any other size. Without a key and a register nothing
is encrypted, and every packet is sent as no bytes at all. -/

namespace Zinc.Network

open Throw History Buffer ZincConnection

variable {host : Host} {past : Past ZincConnection Input} {c c' : ZincConnection} {i : Input}

/-- An encrypted connection has keys and registers, and all packets sent so far
and all that can be sent next are as long on the wire as their frames. -/
structure Protected (host : Host) (c : ZincConnection) : Prop where
  keyed : c.isEncrypted = true → c.encrypt.ready = true ∧ c.decrypt.ready = true
  sent : ∀ sent ∈ c.output, sent.Whole host
  sends : ∀ packet c', c.send host.libs host.config.threshold packet = .ok c' →
    ∃ wire, c'.output = c.output ++ [⟨c.state, packet.id, packet.data.getBytes, wire⟩] ∧
      wire.length = (frameBytes host.libs host.config.threshold c.isCompressed packet.id
        packet.data.getBytes).length

/-- The response that turns encryption on has a secret of 16 bytes. -/
def SecretGuarded (host : Host) (c : ZincConnection) (i : Input) : Prop :=
  Passed host c i → c.isEncrypted = true ∨ SecretFits host i

/-- What is sent next follows from the keys. -/
theorem Protected.of_keyed (hkeyed : c.isEncrypted = true → c.view.keyed = true)
    (hsent : ∀ sent ∈ c.output, sent.Whole host) : Protected host c := by
  have hready : c.isEncrypted = true → c.encrypt.ready = true ∧ c.decrypt.ready = true := fun henc =>
    Bool.and_eq_true_iff.mp (hkeyed henc)
  refine ⟨hready, hsent, fun packet c' hsend => ?_⟩
  rcases send_eq_ok hsend with ⟨encrypt, wire, rfl, -, hlength⟩
  exact ⟨wire, rfl, hlength fun henc => (hready henc).1⟩

/-- One packet keeps the keys. -/
theorem Effect.keyed {view : View} (heffect : Effect host c i view)
    (hguarded : SecretGuarded host c i) (h : c.isEncrypted = true → c.view.keyed = true) :
    view.isEncrypted = true → view.keyed = true := by
  have hset : Passed host c i → c.view.keyed = true ∨ SecretFits host i := fun hpassed =>
    (hguarded hpassed).imp_left h
  cases heffect with
  | sends => exact h
  | handshake => exact h
  | accepted => exact h
  | passed keyed hpassed hlookup hkeyed => exact fun _ => hkeyed (hset hpassed)
  | unverified keyed hpassed hkeyed => exact fun _ => hkeyed (hset hpassed)
  | loginAck => exact h
  | configured => exact h
  | banned => exact h
  | configAck => exact h

theorem Protected.step (h : Protected host c) (hguarded : SecretGuarded host c i)
    (hstep : Step host c i c') : Protected host c' := by
  rcases hstep.handles with ⟨heffect, new, houtput, hwhole⟩
  have hkeyed := heffect.keyed hguarded fun henc => Bool.and_eq_true_iff.mpr (h.keyed henc)
  refine .of_keyed hkeyed fun sent hsent => ?_
  rw [houtput] at hsent
  rcases List.mem_append.mp hsent with hold | hnew
  · exact h.sent sent hold
  · exact hwhole (fun henc => (Bool.and_eq_true_iff.mp (hkeyed henc)).1) sent hnew

/-- No packet is dropped when every response that turns encryption on fits. -/
theorem protected_of_run (h : ConnectionRun host past c)
    (hguarded : Always (fun _ => SecretGuarded host) past) : Protected host c := by
  apply h.invariant (I := fun _ => Protected host) _ _ hguarded
  · rintro c ⟨ip, networkInfo, settingsInfo, kickAtLogin, rfl⟩
    exact .of_keyed (fun henc => Bool.noConfusion henc) (by simp [ZincConnection.new])
  · intro past c i c' h hguard hstep
    exact h.step hguard hstep

/-- A whole login with a secret of 16 bytes meets the condition. -/
theorem protected_sample : ∃ past c, ConnectionRun sampleHost past c ∧ c.isEncrypted = true ∧
    Protected sampleHost c := by
  rcases handshake_step (sampleMoment []) 0 accepts_waiting rfl with ⟨c₁, h₁, hat₁⟩
  rcases loginStart_step simple_sampleHost sampleClient (sampleMoment []) place_sampleHost
    hat₁ with ⟨c₂, h₂, hat₂⟩
  rcases response_step simple_sampleHost sampleClient (sampleMoment []) 0 hat₂ with
    ⟨c₃, h₃, -, henc, -⟩
  have hrun := ((Run.start accepts_waiting).next h₁).next h₂ |>.next h₃
  refine ⟨_, c₃, hrun, henc, protected_of_run hrun ?_⟩
  have hstart : ∀ {c i}, i.packet.id = 0 → SecretGuarded sampleHost c i := fun hid hpassed =>
    absurd hpassed (not_passed_of_id (by rw [hid]; decide))
  simp only [always_concat, always_nil, true_and]
  refine ⟨⟨hstart rfl, hstart rfl⟩, fun _ => .inr ?_⟩
  exact ⟨_, _, response_packetOfValues 1 sampleClient.length_sharedSecret
    sampleClient.length_verifyToken, rfl⟩

/-- A client that sends a secret of 24 bytes. -/
def longSecretClient : Client :=
  { sampleClient with sharedSecret := zeros 24, length_sharedSecret := by decide }

/-- A secret of 24 bytes is a key, but not a register. -/
theorem not_protected_of_run : ¬ ∀ host past c, ConnectionRun host past c → Protected host c := by
  intro h
  rcases handshake_step (sampleMoment []) 0 accepts_waiting rfl with ⟨c₁, h₁, hat₁⟩
  rcases loginStart_step simple_sampleHost longSecretClient (sampleMoment [])
    place_sampleHost hat₁ with ⟨c₂, h₂, hat₂⟩
  rcases response_step simple_sampleHost longSecretClient (sampleMoment []) 0 hat₂ with
    ⟨c₃, h₃, -, henc, hdecrypt⟩
  have hprotected := h sampleHost _ c₃ (((Run.start accepts_waiting).next h₁).next h₂ |>.next h₃)
  have hready := (hprotected.keyed henc).2
  have hnew : c₃.decrypt = (AESWrapper.new.setKey (zeros 24)).setIV (zeros 24) := by
    rw [hdecrypt, setupEncryption, (hat₂.plain (by decide)).2]
    rfl
  rw [hnew] at hready
  exact absurd hready (by decide)

end Zinc.Network
