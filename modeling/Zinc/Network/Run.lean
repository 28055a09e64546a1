import Zinc.Base.History
import Zinc.Network.Effect

/-! Runs of a connection. One step is one packet: `read` may change the input, the
register of the decryption and the flag to go on, then the packet is handled. The
packets, and what their handlers find, are arbitrary. -/

namespace Zinc.Network

open Throw History Buffer ZincConnection

/-- What `read` may do to a connection. -/
def Received (c c₀ : ZincConnection) : Prop :=
  ∃ input decrypt shouldContinue, c.decrypt.Rolls decrypt ∧
    c₀ = { c with input := input, decrypt := decrypt, shouldContinue := shouldContinue }

/-- One packet with an id that is not negative is handled. -/
def Step (host : Host) (c : ZincConnection) (i : Input) (c' : ZincConnection) : Prop :=
  i.packet.id.msb = false ∧ ∃ c₀ handled, Received c c₀ ∧
    switch host i.moment i.online i.packet c₀ = .ok handled ∧ handled.connection = c'

/-- A connection that `onAccept` made. -/
def Accepts (c : ZincConnection) : Prop :=
  ∃ ip networkInfo settingsInfo kickAtLogin,
    c = { ZincConnection.new ip networkInfo settingsInfo with kickAtLogin := kickAtLogin }

/-- The histories of a connection. -/
abbrev ConnectionRun (host : Host) : Past ZincConnection Input → ZincConnection → Prop :=
  Run Accepts (Step host)

variable {host : Host} {c c₀ c' : ZincConnection} {i : Input}

theorem Received.refl (c : ZincConnection) : Received c c :=
  ⟨c.input, c.decrypt, c.shouldContinue, AESWrapper.Rolls.refl _, rfl⟩

theorem Received.trans {c₁ : ZincConnection} (h : Received c c₀) (h' : Received c₀ c₁) :
    Received c c₁ := by
  rcases h with ⟨input, decrypt, shouldContinue, hrolls, rfl⟩
  rcases h' with ⟨input', decrypt', shouldContinue', hrolls', rfl⟩
  exact ⟨input', decrypt', shouldContinue', hrolls.trans hrolls', rfl⟩

theorem Received.view_eq (h : Received c c₀) : c₀.view = c.view := by
  rcases h with ⟨input, decrypt, shouldContinue, hrolls, rfl⟩
  simp only [ZincConnection.view, hrolls.ready_eq]

/-- A handler's effect does not depend on what `read` may change. -/
theorem Received.handles (h : Received c c₀) (hh : Handles host c₀ i c') : Handles host c i c' := by
  have hview := h.view_eq
  rcases h with ⟨input, decrypt, shouldContinue, -, rfl⟩
  rcases hh with ⟨heffect, hgrows⟩
  refine ⟨?_, hgrows⟩
  generalize c'.view = view at heffect
  cases heffect with
  | sends ids hlogin hconfig haccepted hpassed =>
    rw [hview]
    refine .sends ids hlogin hconfig ?_ hpassed
    rintro ⟨h₁, h₂, h₃, h₄, h₅⟩
    exact haccepted ⟨h₁, h₂, h₃, h₄, h₅⟩
  | handshake state hstate hnew =>
    rw [hview]
    exact .handshake state hstate hnew
  | accepted ids h hids =>
    rw [hview]
    rcases h with ⟨h₁, h₂, h₃, h₄, h₅⟩
    exact .accepted ids ⟨h₁, h₂, h₃, h₄, h₅⟩ hids
  | passed keyed h hlookup hkeyed =>
    rw [hview] at hkeyed ⊢
    exact .passed keyed h hlookup hkeyed
  | unverified keyed h hkeyed =>
    rw [hview] at hkeyed ⊢
    exact .unverified keyed h hkeyed
  | loginAck h =>
    rw [hview]
    exact .loginAck h
  | configured registries h hban =>
    rw [hview]
    exact .configured registries h hban
  | banned h hban =>
    rw [hview]
    exact .banned h hban
  | configAck h =>
    rw [hview]
    exact .configAck h

theorem Step.handles (h : Step host c i c') : Handles host c i c' := by
  rcases h with ⟨-, c₀, handled, hreceived, hswitch, rfl⟩
  exact hreceived.handles (switch_handles hswitch)

theorem Accepts.view_eq (h : Accepts c) : c.view = ⟨.handshake, [], false, false, []⟩ := by
  rcases h with ⟨ip, networkInfo, settingsInfo, kickAtLogin, rfl⟩
  rfl

end Zinc.Network
