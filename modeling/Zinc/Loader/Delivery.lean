import Zinc.Loader.Bridge

/-! Delivery by `ZincMessengerBridge`, for any interleaving of the calls of any parties.
A pair of a target and a sender gets every message once and in order, from one
registration of the target on. -/

namespace Zinc.Loader

open History Mailbox Buffer ZincMessengerBridge

/-- The histories of a bridge: the calls with what they returned. -/
abbrev BridgeRun : Past ZincMessengerBridge (Call × List Bytes) → ZincMessengerBridge → Prop :=
  Run (fun bridge => bridge.targets = ∅) fun bridge event bridge' =>
    event.1.run bridge = (event.2, bridge')

/-- What a call was to a pair. -/
def pairEvent (recvId senderId : Bytes) (event : Call × List Bytes) : Event Bytes :=
  (event.1.op recvId senderId, event.2)

variable {past : Past ZincMessengerBridge (Call × List Bytes)} {bridge : ZincMessengerBridge}

/-- A call is a step of every mailbox. -/
theorem Call.step_mailbox {call : Call} {out : List Bytes} {bridge' : ZincMessengerBridge}
    (h : call.run bridge = (out, bridge')) (recvId senderId : Bytes) :
    Step (bridge.mailbox recvId senderId) (pairEvent recvId senderId (call, out))
      (bridge'.mailbox recvId senderId) := by
  have hsnd := call.mailbox_run bridge recvId senderId
  rw [h] at hsnd
  refine ⟨fun htake => ?_, hsnd⟩
  rw [← Call.run_fst_of_take htake bridge, h]
  rfl

theorem mailRun_of_run (h : BridgeRun past bridge) (recvId senderId : Bytes) :
    MailRun (past.map (Prod.map (mailbox recvId senderId) (pairEvent recvId senderId)))
      (bridge.mailbox recvId senderId) := by
  refine (h.simulate (I := fun _ => True) ?_ ?_).2
  · intro bridge hempty
    refine ⟨trivial, ?_⟩
    rw [mailbox, hempty, Std.ExtTreeMap.getElem?_empty]
    rfl
  · exact fun bridge event bridge' _ hcall => ⟨trivial, event.1.step_mailbox hcall recvId senderId⟩

/-- Since the last registration of a target, what was sent to it by a sender is what was
read, and then what the next read returns; calls about other pairs change nothing. -/
theorem delivered_of_calls (h : BridgeRun past bridge) (recvId senderId : Bytes) :
    (match session ((actions past).map (pairEvent recvId senderId)) with
      | some events => bridge.isRegistered recvId = true ∧
        puts events = takes events ++ (bridge.read recvId senderId).1
      | none => bridge.isRegistered recvId = false ∧ (bridge.read recvId senderId).1 = []) ∧
    ∀ call : Call, call.op recvId senderId = .idle →
      ((call.run bridge).2.read recvId senderId).1 = (bridge.read recvId senderId).1 := by
  constructor
  · have hdelivered := delivered_of_run (mailRun_of_run h recvId senderId)
    rw [actions_map] at hdelivered
    rw [isRegistered_eq bridge recvId senderId, read_fst]
    generalize bridge.mailbox recvId senderId = box at hdelivered ⊢
    generalize session _ = events at hdelivered ⊢
    cases hdelivered with
    | none => exact ⟨rfl, rfl⟩
    | some h => exact ⟨rfl, h⟩
  · intro call hidle
    rw [read_fst, read_fst, call.mailbox_run, hidle, next_idle]

/-- A message is sent before the target is registered and is lost; two are sent after
that, and one of them is still to be read. -/
theorem delivered_of_calls_sample : ∃ past bridge, BridgeRun past bridge ∧
    actions past = [(.send [1] [2] [3], []), (.registerTarget [1], []), (.send [1] [2] [4], []),
      (.read [1] [2], [[4]]), (.send [1] [2] [5], [])] ∧
    (bridge.read [1] [2]).1 = [[5]] := by
  have h₀ : BridgeRun [] new := Run.start rfl
  have h₁ := h₀.next (a := (.send [1] [2] [3], [])) rfl
  have h₂ := h₁.next (a := (.registerTarget [1], [])) rfl
  have h₃ := h₂.next (a := (.send [1] [2] [4], [])) rfl
  have h₄ := h₃.next (a := (.read [1] [2], [[4]])) rfl
  have h₅ := h₄.next (a := (.send [1] [2] [5], [])) rfl
  obtain ⟨⟨-, hdelivered⟩, -⟩ := delivered_of_calls h₅ [1] [2]
  refine ⟨_, _, h₅, rfl, Eq.symm ?_⟩
  simpa [puts, takes, pairEvent, Call.op] using hdelivered

end Zinc.Loader
