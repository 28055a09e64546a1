import Zinc.Loader.ServerMessenger
import Mathlib.Data.Set.Card

/-! What the queries of `ZincMessengerBridge` say about the next read. They look at the
entries of a target, and a read empties a queue but keeps its entry. So the queries are
exact in a state exactly when no receiver has read all messages of a sender that it has
had since its registration. -/

namespace Zinc.Loader

open History Mailbox Buffer ZincMessengerBridge

/-- The queries agree with what the next reads return. -/
structure Exact (bridge : ZincMessengerBridge) : Prop where
  canRead : ∀ recvId senderId, bridge.canRead recvId senderId = true ↔
    (bridge.read recvId senderId).1 ≠ []
  getSenders : ∀ recvId, (bridge.getSenders recvId).Nodup ∧
    ∀ senderId, senderId ∈ bridge.getSenders recvId ↔ (bridge.read recvId senderId).1 ≠ []
  senderAmount : ∀ recvId,
    bridge.senderAmount recvId = {senderId | (bridge.read recvId senderId).1 ≠ []}.ncard

/-- The mark that the calls of a history leave for a pair. -/
def pairMark (recvId senderId : Bytes)
    (past : Past ZincMessengerBridge (Call × List Bytes)) : Mark :=
  markOf ((actions past).map fun event => event.1.op recvId senderId)

variable {past : Past ZincMessengerBridge (Call × List Bytes)} {bridge : ZincMessengerBridge}
  {recvId senderId : Bytes}

/-! ### One state -/

theorem length_getSenders (bridge : ZincMessengerBridge) (recvId : Bytes) :
    (bridge.getSenders recvId).length = bridge.senderAmount recvId := by
  by_cases h : bridge.senderAmount recvId = 0
  · rw [ZincMessengerBridge.getSenders, if_neg (not_not.mpr h), h, List.length_nil]
  · rw [ZincMessengerBridge.getSenders, if_pos h, Std.ExtTreeMap.length_keys,
      ZincMessengerBridge.senderAmount]
    split
    · rfl
    next hreg => exact absurd (if_neg hreg) h

/-- The next read returns a message exactly if the entry has one. -/
theorem read_ne_nil_iff : (bridge.read recvId senderId).1 ≠ [] ↔
    bridge.canRead recvId senderId = true ∧ bridge.entry recvId senderId ≠ some (some []) := by
  rw [read_fst, mailbox_eq, canRead_iff_entry]
  match bridge.entry recvId senderId with
  | none => simp [Entry.box, waiting]
  | some none => simp [Entry.box, waiting]
  | some (some messages) => simp [Entry.box, waiting]

/-- Exactness is about one kind of entry. -/
theorem exact_iff_entry : Exact bridge ↔
    ∀ recvId senderId, bridge.entry recvId senderId ≠ some (some []) := by
  constructor
  · intro h recvId senderId hentry
    have hread := (h.canRead recvId senderId).mp (canRead_iff_entry.mpr ⟨[], hentry⟩)
    exact (read_ne_nil_iff.mp hread).2 hentry
  · intro h
    have hread : ∀ recvId senderId, (bridge.read recvId senderId).1 ≠ [] ↔
        bridge.canRead recvId senderId = true := fun recvId senderId =>
      read_ne_nil_iff.trans (and_iff_left (h recvId senderId))
    refine ⟨fun recvId senderId => (hread recvId senderId).symm, fun recvId =>
      ⟨nodup_getSenders, fun senderId => ?_⟩, fun recvId => ?_⟩
    · rw [mem_getSenders, hread]
    · have hset : {senderId | (bridge.read recvId senderId).1 ≠ []} =
          ((bridge.getSenders recvId).toFinset : Set Bytes) := by
        ext senderId
        rw [Set.mem_ofPred_eq, hread, List.coe_toFinset, Set.mem_ofPred_eq, mem_getSenders]
      rw [hset, Set.ncard_coe_finset, List.toFinset_card_of_nodup nodup_getSenders,
        length_getSenders]

/-! ### Runs -/

/-- The entry of a pair has the mark of the pair. -/
theorem entry_mark_of_run (h : BridgeRun past bridge) (recvId senderId : Bytes) :
    (bridge.entry recvId senderId).mark = pairMark recvId senderId past := by
  induction h with
  | start hempty =>
    rw [entry, hempty, Std.ExtTreeMap.getElem?_empty]
    rfl
  | @next past bridge bridge' event _ hcall ih =>
    have hentry := event.1.entry_run bridge recvId senderId
    rw [hcall] at hentry
    rw [hentry, Entry.mark_next, ih, pairMark, pairMark, actions_concat, List.map_append,
      List.map_singleton, markOf_concat]

/-- In every state reached the queries are exact exactly when no pair was read since its last
message. -/
theorem exact_iff (h : BridgeRun past bridge) :
    Exact bridge ↔ ∀ recvId senderId, pairMark recvId senderId past ≠ .spent := by
  simp only [exact_iff_entry, ← entry_mark_of_run h, ne_eq, Entry.mark_eq_spent_iff]

/-- A message that waits. -/
theorem exact_unread : ∃ past bridge, BridgeRun past bridge ∧
    actions past = [(.registerTarget [1], []), (.send [1] [2] [3], [])] ∧ Exact bridge := by
  have h₀ : BridgeRun [] new := Run.start rfl
  have h₁ := h₀.next (a := (.registerTarget [1], [])) rfl
  have h₂ := h₁.next (a := (.send [1] [2] [3], [])) rfl
  refine ⟨_, _, h₂, rfl, (exact_iff h₂).mpr fun recvId senderId => ?_⟩
  change markOf [if [1] = recvId then Op.create else .idle,
    if [1] = recvId ∧ [2] = senderId then .put [3] else .idle] ≠ .spent
  by_cases hrecv : [1] = recvId
  · by_cases hsender : [2] = senderId <;> simp [hrecv, hsender, markOf, Mark.next]
  · simp [hrecv, markOf, Mark.next]

/-- After a read there is nothing to read, and the queries still show the sender. -/
theorem not_exact_read : ∃ past bridge, BridgeRun past bridge ∧
    actions past = [(.registerTarget [1], []), (.send [1] [2] [3], []), (.read [1] [2], [[3]])] ∧
    bridge.canRead [1] [2] = true ∧ (bridge.read [1] [2]).1 = [] ∧
    bridge.getSenders [1] = [[2]] ∧ bridge.senderAmount [1] = 1 := by
  have h₀ : BridgeRun [] new := Run.start rfl
  have h₁ := h₀.next (a := (.registerTarget [1], [])) rfl
  have h₂ := h₁.next (a := (.send [1] [2] [3], [])) rfl
  have h₃ := h₂.next (a := (.read [1] [2], [[3]])) rfl
  exact ⟨_, _, h₃, rfl, by decide, by decide, by decide, by decide⟩

end Zinc.Loader
