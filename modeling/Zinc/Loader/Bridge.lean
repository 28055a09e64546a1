import Zinc.Base.Mailbox
import Zinc.Buffer.Internal

/-! `ZincMessengerBridge`: for each registered target, the messages that wait for it by
their senders. Every call is atomic. Every pair of a target and a sender is a mailbox:
registering the target creates it, unregistering deletes it, and calls about other
pairs leave it alone. -/

namespace Zinc.Loader

open Buffer Mailbox

/-- `std::map` with byte vectors as keys. -/
abbrev ByteMap (α : Type) := Std.ExtTreeMap Bytes α

structure ZincMessengerBridge where
  targets : ByteMap (ByteMap (List Bytes))
  serverMessengerId : Bytes

namespace ZincMessengerBridge

def new : ZincMessengerBridge := ⟨∅, []⟩

def isRegistered (id : Bytes) (bridge : ZincMessengerBridge) : Bool := bridge.targets.contains id

/-- `m_targets[recvId]` of a registered target. -/
def target (recvId : Bytes) (bridge : ZincMessengerBridge) : ByteMap (List Bytes) :=
  bridge.targets.getD recvId ∅

def setTarget (recvId : Bytes) (target : ByteMap (List Bytes)) (bridge : ZincMessengerBridge) :
    ZincMessengerBridge :=
  { bridge with targets := bridge.targets.insert recvId target }

def send (recvId senderId data : Bytes) (bridge : ZincMessengerBridge) : ZincMessengerBridge :=
  if bridge.isRegistered recvId then
    let target := bridge.target recvId
    if target.contains senderId then
      bridge.setTarget recvId (target.insert senderId (target.getD senderId [] ++ [data]))
    else bridge.setTarget recvId (target.insertIfNew senderId [data])
  else bridge

def senderAmount (recvId : Bytes) (bridge : ZincMessengerBridge) : ℕ :=
  if bridge.isRegistered recvId then (bridge.target recvId).size else 0

def canRead (recvId senderId : Bytes) (bridge : ZincMessengerBridge) : Bool :=
  if bridge.senderAmount recvId ≠ 0 then (bridge.target recvId).contains senderId else false

def getSenders (recvId : Bytes) (bridge : ZincMessengerBridge) : List Bytes :=
  if bridge.senderAmount recvId ≠ 0 then (bridge.target recvId).keys else []

def read (recvId senderId : Bytes) (bridge : ZincMessengerBridge) :
    List Bytes × ZincMessengerBridge :=
  if bridge.canRead recvId senderId then
    let target := bridge.target recvId
    (target.getD senderId [], bridge.setTarget recvId (target.insert senderId []))
  else ([], bridge)

def registerTarget (id : Bytes) (bridge : ZincMessengerBridge) : ZincMessengerBridge :=
  if bridge.isRegistered id then bridge
  else { bridge with targets := bridge.targets.insertIfNew id ∅ }

def unregisterTarget (id : Bytes) (bridge : ZincMessengerBridge) : ZincMessengerBridge :=
  if bridge.isRegistered id then { bridge with targets := bridge.targets.erase id } else bridge

def sendToServerTarget (senderId data : Bytes) (bridge : ZincMessengerBridge) : ZincMessengerBridge :=
  bridge.send bridge.serverMessengerId senderId data

/-! ### Mailboxes -/

variable {bridge : ZincMessengerBridge} {recvId senderId id sender data : Bytes}

/-- The mailbox of a target for a sender. -/
def mailbox (recvId senderId : Bytes) (bridge : ZincMessengerBridge) : Mailbox.State Bytes :=
  bridge.targets[recvId]?.map fun target => target.getD senderId []

theorem isRegistered_eq (bridge : ZincMessengerBridge) (recvId senderId : Bytes) :
    bridge.isRegistered recvId = (bridge.mailbox recvId senderId).isSome := by
  rw [mailbox, Option.isSome_map, isRegistered, Std.ExtTreeMap.isSome_getElem?_eq_contains]

theorem getElem?_target (h : bridge.isRegistered recvId = true) :
    bridge.targets[recvId]? = some (bridge.target recvId) :=
  Std.ExtTreeMap.getElem?_eq_some_getD_of_contains h

theorem getElem?_eq_none_of_not_registered (h : ¬ bridge.isRegistered recvId = true) :
    bridge.targets[recvId]? = none :=
  Std.ExtTreeMap.getElem?_eq_none_of_contains_eq_false (Bool.eq_false_iff.mpr h)

/-- What a target has for a sender. -/
def entry (recvId senderId : Bytes) (bridge : ZincMessengerBridge) : Entry Bytes :=
  bridge.targets[recvId]?.map fun target => target[senderId]?

theorem mailbox_eq (bridge : ZincMessengerBridge) (recvId senderId : Bytes) :
    bridge.mailbox recvId senderId = (bridge.entry recvId senderId).box := by
  rw [mailbox, entry, Entry.box, Option.map_map]
  congr 1
  funext target
  exact Std.ExtTreeMap.getD_eq_getD_getElem?

theorem entry_of_registered (h : bridge.isRegistered recvId = true) :
    bridge.entry recvId senderId = some (bridge.target recvId)[senderId]? := by
  rw [entry, getElem?_target h]
  rfl

theorem entry_of_not_registered (h : ¬ bridge.isRegistered recvId = true) :
    bridge.entry recvId senderId = none := by
  rw [entry, getElem?_eq_none_of_not_registered h]
  rfl

theorem entry_setTarget (target : ByteMap (List Bytes)) :
    (bridge.setTarget id target).entry recvId senderId =
      if id = recvId then some target[senderId]? else bridge.entry recvId senderId := by
  rw [entry, setTarget, Std.ExtTreeMap.getElem?_insert]
  simp only [Std.LawfulEqCmp.compare_eq_iff_eq]
  split <;> rfl

/-- Both branches of `send` for a registered target put the message behind the others. -/
theorem send_of_registered (h : bridge.isRegistered recvId = true) (senderId data : Bytes) :
    bridge.send recvId senderId data = bridge.setTarget recvId ((bridge.target recvId).insert senderId
      ((bridge.target recvId).getD senderId [] ++ [data])) := by
  rw [send, if_pos h]
  dsimp only
  split
  · rfl
  next hnew =>
    congr 1
    apply Std.ExtTreeMap.ext_getElem?
    intro k
    rw [Std.ExtTreeMap.getElem?_insertIfNew, Std.ExtTreeMap.getElem?_insert,
      Std.ExtTreeMap.getD_eq_fallback_of_contains_eq_false (Bool.eq_false_iff.mpr hnew), List.nil_append]
    simp only [Std.ExtTreeMap.mem_iff_contains, hnew, Bool.false_eq_true, not_false_eq_true, and_true]

theorem entry_send : (bridge.send id sender data).entry recvId senderId =
    (bridge.entry recvId senderId).next
      (if id = recvId ∧ sender = senderId then .put data else .idle) := by
  by_cases h : bridge.isRegistered id = true
  · rw [send_of_registered h, entry_setTarget]
    by_cases hid : id = recvId
    · rw [if_pos hid, ← hid, entry_of_registered h, Std.ExtTreeMap.getElem?_insert,
        Std.ExtTreeMap.getD_eq_getD_getElem?]
      simp only [Std.LawfulEqCmp.compare_eq_iff_eq, true_and]
      by_cases hsender : sender = senderId
      · rw [if_pos hsender, if_pos hsender, hsender]
        rfl
      · rw [if_neg hsender, if_neg hsender]
        rfl
    · rw [if_neg hid, if_neg (fun h => hid h.1), Entry.next_idle]
  · rw [send, if_neg h]
    split
    next heq =>
      rw [← heq.1, entry_of_not_registered h]
      rfl
    next => rw [Entry.next_idle]

/-- There is something to read where a sender left its mark. -/
theorem canRead_iff : bridge.canRead recvId senderId = true ↔
    bridge.isRegistered recvId = true ∧ (bridge.target recvId).contains senderId = true := by
  unfold canRead senderAmount
  by_cases h : bridge.isRegistered recvId = true
  · rw [if_pos h]
    split
    next => simp [h]
    next hsize =>
      have hempty := Std.ExtTreeMap.eq_empty_iff_size_eq_zero.mpr (not_not.mp hsize)
      simp [h, hempty]
  · simp [h]

theorem canRead_iff_entry : bridge.canRead recvId senderId = true ↔
    ∃ messages, bridge.entry recvId senderId = some (some messages) := by
  rw [canRead_iff]
  by_cases h : bridge.isRegistered recvId = true
  · rw [entry_of_registered h, ← Std.ExtTreeMap.isSome_getElem?_eq_contains, Option.isSome_iff_exists]
    simp [h]
  · rw [entry_of_not_registered h]
    simp [h]

theorem read_fst (bridge : ZincMessengerBridge) (recvId senderId : Bytes) :
    (bridge.read recvId senderId).1 = waiting (bridge.mailbox recvId senderId) := by
  rw [mailbox_eq]
  unfold read
  split
  next h =>
    rw [entry_of_registered (canRead_iff.mp h).1]
    exact Std.ExtTreeMap.getD_eq_getD_getElem?
  next h =>
    rw [canRead_iff_entry, not_exists] at h
    match hentry : bridge.entry recvId senderId with
    | none => rfl
    | some none => rfl
    | some (some messages) => exact absurd hentry (h messages)

theorem entry_read : (bridge.read id sender).2.entry recvId senderId =
    (bridge.entry recvId senderId).next
      (if id = recvId ∧ sender = senderId then .take else .idle) := by
  unfold read
  split
  next h =>
    obtain ⟨hreg, hsender⟩ := canRead_iff.mp h
    rw [entry_setTarget]
    by_cases hid : id = recvId
    · rw [if_pos hid, ← hid, entry_of_registered hreg, Std.ExtTreeMap.getElem?_insert]
      simp only [Std.LawfulEqCmp.compare_eq_iff_eq, true_and]
      by_cases heq : sender = senderId
      · have hsome : (bridge.target id)[sender]? = some ((bridge.target id).getD sender []) :=
          Std.ExtTreeMap.getElem?_eq_some_getD_of_contains hsender
        rw [if_pos heq, if_pos heq, ← heq, hsome]
        rfl
      · rw [if_neg heq, if_neg heq, Entry.next_idle]
    · rw [if_neg hid, if_neg (fun h => hid h.1), Entry.next_idle]
  next h =>
    split
    next heq =>
      rw [canRead_iff_entry, not_exists, heq.1, heq.2] at h
      match hentry : bridge.entry recvId senderId with
      | none => rfl
      | some none => rfl
      | some (some messages) => exact absurd hentry (h messages)
    next => rw [Entry.next_idle]

theorem entry_registerTarget : (bridge.registerTarget id).entry recvId senderId =
    (bridge.entry recvId senderId).next (if id = recvId then .create else .idle) := by
  unfold registerTarget
  by_cases h : bridge.isRegistered id = true
  · rw [if_pos h]
    split
    next heq => rw [← heq, entry_of_registered h]; rfl
    next => rw [Entry.next_idle]
  · rw [if_neg h]
    dsimp only [entry]
    rw [Std.ExtTreeMap.getElem?_insertIfNew]
    simp only [Std.LawfulEqCmp.compare_eq_iff_eq]
    split
    next heq =>
      rw [if_pos heq.1, ← heq.1, getElem?_eq_none_of_not_registered h]
      simp [Entry.next]
    next hne =>
      rw [if_neg (fun heq => hne ⟨heq, h⟩), Entry.next_idle]

theorem entry_unregisterTarget : (bridge.unregisterTarget id).entry recvId senderId =
    (bridge.entry recvId senderId).next (if id = recvId then .delete else .idle) := by
  unfold unregisterTarget
  by_cases h : bridge.isRegistered id = true
  · rw [if_pos h]
    dsimp only [entry]
    rw [Std.ExtTreeMap.getElem?_erase]
    simp only [Std.LawfulEqCmp.compare_eq_iff_eq]
    split
    next heq => rw [← heq, getElem?_target h]; rfl
    next => rw [Entry.next_idle]
  · rw [if_neg h]
    split
    next heq => rw [← heq, entry_of_not_registered h]; rfl
    next => rw [Entry.next_idle]

end ZincMessengerBridge

/-! ### Calls -/

open ZincMessengerBridge

/-- The calls that the mutex makes atomic. -/
inductive Call
  | registerTarget (id : Bytes)
  | unregisterTarget (id : Bytes)
  | send (recvId senderId data : Bytes)
  | read (recvId senderId : Bytes)

/-- A call with the messages that it returns. -/
def Call.run (bridge : ZincMessengerBridge) : Call → List Bytes × ZincMessengerBridge
  | .registerTarget id => ([], bridge.registerTarget id)
  | .unregisterTarget id => ([], bridge.unregisterTarget id)
  | .send recvId senderId data => ([], bridge.send recvId senderId data)
  | .read recvId senderId => bridge.read recvId senderId

/-- What a call means to a pair of a target and a sender. -/
def Call.op (recvId senderId : Bytes) : Call → Op Bytes
  | .registerTarget id => if id = recvId then .create else .idle
  | .unregisterTarget id => if id = recvId then .delete else .idle
  | .send id sender data => if id = recvId ∧ sender = senderId then .put data else .idle
  | .read id sender => if id = recvId ∧ sender = senderId then .take else .idle

/-- Every call does to the entry of a pair what it means to the pair. -/
theorem Call.entry_run (call : Call) (bridge : ZincMessengerBridge) (recvId senderId : Bytes) :
    (call.run bridge).2.entry recvId senderId =
      (bridge.entry recvId senderId).next (call.op recvId senderId) := by
  cases call with
  | registerTarget id => exact entry_registerTarget
  | unregisterTarget id => exact entry_unregisterTarget
  | send id sender data => exact entry_send
  | read id sender => exact entry_read

/-- And so to the mailbox. -/
theorem Call.mailbox_run (call : Call) (bridge : ZincMessengerBridge) (recvId senderId : Bytes) :
    (call.run bridge).2.mailbox recvId senderId =
      next (bridge.mailbox recvId senderId) (call.op recvId senderId) := by
  rw [mailbox_eq, mailbox_eq, call.entry_run, Entry.box_next]

theorem mailbox_read (bridge : ZincMessengerBridge) (id sender recvId senderId : Bytes) :
    (bridge.read id sender).2.mailbox recvId senderId =
      next (bridge.mailbox recvId senderId)
        (if id = recvId ∧ sender = senderId then .take else .idle) :=
  (Call.read id sender).mailbox_run bridge recvId senderId

theorem Call.run_fst_of_take {call : Call} {recvId senderId : Bytes}
    (h : call.op recvId senderId = .take) (bridge : ZincMessengerBridge) :
    (call.run bridge).1 = waiting (bridge.mailbox recvId senderId) := by
  cases call with
  | read id sender =>
    rw [Call.op, ite_eq_left_iff] at h
    by_cases heq : id = recvId ∧ sender = senderId
    · obtain ⟨rfl, rfl⟩ := heq
      exact read_fst ..
    · exact nomatch h heq
  | registerTarget id => rw [Call.op] at h; split at h <;> cases h
  | unregisterTarget id => rw [Call.op] at h; split at h <;> cases h
  | send id sender data => rw [Call.op] at h; split at h <;> cases h

end Zinc.Loader
