import Zinc.Loader.Delivery

/-! `ZincServerMessenger` polls the bridge for messages to the server. The server's id is
made by `ZincMessengerBridge::init` and is a target like any other, but nothing in the
repository registers it. A poll hands over all that was sent to it exactly if somebody
else registered it before the first message. The workers that answer the messages call
`send` like any other party. -/

namespace Zinc.Loader

open History Mailbox Buffer ZincMessengerBridge

structure ZincServerMessenger where
  serverMessengerId : Bytes

namespace ZincServerMessenger

def new : ZincServerMessenger := ⟨[]⟩

def init (id : Bytes) (messenger : ZincServerMessenger) : ZincServerMessenger :=
  if messenger.serverMessengerId = [] then { messenger with serverMessengerId := id } else messenger

/-- The messages that `parse` gives to workers. -/
def parse (sender : Bytes) (bridge : ZincMessengerBridge) (messenger : ZincServerMessenger) :
    List Bytes × ZincMessengerBridge :=
  bridge.read messenger.serverMessengerId sender

/-- `parse` for one sender after another. -/
def parseAll (messenger : ZincServerMessenger) :
    List Bytes → ZincMessengerBridge → List (Bytes × List Bytes) × ZincMessengerBridge
  | [], bridge => ([], bridge)
  | sender :: senders, bridge =>
    let (messages, bridge) := messenger.parse sender bridge
    let (rest, bridge) := messenger.parseAll senders bridge
    ((sender, messages) :: rest, bridge)

/-- One iteration of the loop in `start`. -/
def poll (bridge : ZincMessengerBridge) (messenger : ZincServerMessenger) :
    List (Bytes × List Bytes) × ZincMessengerBridge :=
  messenger.parseAll (bridge.getSenders messenger.serverMessengerId) bridge

end ZincServerMessenger

/-- `g_zincMessengerBridge` and `g_zincServerMessenger`. -/
structure Messaging where
  bridge : ZincMessengerBridge
  messenger : ZincServerMessenger

/-- `ZincMessengerBridge::init` with the 32 bytes of `randomBytes`. -/
def Messaging.init (random : Bytes) (messaging : Messaging) : Messaging :=
  let bridge :=
    if messaging.bridge.serverMessengerId = [] then
      { messaging.bridge with serverMessengerId := random }
    else messaging.bridge
  { bridge, messenger := messaging.messenger.init bridge.serverMessengerId }

/-- The program behind its first `init`. -/
def Messaging.start (random : Bytes) : Messaging := Messaging.init random ⟨.new, .new⟩

inductive ServerCall
  | init (random : Bytes)
  | sendToServerTarget (senderId data : Bytes)
  | parse (sender : Bytes)
  | other (call : Call)

def ServerCall.run (messaging : Messaging) : ServerCall → List Bytes × Messaging
  | .init random => ([], messaging.init random)
  | .sendToServerTarget senderId data =>
    ([], { messaging with bridge := messaging.bridge.sendToServerTarget senderId data })
  | .parse sender =>
    let (messages, bridge) := messaging.messenger.parse sender messaging.bridge
    (messages, { messaging with bridge })
  | .other call =>
    let (messages, bridge) := call.run messaging.bridge
    (messages, { messaging with bridge })

/-- The histories from `init` on, with the server's id. A poll is there as its calls of
`parse`, so that other calls can come between them. -/
abbrev MessagingRun (id : Bytes) : Past Messaging (ServerCall × List Bytes) → Messaging → Prop :=
  Run (· = .start id) fun messaging event messaging' => event.1.run messaging = (event.2, messaging')

/-- The call of the bridge that is made: `sendToServerTarget` is a `send` to the server's
id, `parse` is a `read` with it, and another `init` changes nothing. -/
def ServerCall.toCall (id : Bytes) : ServerCall → Option Call
  | .init _ => none
  | .sendToServerTarget senderId data => some (.send id senderId data)
  | .parse sender => some (.read id sender)
  | .other call => some call

/-- What a call means to the server's mailbox for a sender. -/
def ServerCall.op (id sender : Bytes) (call : ServerCall) : Op Bytes :=
  match call.toCall id with
  | none => .idle
  | some call => call.op id sender

def serverEvent (id sender : Bytes) (event : ServerCall × List Bytes) : Event Bytes :=
  (event.1.op id sender, event.2)

/-- The messages that a sender passed to the server. -/
def passed (id sender : Bytes) (past : Past Messaging (ServerCall × List Bytes)) : List Bytes :=
  puts ((actions past).map (serverEvent id sender))

/-- The messages of a sender that polls returned. -/
def returned (id sender : Bytes) (past : Past Messaging (ServerCall × List Bytes)) : List Bytes :=
  takes ((actions past).map (serverEvent id sender))

/-- The messages of a sender that a poll yields. -/
def yielded (sender : Bytes) (yields : List (Bytes × List Bytes)) : List Bytes :=
  (yields.filter fun yield => yield.1 = sender).flatMap Prod.snd

/-- The next poll yields what no earlier one returned. -/
def Arrive (id : Bytes) (past : Past Messaging (ServerCall × List Bytes)) (messaging : Messaging) :
    Prop :=
  ∀ sender, passed id sender past = returned id sender past ++
    yielded sender (messaging.messenger.poll messaging.bridge).1

/-- A call that sends to the server finds the server registered. -/
def FindsServer (id : Bytes) (messaging : Messaging) (event : ServerCall × List Bytes) : Prop :=
  (∃ sender data, event.1.op id sender = .put data) → messaging.bridge.isRegistered id = true

variable {id sender : Bytes} {past : Past Messaging (ServerCall × List Bytes)}
  {messaging : Messaging} {bridge : ZincMessengerBridge} {messenger : ZincServerMessenger}

/-! ### Polls -/

theorem yielded_cons (sender' : Bytes) (messages : List Bytes) (yields : List (Bytes × List Bytes)) :
    yielded sender ((sender', messages) :: yields) =
      (if sender' = sender then messages else []) ++ yielded sender yields := by
  simp only [yielded, List.filter_cons, decide_eq_true_iff]
  split <;> rfl

/-- One read for each of some senders yields what waits for them. -/
theorem yielded_parseAll {senders : List Bytes} (hnodup : senders.Nodup)
    (bridge : ZincMessengerBridge) :
    yielded sender (messenger.parseAll senders bridge).1 =
      if sender ∈ senders then waiting (bridge.mailbox messenger.serverMessengerId sender) else [] := by
  induction senders generalizing bridge with
  | nil => rfl
  | cons sender' senders ih =>
    obtain ⟨hnot, hnodup⟩ := List.nodup_cons.mp hnodup
    rw [ZincServerMessenger.parseAll]
    dsimp only
    rw [yielded_cons, ih hnodup, ZincServerMessenger.parse, mailbox_read, read_fst]
    by_cases heq : sender' = sender
    · rw [if_pos heq, ← heq, if_neg hnot, if_pos List.mem_cons_self, List.append_nil]
    · have hmem : sender ∈ sender' :: senders ↔ sender ∈ senders := by
        rw [List.mem_cons, or_iff_right (Ne.symm heq)]
      have hother : ¬ (messenger.serverMessengerId = messenger.serverMessengerId ∧ sender' = sender) :=
        fun h => heq h.2
      rw [if_neg heq, List.nil_append, if_neg hother, next_idle]
      simp only [hmem]

theorem mem_getSenders : sender ∈ bridge.getSenders id ↔ bridge.canRead id sender = true := by
  unfold getSenders canRead
  split
  · rw [Std.ExtTreeMap.mem_keys, Std.ExtTreeMap.mem_iff_contains]
  · simp

theorem nodup_getSenders : (bridge.getSenders id).Nodup := by
  unfold getSenders
  split
  · exact Std.ExtTreeMap.nodup_keys
  · exact List.nodup_nil

/-- A poll yields what waits for the server. -/
theorem yielded_poll : yielded sender (messenger.poll bridge).1 =
    waiting (bridge.mailbox messenger.serverMessengerId sender) := by
  rw [ZincServerMessenger.poll, yielded_parseAll nodup_getSenders]
  split
  · rfl
  next hnot =>
    rw [mem_getSenders] at hnot
    rw [← read_fst, ZincMessengerBridge.read, if_neg hnot]

/-! ### Runs -/

/-- Both objects have the server's id. -/
def HasId (id : Bytes) (messaging : Messaging) : Prop :=
  messaging.bridge.serverMessengerId = id ∧ messaging.messenger.serverMessengerId = id

theorem hasId_start (id : Bytes) : HasId id (.start id) := ⟨rfl, rfl⟩

theorem serverMessengerId_call (call : Call) (bridge : ZincMessengerBridge) :
    (call.run bridge).2.serverMessengerId = bridge.serverMessengerId := by
  cases call with
  | registerTarget id => dsimp only [Call.run, registerTarget]; split <;> rfl
  | unregisterTarget id => dsimp only [Call.run, unregisterTarget]; split <;> rfl
  | send recvId senderId data =>
    dsimp only [Call.run, send]
    split
    · split <;> rfl
    · rfl
  | read recvId senderId => dsimp only [Call.run, ZincMessengerBridge.read]; split <;> rfl

theorem ServerCall.run_eq (hid : id ≠ []) (h : HasId id messaging) (call : ServerCall) :
    call.run messaging = match call.toCall id with
      | none => ([], messaging)
      | some call => ((call.run messaging.bridge).1,
        { messaging with bridge := (call.run messaging.bridge).2 }) := by
  obtain ⟨rfl, hmessenger⟩ := h
  cases call with
  | init random =>
    have hinit : messaging.init random = messaging := by
      rw [Messaging.init, if_neg hid, ZincServerMessenger.init, if_neg (hmessenger ▸ hid)]
    rw [ServerCall.run, hinit]
    rfl
  | sendToServerTarget senderId data => rfl
  | parse sender =>
    rw [ServerCall.run, ZincServerMessenger.parse, hmessenger]
    rfl
  | other call => rfl

/-- A call is a step of every mailbox of the server. -/
theorem ServerCall.step_mailbox {call : ServerCall} {out : List Bytes} {messaging' : Messaging}
    (hid : id ≠ []) (h : HasId id messaging) (hrun : call.run messaging = (out, messaging'))
    (sender : Bytes) :
    HasId id messaging' ∧ Step (messaging.bridge.mailbox id sender)
      (serverEvent id sender (call, out)) (messaging'.bridge.mailbox id sender) := by
  rw [call.run_eq hid h] at hrun
  dsimp only [serverEvent, ServerCall.op]
  cases hcall : call.toCall id with
  | none =>
    rw [hcall] at hrun
    obtain ⟨rfl, rfl⟩ := Prod.mk.inj hrun
    exact ⟨h, nofun, (next_idle _).symm⟩
  | some call =>
    rw [hcall] at hrun
    obtain ⟨rfl, rfl⟩ := Prod.mk.inj hrun
    exact ⟨⟨(serverMessengerId_call call _).trans h.1, h.2⟩, call.step_mailbox rfl id sender⟩

theorem mailRun_of_messagingRun (hid : id ≠ []) (h : MessagingRun id past messaging) (sender : Bytes) :
    HasId id messaging ∧ MailRun
      (past.map (Prod.map (fun messaging => messaging.bridge.mailbox id sender) (serverEvent id sender)))
      (messaging.bridge.mailbox id sender) := by
  refine h.simulate (I := HasId id) ?_ ?_
  · rintro messaging rfl
    refine ⟨hasId_start id, ?_⟩
    rfl
  · exact fun messaging event messaging' hhas hrun => event.1.step_mailbox hid hhas hrun sender

theorem ServerCall.eq_of_op_eq_delete {call : ServerCall} (h : call.op id sender = .delete) :
    call = .other (.unregisterTarget id) := by
  unfold ServerCall.op at h
  cases call with
  | init random => cases h
  | sendToServerTarget senderId data => dsimp only [toCall, Call.op] at h; split at h <;> cases h
  | parse senderId => dsimp only [toCall, Call.op] at h; split at h <;> cases h
  | other call =>
    cases call with
    | unregisterTarget id' =>
      dsimp only [toCall, Call.op] at h
      split at h
      next heq => rw [heq]
      next => cases h
    | registerTarget id' => dsimp only [toCall, Call.op] at h; split at h <;> cases h
    | send recvId senderId data => dsimp only [toCall, Call.op] at h; split at h <;> cases h
    | read recvId senderId => dsimp only [toCall, Call.op] at h; split at h <;> cases h

theorem findsServer_iff {event : ServerCall × List Bytes} : FindsServer id messaging event ↔
    ∀ sender, Accepted (messaging.bridge.mailbox id sender) (serverEvent id sender event) := by
  constructor
  · intro h sender data hput
    have hregistered := h ⟨sender, data, hput⟩
    rw [isRegistered_eq _ id sender] at hregistered
    exact Option.isSome_iff_ne_none.mp hregistered
  · rintro h ⟨sender, data, hput⟩
    rw [isRegistered_eq _ id sender]
    exact Option.isSome_iff_ne_none.mpr (h sender data hput)

/-- Messages to the server arrive exactly if the server's id was registered before they
were sent. -/
theorem arrive_iff (hid : id.length = 32) (h : MessagingRun id past messaging)
    (hkeep : ∀ event ∈ actions past, event.1 ≠ .other (.unregisterTarget id)) :
    Arrive id past messaging ↔ Always (fun _ => FindsServer id) past := by
  have hne : id ≠ [] := List.ne_nil_of_length_pos (by omega)
  have hmessenger := (mailRun_of_messagingRun hne h []).1.2
  have hdelivered : ∀ sender, passed id sender past = returned id sender past ++
      yielded sender (messaging.messenger.poll messaging.bridge).1 ↔
      ∀ x ∈ past, Accepted (x.1.bridge.mailbox id sender) (serverEvent id sender x.2) := by
    intro sender
    have hiff := delivered_iff_of_run (mailRun_of_messagingRun hne h sender).2 ?_
    · rw [actions_map, always_iff_forall_mem, List.forall_mem_map] at hiff
      rw [yielded_poll, hmessenger]
      exact hiff
    · rw [List.forall_mem_map]
      intro x hx hdelete
      exact hkeep x.2 (List.mem_map_of_mem hx) (ServerCall.eq_of_op_eq_delete hdelete)
  rw [Arrive, always_iff_forall_mem, forall_congr' hdelivered]
  simp only [findsServer_iff]
  exact ⟨fun h x hx sender => h sender x hx, fun h sender x hx => h x hx sender⟩

/-- An id of 32 bytes. -/
def sampleId : Bytes := List.replicate 32 7

/-- The server is registered by another party, and a message waits for the poll. -/
theorem arrive_registered : ∃ past messaging, MessagingRun sampleId past messaging ∧
    actions past = [(.other (.registerTarget sampleId), []), (.sendToServerTarget [1] [2], [])] ∧
    Arrive sampleId past messaging := by
  have h₀ : MessagingRun sampleId [] (.start sampleId) := .start rfl
  have h₁ := h₀.next (a := (.other (.registerTarget sampleId), [])) rfl
  have h₂ := h₁.next (a := (.sendToServerTarget [1] [2], [])) rfl
  refine ⟨_, _, h₂, rfl, (arrive_iff rfl h₂ ?_).mpr ?_⟩
  · simp [actions]
  · rw [always_concat, always_concat]
    refine ⟨⟨always_nil, ?_⟩, fun _ => by decide⟩
    rintro ⟨sender, data, hput⟩
    simp [ServerCall.op, ServerCall.toCall, Call.op] at hput

/-- `init` alone: the message of a sender is dropped. -/
theorem not_arrive : ¬ ∀ id past messaging, id.length = 32 → MessagingRun id past messaging →
    (∀ event ∈ actions past, event.1 ≠ .other (.unregisterTarget id)) →
    Arrive id past messaging := by
  intro h
  have h₀ : MessagingRun sampleId [] (.start sampleId) := .start rfl
  have h₁ := h₀.next (a := (.sendToServerTarget [1] [2], [])) rfl
  have harrive := h sampleId _ _ rfl h₁ (by simp [actions]) [1]
  revert harrive
  decide

end Zinc.Loader
