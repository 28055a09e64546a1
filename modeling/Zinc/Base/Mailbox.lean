import Zinc.Base.History

/-! A mailbox for one sender. While it exists, messages are put in at one end, and the
receiver takes all that wait; what is put in before it is created is lost, and so is
what waits in it when it is deleted. What was put in since its creation is what was
taken, in order, and then what waits. A mailbox that nobody deletes delivers everything
exactly if nothing is put into it before it is created. A store may keep an entry for a
mailbox from its first message on; the entry shows that messages wait unless they were
taken since the last one was put in. -/

namespace Mailbox

open History

variable {α : Type*}

inductive Op (α : Type*)
  | create
  | delete
  | put (x : α)
  | take
  | idle

/-- The messages that wait, if the mailbox exists. -/
abbrev State (α : Type*) := Option (List α)

def next : State α → Op α → State α
  | none, .create => some []
  | none, _ => none
  | some _, .delete => none
  | some waiting, .put x => some (waiting ++ [x])
  | some _, .take => some []
  | some waiting, _ => some waiting

@[simp] theorem next_idle (s : State α) : next s .idle = s := by
  cases s <;> rfl

/-- The messages that wait. -/
def waiting (s : State α) : List α := s.getD []

/-- What a store keeps for a mailbox: nothing before the first message, and the entry stays
when the messages are taken. -/
abbrev Entry (α : Type*) := Option (Option (List α))

def Entry.next : Entry α → Op α → Entry α
  | none, .create => some none
  | none, _ => none
  | some _, .delete => none
  | some entry, .put x => some (some (entry.getD [] ++ [x]))
  | some entry, .take => some (entry.map fun _ => [])
  | some entry, _ => some entry

/-- The mailbox that an entry stands for. -/
def Entry.box (entry : Entry α) : State α := entry.map fun messages => messages.getD []

@[simp] theorem Entry.next_idle (entry : Entry α) : entry.next .idle = entry := by
  cases entry <;> rfl

theorem Entry.box_next (entry : Entry α) (op : Op α) : (entry.next op).box = Mailbox.next entry.box op := by
  cases entry with
  | none => cases op <;> rfl
  | some messages => cases op <;> cases messages <;> rfl

/-- An operation with the messages that it returned. -/
abbrev Event (α : Type*) := Op α × List α

def Step (s : State α) (event : Event α) (t : State α) : Prop :=
  (event.1 = .take → event.2 = waiting s) ∧ t = next s event.1

/-- The histories of a mailbox that does not exist at first. -/
abbrev MailRun : Past (State α) (Event α) → State α → Prop := Run (· = none) Step

/-- The messages put in. -/
def puts (events : List (Event α)) : List α :=
  events.filterMap fun event => match event.1 with
    | .put x => some x
    | _ => none

/-- The messages returned. -/
def takes (events : List (Event α)) : List α :=
  events.flatMap fun event => match event.1 with
    | .take => event.2
    | _ => []

@[simp] theorem puts_append (events events' : List (Event α)) :
    puts (events ++ events') = puts events ++ puts events' := List.filterMap_append ..

@[simp] theorem takes_append (events events' : List (Event α)) :
    takes (events ++ events') = takes events ++ takes events' := List.flatMap_append ..

variable {events : List (Event α)} {q out : List α} {op : Op α} {s t : State α} {x : α}

/-- All that was put in was taken, in order, or waits. -/
def Delivered (events : List (Event α)) (waiting : List α) : Prop :=
  puts events = takes events ++ waiting

/-- What is put in will wait behind the others. -/
theorem Delivered.put (h : Delivered events q) : Delivered (events ++ [(.put x, out)]) (q ++ [x]) := by
  rw [Delivered, puts_append, takes_append, h]
  simp [puts, takes]

/-- What waits is taken. -/
theorem Delivered.take (h : Delivered events q) : Delivered (events ++ [(.take, q)]) [] := by
  rw [Delivered, puts_append, takes_append, h]
  simp [puts, takes]

theorem Delivered.skip (h : Delivered events q) (hput : ∀ x, op ≠ .put x) (htake : op ≠ .take) :
    Delivered (events ++ [(op, out)]) q := by
  rw [Delivered, puts_append, takes_append, h]
  cases op with
  | put x => exact absurd rfl (hput x)
  | take => exact absurd rfl htake
  | _ => simp [puts, takes]

/-! ### Since the creation -/

def extend : Option (List (Event α)) → Event α → Option (List (Event α))
  | none, event => if event.1 matches .create then some [] else none
  | some events, event => if event.1 matches .delete then none else some (events ++ [event])

/-- What happened since the mailbox was created, if it exists. -/
def session (events : List (Event α)) : Option (List (Event α)) := events.foldl extend none

theorem Step.delivered {events : Option (List (Event α))} {event : Event α} (hstep : Step s event t)
    (h : Option.Rel Delivered events s) : Option.Rel Delivered (extend events event) t := by
  obtain ⟨op, out⟩ := event
  obtain ⟨hout, rfl⟩ := hstep
  cases h with
  | none =>
    cases op with
    | create => exact .some rfl
    | _ => exact .none
  | some h =>
    cases op with
    | create => exact .some (h.skip nofun nofun)
    | delete => exact .none
    | put x => exact .some h.put
    | take =>
      obtain rfl := hout rfl
      exact .some h.take
    | idle => exact .some (h.skip nofun nofun)

/-- Since its creation a mailbox delivers every message once and in order. -/
theorem delivered_of_run {past : Past (State α) (Event α)} (h : MailRun past s) :
    Option.Rel Delivered (session (actions past)) s := by
  induction h with
  | start h =>
    obtain rfl := h
    exact .none
  | next _ hstep ih =>
    rw [session, actions_concat, List.foldl_append]
    exact hstep.delivered ih

/-! ### From the beginning -/

/-- A message is put in only if the mailbox exists. -/
def Accepted (s : State α) (event : Event α) : Prop := ∀ x, event.1 = .put x → s ≠ none

/-- One operation takes no more than it finds and puts in, and less if it loses a message. -/
theorem Step.length_le {event : Event α} (h : Step s event t) :
    (takes [event]).length + (waiting t).length ≤ (puts [event]).length + (waiting s).length ∧
    (¬ Accepted s event → (takes [event]).length + (waiting t).length <
      (puts [event]).length + (waiting s).length) := by
  obtain ⟨op, out⟩ := event
  obtain ⟨hout, rfl⟩ := h
  cases op with
  | take =>
    obtain rfl := hout rfl
    cases s <;> simp [puts, takes, next, waiting, Accepted]
  | put x => cases s <;> simp [puts, takes, next, waiting, Accepted, Nat.add_comm]
  | _ => cases s <;> simp [puts, takes, next, waiting, Accepted]

theorem length_le_of_run {past : Past (State α) (Event α)} (h : MailRun past s) :
    (takes (actions past)).length + (waiting s).length ≤ (puts (actions past)).length ∧
    (¬ Always (fun _ => Accepted) past →
      (takes (actions past)).length + (waiting s).length < (puts (actions past)).length) := by
  induction h with
  | start h =>
    obtain rfl := h
    exact ⟨Nat.le_refl _, fun hnot => absurd always_nil hnot⟩
  | @next past s t event _ hstep ih =>
    obtain ⟨hle, hlt⟩ := ih
    obtain ⟨hle', hlt'⟩ := hstep.length_le
    rw [actions_concat, puts_append, takes_append, List.length_append, List.length_append]
    refine ⟨by omega, fun hnot => ?_⟩
    rw [always_concat, not_and_or] at hnot
    obtain hnot | hnot := hnot
    · have hlt := hlt hnot
      omega
    · have hlt' := hlt' hnot
      omega

/-- One operation that loses nothing. -/
theorem Step.delivered_all {event : Event α} (hstep : Step s event t) (haccepted : Accepted s event)
    (hkeep : event.1 ≠ .delete) (h : Delivered events (waiting s)) :
    Delivered (events ++ [event]) (waiting t) := by
  obtain ⟨op, out⟩ := event
  obtain ⟨hout, rfl⟩ := hstep
  cases op with
  | create => cases s <;> exact h.skip nofun nofun
  | delete => exact absurd rfl hkeep
  | put x =>
    cases s with
    | none => exact absurd rfl (haccepted x rfl)
    | some q => exact h.put
  | take =>
    obtain rfl := hout rfl
    cases s <;> exact h.take
  | idle => cases s <;> exact h.skip nofun nofun

/-- A mailbox that is not deleted delivers everything exactly if it exists whenever
something is put in. -/
theorem delivered_iff_of_run {past : Past (State α) (Event α)} (h : MailRun past s)
    (hkeep : ∀ x ∈ past, x.2.1 ≠ .delete) :
    Delivered (actions past) (waiting s) ↔ Always (fun _ => Accepted) past := by
  constructor
  · intro hdelivered
    by_contra hnot
    have hlt := (length_le_of_run h).2 hnot
    rw [hdelivered, List.length_append] at hlt
    exact absurd hlt (Nat.lt_irrefl _)
  · intro hall
    induction h with
    | start h =>
      obtain rfl := h
      rfl
    | @next past s t event _ hstep ih =>
      obtain ⟨hall, hlast⟩ := always_concat.mp hall
      rw [actions_concat]
      exact hstep.delivered_all hlast (hkeep (s, event) (by simp))
        (ih (fun x hx => hkeep x (List.mem_append_left _ hx)) hall)

/-! ### Marks -/

/-- What happened to a mailbox since it was created: nothing that counts, a message that
was not taken yet, or a take behind the last message. -/
inductive Mark
  | missing
  | unused
  | unread
  | spent
  deriving DecidableEq

def Mark.next : Mark → Op α → Mark
  | .missing, .create => .unused
  | .missing, _ => .missing
  | _, .delete => .missing
  | _, .put _ => .unread
  | .unread, .take => .spent
  | mark, _ => mark

/-- The mark that a history of operations leaves. -/
def markOf (ops : List (Op α)) : Mark := ops.foldl Mark.next .missing

theorem markOf_concat (ops : List (Op α)) (op : Op α) :
    markOf (ops ++ [op]) = (markOf ops).next op := by
  rw [markOf, List.foldl_append]
  rfl

def Entry.mark : Entry α → Mark
  | none => .missing
  | some none => .unused
  | some (some []) => .spent
  | some (some (_ :: _)) => .unread

theorem Entry.mark_next (entry : Entry α) (op : Op α) : (entry.next op).mark = entry.mark.next op := by
  match entry with
  | none => cases op <;> rfl
  | some none => cases op <;> rfl
  | some (some []) => cases op <;> rfl
  | some (some (_ :: _)) => cases op <;> rfl

theorem Entry.mark_eq_spent_iff {entry : Entry α} : entry.mark = .spent ↔ entry = some (some []) := by
  match entry with
  | none => simp [mark]
  | some none => simp [mark]
  | some (some []) => simp [mark]
  | some (some (_ :: _)) => simp [mark]

end Mailbox
