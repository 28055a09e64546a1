import Zinc.Loader.ServerMessenger

/-! The threads of `ZincServerMessenger`. A poll gives every message to a thread of its own and
nobody joins or detaches one, so a slot stays joinable when its thread has finished. A vector
that gives up a joinable slot terminates the process. The next batch overwrites the vector and
the end of the poll clears it, so that a poll is survived exactly when it starts no thread. -/

namespace Zinc.Loader

open Buffer Mailbox

/-- A `std::thread`: default constructed, or started and not joined. -/
inductive Slot where
  | empty
  | joinable
  deriving DecidableEq

/-- `m_tasks` and `m_workers`. -/
structure Workers where
  tasks : ℕ
  workers : List Slot

/-- What one call of `parse` meets: the messages of a sender, and how many workers finish between
the addition to `m_tasks` and the construction of the new vector. -/
structure Batch where
  sender : Bytes
  messages : List Bytes
  finished : ℕ

namespace Workers

def new : Workers := ⟨0, []⟩

/-- Another content for the vector; destroying a joinable thread calls `std::terminate`. -/
def replace (workers : List Slot) (state : Workers) : Option Workers :=
  if .joinable ∈ state.workers then none else some { state with workers }

/-- `m_workers.push_back(std::thread(_parseMessage, sender, message))`. -/
def push (_message : Bytes) (state : Workers) : Workers :=
  { state with workers := state.workers ++ [.joinable] }

/-- `parse`, from the addition to `m_tasks` on. -/
def parse (state : Workers) (batch : Batch) : Option Workers := do
  let state := { state with tasks := state.tasks - batch.finished + batch.messages.length }
  let state ← state.replace (List.replicate state.tasks .empty)
  return batch.messages.foldl (fun state message => state.push message) state

/-- One iteration of `start`; `while (m_tasks) {}` is left when every worker has finished. -/
def poll (state : Workers) (batches : List Batch) : Option Workers := do
  let state ← batches.foldlM parse state
  replace [] { state with tasks := 0 }

/-- Iterations of `start`, one after another. -/
def start (polls : List (List Batch)) : Option Workers := polls.foldlM poll new

/-- Some slot holds a thread that was not joined. -/
def Running (state : Workers) : Prop := .joinable ∈ state.workers

variable {state state' : Workers}

/-! ### Steps -/

/-- The vector changes hands exactly when no slot is joinable. -/
theorem replace_eq_some_iff {workers : List Slot} : state.replace workers = some state' ↔
    ¬ state.Running ∧ { state with workers } = state' := by
  unfold replace
  by_cases h : .joinable ∈ state.workers
  · rw [if_pos h]
    exact iff_of_false nofun fun hnot => hnot.1 h
  · rw [if_neg h, Option.some.injEq]
    exact (and_iff_right (show ¬ state.Running from h)).symm

theorem running_pushes (messages : List Bytes) (state : Workers) :
    (messages.foldl (fun state message => state.push message) state).Running ↔
      state.Running ∨ messages ≠ [] := by
  induction messages generalizing state with
  | nil => simp
  | cons message messages ih =>
    have hpush : (state.push message).Running := List.mem_append_right _ List.mem_cons_self
    rw [List.foldl_cons, ih]
    exact iff_of_true (.inl hpush) (.inr (List.cons_ne_nil _ _))

/-- What `parse` needs, and what it leaves. -/
theorem parse_eq_some {batch : Batch} (h : state.parse batch = some state') :
    ¬ state.Running ∧ (state'.Running ↔ batch.messages ≠ []) := by
  obtain ⟨made, hmade, hpushed⟩ := Option.bind_eq_some_iff.mp h
  obtain ⟨hnot, rfl⟩ := replace_eq_some_iff.mp hmade
  obtain rfl := Option.some.inj hpushed
  refine ⟨hnot, ?_⟩
  rw [running_pushes]
  exact or_iff_right fun hrunning => nomatch (List.mem_replicate.mp hrunning).2

theorem exists_parse (h : ¬ state.Running) (batch : Batch) : ∃ state', state.parse batch = some state' :=
  ⟨_, Option.bind_eq_some_iff.mpr ⟨_, replace_eq_some_iff.mpr ⟨h, rfl⟩, rfl⟩⟩

/-! ### Polls -/

/-- The senders of a poll are parsed without a thread left over exactly when none of them has
a message. -/
theorem parseAll_iff (batches : List Batch) (state : Workers) :
    (∃ state', batches.foldlM parse state = some state' ∧ ¬ state'.Running) ↔
      ¬ state.Running ∧ ∀ batch ∈ batches, batch.messages = [] := by
  induction batches generalizing state with
  | nil =>
    simp only [List.foldlM_nil, List.not_mem_nil, false_imp_iff, implies_true, and_true]
    exact ⟨fun ⟨_, h, hnot⟩ => Option.some.inj h ▸ hnot, fun h => ⟨state, rfl, h⟩⟩
  | cons batch batches ih =>
    rw [List.foldlM_cons, List.forall_mem_cons]
    constructor
    · rintro ⟨last, hlast, hnot⟩
      obtain ⟨next, hnext, hrest⟩ := Option.bind_eq_some_iff.mp hlast
      obtain ⟨hstate, hmessages⟩ := parse_eq_some hnext
      obtain ⟨hquiet, hothers⟩ := (ih next).mp ⟨last, hrest, hnot⟩
      exact ⟨hstate, not_not.mp fun hne => hquiet (hmessages.mpr hne), hothers⟩
    · rintro ⟨hstate, hempty, hothers⟩
      obtain ⟨next, hnext⟩ := exists_parse hstate batch
      have hquiet : ¬ next.Running := fun hrunning => (parse_eq_some hnext).2.mp hrunning hempty
      obtain ⟨last, hlast, hnot⟩ := (ih next).mpr ⟨hquiet, hothers⟩
      exact ⟨last, Option.bind_eq_some_iff.mpr ⟨next, hnext, hlast⟩, hnot⟩

/-- A poll that ends leaves no thread behind. -/
theorem poll_iff (batches : List Batch) (state : Workers) :
    (∃ state', state.poll batches = some state' ∧ ¬ state'.Running) ↔
      ¬ state.Running ∧ ∀ batch ∈ batches, batch.messages = [] := by
  rw [← parseAll_iff]
  constructor
  · rintro ⟨last, hlast, -⟩
    obtain ⟨parsed, hparsed, hcleared⟩ := Option.bind_eq_some_iff.mp hlast
    exact ⟨parsed, hparsed, (replace_eq_some_iff.mp hcleared).1⟩
  · rintro ⟨parsed, hparsed, hnot⟩
    exact ⟨⟨0, []⟩, Option.bind_eq_some_iff.mpr
      ⟨parsed, hparsed, replace_eq_some_iff.mpr ⟨hnot, rfl⟩⟩, List.not_mem_nil⟩

theorem not_running_of_poll {batches : List Batch} (h : state.poll batches = some state') :
    ¬ state'.Running := by
  obtain ⟨parsed, -, hcleared⟩ := Option.bind_eq_some_iff.mp h
  obtain ⟨-, rfl⟩ := replace_eq_some_iff.mp hcleared
  exact List.not_mem_nil

theorem polls_iff (polls : List (List Batch)) (state : Workers) (h : ¬ state.Running) :
    (∃ state', polls.foldlM poll state = some state') ↔
      ∀ batches ∈ polls, ∀ batch ∈ batches, batch.messages = [] := by
  induction polls generalizing state with
  | nil => simp
  | cons batches polls ih =>
    rw [List.foldlM_cons, List.forall_mem_cons]
    constructor
    · rintro ⟨last, hlast⟩
      obtain ⟨next, hnext, hrest⟩ := Option.bind_eq_some_iff.mp hlast
      have hnot := not_running_of_poll hnext
      exact ⟨((poll_iff batches state).mp ⟨next, hnext, hnot⟩).2, (ih next hnot).mp ⟨last, hrest⟩⟩
    · rintro ⟨hempty, hothers⟩
      obtain ⟨next, hnext, hnot⟩ := (poll_iff batches state).mpr ⟨h, hempty⟩
      obtain ⟨last, hlast⟩ := (ih next hnot).mpr hothers
      exact ⟨last, Option.bind_eq_some_iff.mpr ⟨next, hnext, hlast⟩⟩

/-- No thread that was started and not joined is dropped exactly when no sender has a message
in any iteration. -/
theorem start_iff (polls : List (List Batch)) :
    (∃ state, start polls = some state) ↔
      ∀ batches ∈ polls, ∀ batch ∈ batches, batch.messages = [] :=
  polls_iff polls new List.not_mem_nil

/-- One message of one sender: its thread is dropped at the end of the poll. -/
theorem start_one_message : start [[⟨[1], [[2]], 0⟩]] = none := by decide

/-! ### Polls of the bridge -/

/-- A poll of the bridge is survived exactly when no message waits for the server. -/
theorem poll_bridge_iff {messenger : ZincServerMessenger} {bridge : ZincMessengerBridge}
    {batches : List Batch} (hbatches : batches.map (fun batch => (batch.sender, batch.messages)) =
      (messenger.poll bridge).1) :
    (∃ state, new.poll batches = some state) ↔
      ∀ sender, waiting (bridge.mailbox messenger.serverMessengerId sender) = [] := by
  have hsurvive : (∃ state, new.poll batches = some state) ↔
      ∀ batch ∈ batches, batch.messages = [] := by
    have hstart := polls_iff [batches] new List.not_mem_nil
    simpa using hstart
  have hwaiting : ∀ sender, waiting (bridge.mailbox messenger.serverMessengerId sender) = [] ↔
      ∀ batch ∈ batches, batch.sender = sender → batch.messages = [] := by
    intro sender
    rw [← yielded_poll, ← hbatches, yielded, List.flatMap_eq_nil_iff]
    simp only [List.mem_filter, List.mem_map, decide_eq_true_eq]
    constructor
    · intro h batch hmem heq
      exact h (batch.sender, batch.messages) ⟨⟨batch, hmem, rfl⟩, heq⟩
    · rintro h _ ⟨⟨batch, hmem, rfl⟩, heq⟩
      exact h batch hmem heq
  simp only [hsurvive, hwaiting]
  exact ⟨fun h sender batch hmem _ => h batch hmem, fun h batch hmem => h batch.sender batch hmem rfl⟩

end Workers

end Zinc.Loader
