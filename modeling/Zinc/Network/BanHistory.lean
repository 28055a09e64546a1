import Zinc.Network.BanCheck
import Zinc.Network.BanList

/-! The list of bans over whole runs. Bans are pushed back; `unban` starts a thread that
takes the mutex at some later time, and a check that finds a ban which is over starts one as
well. As the threads drop what `std::remove_if` returns, the list never gets shorter. The list
that they are meant to leave, without the bans that they are about, is a subsequence of it: so
a ban that no thread has lifted goes on turning its player away, unless one that is over hides
it. -/

namespace Zinc.Network

open History

/-- The bans, and the threads that were started and have not run. -/
structure BanList where
  bans : List BanData
  threads : List Unban

/-- The thread that `sendBanMessage` starts for a ban that is over. -/
def BanData.unban (config : ZincConfig) (ban : BanData) : Unban :=
  if ban.isIpBan then .ip ban.playerIp
  else if config.onlineMode then .uuid ban.playerUUID
  else .name ban.playerName

instance (now : ℤ) (ban : BanData) : Decidable (ban.Over now) := inferInstanceAs (Decidable (_ ∧ _))

/-- The threads that a check starts. -/
def startedThreads (host : Host) (moment : Moment) (connection : ZincConnection) : List Unban :=
  match matchedBan host moment connection with
  | some ban => if ban.Over moment.now then [ban.unban host.config] else []
  | none => []

inductive BanEvent
  /-- One of the functions that ban pushes its ban back. -/
  | ban (ban : BanData)
  /-- A call of `unban` or `unbanIp`. -/
  | unban (u : Unban)
  /-- The check of Config Info. -/
  | check (moment : Moment) (connection : ZincConnection)
  /-- A thread gets the mutex. -/
  | thread (u : Unban)

inductive BanStep (host : Host) : BanList → BanEvent → BanList → Prop
  | ban (list : BanList) (ban : BanData) :
    BanStep host list (.ban ban) { list with bans := list.bans ++ [ban] }
  | unban (list : BanList) (u : Unban) :
    BanStep host list (.unban u) { list with threads := list.threads ++ [u] }
  | check (list : BanList) (moment : Moment) (connection : ZincConnection) :
    BanStep host list (.check moment connection) { list with
      threads := list.threads ++ startedThreads host { moment with bans := list.bans } connection }
  | thread {bans bans' : List BanData} {before after : List Unban} {u : Unban} (h : u.run bans bans') :
    BanStep host ⟨bans, before ++ u :: after⟩ (.thread u) ⟨bans', before ++ after⟩

abbrev BanRun (host : Host) : Past BanList BanEvent → BanList → Prop :=
  Run (· = ⟨[], []⟩) (BanStep host)

/-! ### What a history says -/

/-- What an event is meant to make of the bans. -/
def BanEvent.intended : BanEvent → List BanData → List BanData
  | .ban new, bans => bans ++ [new]
  | .thread u, bans => bans.filter fun ban => !u.isAbout ban
  | _, bans => bans

/-- The bans that no thread has lifted. -/
def intended (past : Past BanList BanEvent) : List BanData :=
  (actions past).foldl (fun bans event => event.intended bans) []

def BanEvent.made : BanEvent → List BanData
  | .ban new => [new]
  | _ => []

def made (past : Past BanList BanEvent) : List BanData := (actions past).flatMap BanEvent.made

def BanEvent.ran : BanEvent → List Unban
  | .thread u => [u]
  | _ => []

def ran (past : Past BanList BanEvent) : List Unban := (actions past).flatMap BanEvent.ran

/-- The threads that an event starts. -/
def BanEvent.started (host : Host) (list : BanList) : BanEvent → List Unban
  | .unban u => [u]
  | .check moment connection => startedThreads host { moment with bans := list.bans } connection
  | _ => []

def started (host : Host) (past : Past BanList BanEvent) : List Unban :=
  past.flatMap fun x => x.2.started host x.1

variable {host : Host} {past : Past BanList BanEvent} {list list' : BanList} {event : BanEvent}

@[simp] theorem intended_concat (past : Past BanList BanEvent) (list : BanList) (event : BanEvent) :
    intended (past ++ [(list, event)]) = event.intended (intended past) := by
  simp [intended]

@[simp] theorem made_concat (past : Past BanList BanEvent) (list : BanList) (event : BanEvent) :
    made (past ++ [(list, event)]) = made past ++ event.made := by
  simp [made]

@[simp] theorem ran_concat (past : Past BanList BanEvent) (list : BanList) (event : BanEvent) :
    ran (past ++ [(list, event)]) = ran past ++ event.ran := by
  simp [ran]

@[simp] theorem started_concat (past : Past BanList BanEvent) (list : BanList) (event : BanEvent) :
    started host (past ++ [(list, event)]) = started host past ++ event.started host list := by
  simp [started]

/-! ### Steps and runs -/

structure BanList.Sound (host : Host) (past : Past BanList BanEvent) (list : BanList) : Prop where
  length_eq : list.bans.length = (made past).length
  intended_sublist : (intended past).Sublist list.bans
  intended_made : (intended past).Sublist (made past)
  threads : (ran past ++ list.threads).Perm (started host past)

theorem BanList.Sound.step (h : list.Sound host past) (hstep : BanStep host list event list') :
    list'.Sound host (past ++ [(list, event)]) := by
  cases hstep with
  | ban list ban =>
    refine ⟨?_, ?_, ?_, ?_⟩
    · simp [BanEvent.made, h.length_eq]
    · simpa [BanEvent.intended] using h.intended_sublist.append (List.Sublist.refl [ban])
    · simpa [BanEvent.intended, BanEvent.made] using h.intended_made.append (List.Sublist.refl [ban])
    · simpa [BanEvent.ran, BanEvent.started] using h.threads
  | unban list u =>
    refine ⟨?_, ?_, ?_, ?_⟩
    · simpa [BanEvent.made] using h.length_eq
    · simpa [BanEvent.intended] using h.intended_sublist
    · simpa [BanEvent.intended, BanEvent.made] using h.intended_made
    · simpa [BanEvent.ran, BanEvent.started] using h.threads.append_right [u]
  | check list moment connection =>
    refine ⟨?_, ?_, ?_, ?_⟩
    · simpa [BanEvent.made] using h.length_eq
    · simpa [BanEvent.intended] using h.intended_sublist
    · simpa [BanEvent.intended, BanEvent.made] using h.intended_made
    · simpa [BanEvent.ran, BanEvent.started] using h.threads.append_right _
  | @thread bans bans' before after u hrun =>
    rw [u.run_eq] at hrun
    refine ⟨?_, ?_, ?_, ?_⟩
    · simpa [BanEvent.made, hrun.length_eq] using h.length_eq
    · simpa [BanEvent.intended] using (h.intended_sublist.filter _).trans hrun.kept.sublist
    · simpa [BanEvent.intended, BanEvent.made] using List.filter_sublist.trans h.intended_made
    · have hmoved : (ran past ++ u :: (before ++ after)).Perm (ran past ++ (before ++ u :: after)) :=
        List.perm_middle.symm.append_left _
      simpa [BanEvent.ran, BanEvent.started] using hmoved.trans h.threads

theorem BanList.Sound.run (h : BanRun host past list) : list.Sound host past := by
  induction h with
  | start h =>
    subst h
    exact ⟨rfl, List.Sublist.refl _, List.Sublist.refl _, List.Perm.refl _⟩
  | next _ hstep ih => exact ih.step hstep

/-- The list is the intended one only as long as no ban was lifted. -/
theorem BanList.Sound.eq_intended_iff (h : list.Sound host past) :
    list.bans = intended past ↔ intended past = made past := by
  constructor
  · intro heq
    exact h.intended_made.eq_of_length (by rw [← heq, h.length_eq])
  · intro heq
    exact (h.intended_sublist.eq_of_length (by rw [heq, h.length_eq])).symm

/-- In every run as many bans are in the list as were made; those that no thread has lifted stand in
it in order, and alone only if none was lifted; each thread runs once for each time it was
started. A player with a ban that was not lifted passes the check only behind one that is over. -/
theorem ban_history (h : BanRun host past list) :
    list.bans.length = (made past).length ∧ (intended past).Sublist list.bans ∧
      (list.bans = intended past ↔ intended past = made past) ∧
      (ran past ++ list.threads).Perm (started host past) ∧
      ∀ moment connection, moment.bans = list.bans → ∀ ban ∈ intended past,
        ban.isFor host.config connection = true → Continues host moment connection →
          ∃ old ∈ list.bans, old.isFor host.config connection = true ∧ old.Over moment.now := by
  have hsound := BanList.Sound.run h
  refine ⟨hsound.length_eq, hsound.intended_sublist, hsound.eq_intended_iff, hsound.threads, ?_⟩
  intro moment connection hbans ban hmem hfor hcontinues
  cases hmatched : matchedBan host moment connection with
  | none =>
    have hin : ban ∈ moment.bans := by
      rw [hbans]
      exact hsound.intended_sublist.subset hmem
    exact absurd hfor (List.find?_eq_none.mp hmatched ban hin)
  | some first =>
    have hin : first ∈ list.bans := by
      rw [← hbans]
      exact List.mem_of_find?_eq_some hmatched
    exact ⟨first, hin, List.find?_some hmatched, continues_iff.mp hcontinues first hmatched⟩

def lastingBan : BanData := sampleBanning.banName ⟨id, id⟩ [65]

/-- The only ban is lifted, and stays in the list. -/
def liftedPast : Past BanList BanEvent :=
  [(⟨[], []⟩, .ban lastingBan), (⟨[lastingBan], []⟩, .unban (.name [65])),
    (⟨[lastingBan], [.name [65]]⟩, .thread (.name [65]))]

theorem liftedPast_run : BanRun sampleHost liftedPast ⟨[lastingBan], []⟩ := by
  have hrun : (Unban.name [65]).run [lastingBan] [lastingBan] := RemoveIf.of_rest [lastingBan] rfl
  have hstart : BanRun sampleHost [] ⟨[], []⟩ := .start rfl
  exact ((hstart.next (.ban _ lastingBan)).next (.unban _ (.name [65]))).next
    (@BanStep.thread _ _ _ [] [] _ hrun)

theorem ban_history_lifted :
    [lastingBan].length = (made liftedPast).length ∧ [lastingBan] ≠ intended liftedPast := by
  have h := ban_history liftedPast_run
  have hnone : intended liftedPast = [] := rfl
  refine ⟨h.1, fun heq => ?_⟩
  exact absurd (hnone.symm.trans (h.2.2.1.mp heq)) (List.cons_ne_nil _ _).symm

end Zinc.Network
