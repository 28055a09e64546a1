import Zinc.Network.Accounts

/-! Admission of connections by `addClient`. Clients that are turned away stay
registered and count as accounts, and only a client that passes the rate limiter
touches its entry. So the entry of an address is never earlier than a reading of the
clock that let one of its clients in, and the next such client has to come later
by more than the rate limit. -/

namespace Zinc.Network

open History Buffer PartialMap

/-- The calls that register clients and remove them. -/
inductive Admission where
  | add (now refreshed : ℤ) (fd : ℕ) (client : ZincConnection)
  | remove (fd : ℕ)

namespace Admission

def apply (config : ZincConfig) (server : ZincServer) : Admission → ZincServer
  | add now refreshed fd client => server.addClient config now refreshed fd client
  | remove fd => server.removeClient fd

/-- What the rate limiter reads of the clock. -/
def limiterReadings (config : ZincConfig) (now refreshed : ℤ) : Option ℤ → List ℤ
  | some last => if last + config.rateLimit < now then [now, refreshed] else [now]
  | none => [now]

/-- What a call reads of the clock. -/
def readings (config : ZincConfig) (server : ZincServer) : Admission → List ℤ
  | add now refreshed fd client =>
    if server.isConnected fd then []
    else limiterReadings config now refreshed (server.rateLimiterData client.ip)
  | remove _ => []

/-- A client of an address that will not be kicked. -/
def Welcome (ip : Bytes) (client : ZincConnection) : Prop := client.ip = ip ∧ client.kickAtLogin = 0

instance (ip : Bytes) : DecidablePred (Welcome ip) := fun client =>
  inferInstanceAs (Decidable (client.ip = ip ∧ client.kickAtLogin = 0))

/-- The call registers such a client. -/
def Admits (config : ZincConfig) (ip : Bytes) (server : ZincServer) : Admission → Prop
  | add now refreshed fd client => server.clients fd = none ∧
      ∃ c, (server.addClient config now refreshed fd client).clients fd = some c ∧ Welcome ip c
  | remove _ => False

/-- The histories of `addClient` and `removeClient`. -/
abbrev AdmissionRun (config : ZincConfig) : Past ZincServer Admission → ZincServer → Prop :=
  Run (· = .new) fun server a server' => server' = a.apply config server

/-- Two calls that admit clients of one address are more than the rate limit apart. -/
def Apart (config : ZincConfig) (x y : ZincServer × Admission) : Prop :=
  ∀ ip, x.2.Admits config ip x.1 → y.2.Admits config ip y.1 →
    ∀ r ∈ x.2.readings config x.1, ∀ r' ∈ y.2.readings config y.1, r + config.rateLimit < r'

variable {config : ZincConfig} {now refreshed : ℤ} {ip : Bytes} {server : ZincServer} {a : Admission}
  {past : Past ZincServer Admission}

/-! ### The rate limiter -/

/-- A client that passes: every reading lies between the limit and the new entry. -/
theorem limiterReadings_of_passed {entry : Option ℤ}
    (hpassed : (ZincServer.rateLimit config now refreshed entry).2 = false)
    (hclock : (limiterReadings config now refreshed entry).Pairwise (· ≤ ·)) :
    ∀ r ∈ limiterReadings config now refreshed entry,
      r ≤ (ZincServer.rateLimit config now refreshed entry).1 ∧
        ∀ last ∈ entry, last + config.rateLimit < r := by
  cases entry with
  | none => simp [limiterReadings, ZincServer.rateLimit]
  | some last =>
    simp only [ZincServer.rateLimit, limiterReadings] at *
    by_cases hlt : last + config.rateLimit < now
    · rw [if_pos hlt, List.pairwise_pair] at hclock
      simp only [if_pos hlt, List.mem_cons, List.not_mem_nil, or_false, Option.mem_some_iff,
        forall_eq_or_imp, forall_eq, forall_eq']
      exact ⟨⟨hclock, hlt⟩, le_refl _, hlt.trans_le hclock⟩
    · rw [if_neg hlt] at hpassed
      cases hpassed

/-- An entry stays as it is or becomes a reading. -/
theorem rateLimit_entry (config : ZincConfig) (now refreshed last : ℤ) :
    (ZincServer.rateLimit config now refreshed (some last)).1 = last ∨
      (ZincServer.rateLimit config now refreshed (some last)).1 ∈
        limiterReadings config now refreshed (some last) := by
  simp only [ZincServer.rateLimit, limiterReadings]
  split
  · exact .inr (by simp)
  · exact .inl rfl

/-- What `addClient` asks of a client that it admits. -/
theorem Admits.passed {fd : ℕ} {client : ZincConnection}
    (h : (add now refreshed fd client).Admits config ip server) :
    server.clients fd = none ∧ ip = client.ip ∧
      (ZincServer.rateLimit config now refreshed (server.rateLimiterData ip)).2 = false ∧
      (server.concurrentAccounts ip).getD 0 + 1 ≤ config.maxConcurrentAccount := by
  obtain ⟨hfree, c, hclient, hip, hkick⟩ := h
  rw [ZincServer.addClient_of_free hfree] at hclient
  dsimp only at hclient
  rw [Function.update_self] at hclient
  obtain rfl := Option.some.inj hclient
  obtain rfl : client.ip = ip := hip
  unfold ZincServer.admitted at hkick
  dsimp only at hkick
  split at hkick
  · cases hkick
  next hmax =>
  split at hkick
  · cases hkick
  next hlimit => exact ⟨hfree, rfl, by simpa using hlimit, Int.not_lt.mp hmax⟩

/-! ### Entries along a run -/

theorem readings_of_free {fd : ℕ} {client : ZincConnection} (h : server.clients fd = none) :
    (add now refreshed fd client).readings config server =
      limiterReadings config now refreshed (server.rateLimiterData client.ip) := by
  rw [readings, ZincServer.isConnected_eq_false h, if_neg Bool.false_ne_true]

/-- The entry of an address behind a call is older or one of its readings. -/
theorem apply_entry (config : ZincConfig) {last : ℤ} (h : server.rateLimiterData ip = some last)
    (a : Admission) :
    ∃ last', (a.apply config server).rateLimiterData ip = some last' ∧
      (last' = last ∨ last' ∈ a.readings config server) := by
  cases a with
  | remove fd =>
    refine ⟨last, ?_, .inl rfl⟩
    simp only [apply, ZincServer.removeClient]
    split <;> exact h
  | add now refreshed fd client =>
    rw [apply]
    cases hclient : server.clients fd with
    | some client' =>
      rw [ZincServer.addClient_of_connected hclient]
      exact ⟨last, h, .inl rfl⟩
    | none =>
      rw [ZincServer.addClient_of_free hclient, readings_of_free hclient]
      dsimp only
      by_cases hip : ip = client.ip
      · rw [hip, Function.update_self, ← hip, h]
        exact ⟨_, rfl, rateLimit_entry config now refreshed last⟩
      · rw [Function.update_of_ne hip]
        exact ⟨last, h, .inl rfl⟩

/-- A call that admits a client comes late enough and leaves its readings behind. -/
theorem Admits.entry (h : a.Admits config ip server)
    (hclock : (a.readings config server).Pairwise (· ≤ ·)) :
    ∃ last, (a.apply config server).rateLimiterData ip = some last ∧
      ∀ r ∈ a.readings config server, r ≤ last ∧
        ∀ last ∈ server.rateLimiterData ip, last + config.rateLimit < r := by
  cases a with
  | remove fd => exact h.elim
  | add now refreshed fd client =>
    obtain ⟨hfree, rfl, hlimit, -⟩ := h.passed
    rw [readings_of_free hfree] at hclock ⊢
    rw [apply, ZincServer.addClient_of_free hfree]
    dsimp only
    rw [Function.update_self]
    exact ⟨_, rfl, limiterReadings_of_passed hlimit hclock⟩

/-- No reading that let a client in is later than the entry of its address. -/
def Stamped (config : ZincConfig) (past : Past ZincServer Admission) (server : ZincServer) : Prop :=
  ∀ x ∈ past, ∀ ip, x.2.Admits config ip x.1 → ∃ last, server.rateLimiterData ip = some last ∧
    ∀ r ∈ x.2.readings config x.1, r ≤ last

/-- The readings of a run in their order. -/
def clock (config : ZincConfig) (past : Past ZincServer Admission) : List ℤ :=
  past.flatMap fun x => x.2.readings config x.1

theorem clock_concat (x : ZincServer × Admission) :
    clock config (past ++ [x]) = clock config past ++ x.2.readings config x.1 := by
  simp [clock]

theorem Stamped.concat (h : Stamped config past server)
    (hclock : (clock config (past ++ [(server, a)])).Pairwise (· ≤ ·)) :
    Stamped config (past ++ [(server, a)]) (a.apply config server) := by
  rw [clock_concat, List.pairwise_append] at hclock
  obtain ⟨-, hnew, hacross⟩ := hclock
  intro x hx ip hadmits
  obtain hold | hlast := List.mem_append.mp hx
  · obtain ⟨last, hentry, hle⟩ := h x hold ip hadmits
    obtain ⟨last', hentry', rfl | hmem⟩ := apply_entry config hentry a
    · exact ⟨last', hentry', hle⟩
    · refine ⟨last', hentry', fun r hr => ?_⟩
      exact hacross r (List.mem_flatMap.mpr ⟨x, hold, hr⟩) last' hmem
  · obtain rfl := List.mem_singleton.mp hlast
    obtain ⟨last, hentry, hle⟩ := hadmits.entry hnew
    exact ⟨last, hentry, fun r hr => (hle r hr).1⟩

/-- A call that admits a client is apart from the earlier ones. -/
theorem Stamped.apart (h : Stamped config past server)
    (hclock : (a.readings config server).Pairwise (· ≤ ·)) :
    ∀ x ∈ past, Apart config x (server, a) := by
  intro x hx ip hfirst hsecond r hr r' hr'
  obtain ⟨last, hentry, hle⟩ := h x hx ip hfirst
  obtain ⟨_, -, hlate⟩ := hsecond.entry hclock
  have hlt := (hlate r' hr').2 last hentry
  have hr := hle r hr
  omega

theorem stamped_and_apart (h : AdmissionRun config past server)
    (hclock : (clock config past).Pairwise (· ≤ ·)) :
    Stamped config past server ∧ past.Pairwise (Apart config) := by
  induction h with
  | start h => exact ⟨fun x hx => absurd hx (List.not_mem_nil), .nil⟩
  | @next past server server' a h hstep ih =>
    subst hstep
    have hparts := hclock
    rw [clock_concat, List.pairwise_append] at hparts
    obtain ⟨hstamped, hapart⟩ := ih hparts.1
    refine ⟨hstamped.concat hclock, List.pairwise_append.mpr ⟨hapart, List.pairwise_singleton _ _, ?_⟩⟩
    intro x hx y hy
    obtain rfl := List.mem_singleton.mp hy
    exact hstamped.apart hparts.2.1 x hx

/-! ### The limit for accounts -/

/-- The accounts of every address are counted, and not too many are welcome. -/
structure Limited (config : ZincConfig) (server : ZincServer) : Prop extends Tallied server where
  welcome : ∀ ip, count server.clients (Welcome ip) ≤ config.maxConcurrentAccount.toNat

theorem Limited.addClient {fd : ℕ} {client : ZincConnection} (h : Limited config server) :
    Limited config (server.addClient config now refreshed fd client) := by
  refine ⟨h.toTallied.addClient, fun ip => ?_⟩
  cases hclient : server.clients fd with
  | some client' =>
    rw [ZincServer.addClient_of_connected hclient]
    exact h.welcome ip
  | none =>
    rw [ZincServer.addClient_of_free hclient]
    dsimp only
    by_cases hwelcome : Welcome ip (server.admitted config now refreshed client)
    · have hadmits : (add now refreshed fd client).Admits config ip server := by
        refine ⟨hclient, _, ?_, hwelcome⟩
        rw [ZincServer.addClient_of_free hclient]
        exact Function.update_self _ _ _
      obtain ⟨-, rfl, -, hmax⟩ := hadmits.passed
      rw [h.accounts, accountsEntry_getD] at hmax
      have hle : count server.clients (Welcome client.ip) ≤ count server.clients (IsFrom client.ip) :=
        count_mono h.finite fun _ hc => hc.1
      rw [count_insert h.finite hclient, weight_of_pos hwelcome]
      omega
    · rw [count_insert h.finite hclient, weight_of_neg hwelcome]
      exact h.welcome ip

theorem Limited.removeClient {fd : ℕ} (h : Limited config server) :
    Limited config (server.removeClient fd) := by
  refine ⟨h.toTallied.removeClient, fun ip => ?_⟩
  cases hclient : server.clients fd with
  | none =>
    rw [ZincServer.removeClient_of_free hclient]
    exact h.welcome ip
  | some client =>
    have hcount := count_erase (P := Welcome ip) h.finite hclient
    have hwelcome := h.welcome ip
    rw [ZincServer.clients_removeClient]
    omega

theorem limited_of_run (h : AdmissionRun config past server) : Limited config server := by
  induction h with
  | start h =>
    rw [h]
    exact ⟨tallied_new, fun ip => by simp [ZincServer.new]⟩
  | @next past server server' a h hstep ih =>
    rw [hstep]
    cases a with
    | add => exact ih.addClient
    | remove => exact ih.removeClient

/-- Clients of one address that will not be kicked come at most at the rate limit, and at
most so many of them are registered as it may have accounts. -/
theorem admission_controlled (h : AdmissionRun config past server)
    (hclock : (clock config past).Pairwise (· ≤ ·)) :
    past.Pairwise (Apart config) ∧
      ∀ ip, count server.clients (Welcome ip) ≤ config.maxConcurrentAccount.toNat :=
  ⟨(stamped_and_apart h hclock).2, (limited_of_run h).welcome⟩

/-- Two clients of one address five seconds apart are both admitted. -/
theorem admission_controlled_twice : ∃ past server, AdmissionRun sampleHost.config past server ∧
    past.length = 2 ∧ (∀ x ∈ past, x.2.Admits sampleHost.config [] x.1) ∧
    past.Pairwise (Apart sampleHost.config) ∧
      ∀ ip, count server.clients (Welcome ip) ≤ sampleHost.config.maxConcurrentAccount.toNat := by
  have hstart : AdmissionRun sampleHost.config [] .new := .start rfl
  have hrun := (hstart.next (a := .add 0 0 0 (waiting [])) rfl).next (a := .add 5 6 1 (waiting [])) rfl
  refine ⟨_, _, hrun, rfl, ?_, admission_controlled hrun (by decide)⟩
  intro x hx
  simp only [List.nil_append, List.cons_append, List.mem_cons, List.not_mem_nil, or_false] at hx
  obtain rfl | rfl := hx
  · exact ⟨rfl, _, rfl, rfl, rfl⟩
  · exact ⟨rfl, _, rfl, rfl, rfl⟩

end Admission

end Zinc.Network
