import Zinc.Network.Session

/-! The loop that asks the session server for the player's profile. It makes all ten
attempts: one that gets the profile does not end it, and the properties that an attempt
has pushed stay when it fails. -/

namespace Zinc.Network

open Throw Buffer ZincConnection Handled

variable {host : Host} {moment : Moment} {c : ZincConnection} {data rest : ByteBuffer}
  {secret token : Bytes} {answers : ℕ → SessionAnswer} {playerInfo : PlayerInfo} {k n : ℕ}

/-! ### One attempt -/

namespace SessionAnswer

/-- The attempt gets to the end of the `try` block. -/
def Succeeds (answer : SessionAnswer) : Prop :=
  answer.playerUUID.isSome ∧ answer.playerName.isSome ∧ answer.finished

instance (answer : SessionAnswer) : Decidable answer.Succeeds := inferInstanceAs (Decidable (_ ∧ _))

/-- The properties that are pushed before the attempt ends or throws. -/
def pushed (answer : SessionAnswer) : List ZincConnectionProperty :=
  if answer.playerUUID.isSome ∧ answer.playerName.isSome then answer.properties else []

/-- The player's data are those of the answer, each property once and in order. -/
structure Fills (answer : SessionAnswer) (playerInfo : PlayerInfo) : Prop where
  playerUUID : answer.playerUUID = some playerInfo.playerUUID
  playerName : answer.playerName = some playerInfo.playerName
  properties : answer.properties = playerInfo.properties

theorem apply_properties (answer : SessionAnswer) (playerInfo : PlayerInfo) :
    (answer.apply playerInfo).1.properties = playerInfo.properties ++ answer.pushed := by
  obtain ⟨_ | uuid, _ | name, properties, finished⟩ := answer <;> simp [apply, pushed]

theorem apply_finished (answer : SessionAnswer) (playerInfo : PlayerInfo) :
    (answer.apply playerInfo).2 = true ↔ answer.Succeeds := by
  obtain ⟨_ | uuid, _ | name, properties, finished⟩ := answer <;> simp [apply, Succeeds]

/-- A success fills in everything, provided that nothing was pushed before. -/
theorem fills_apply {answer : SessionAnswer} (h : answer.Succeeds) :
    answer.Fills (answer.apply playerInfo).1 ↔ playerInfo.properties = [] := by
  obtain ⟨_ | uuid, _ | name, properties, finished⟩ := answer
  case some.some =>
    constructor
    · intro hfills
      simpa [apply] using hfills.properties
    · intro hempty
      exact ⟨rfl, rfl, by simp [apply, hempty]⟩
  all_goals simp [Succeeds] at h

end SessionAnswer

/-! ### The loop -/

/-- The variables of the loop, and the attempts made so far. -/
structure SessionLoop where
  playerInfo : PlayerInfo
  gotData : Bool
  requests : List ℕ

namespace SessionLoop

/-- One turn: the flag is set at the end of the `try` block, and the loop goes on. -/
def attempt (answers : ℕ → SessionAnswer) (loop : SessionLoop) (i : ℕ) : SessionLoop :=
  let (playerInfo, finished) := (answers i).apply loop.playerInfo
  ⟨playerInfo, loop.gotData || finished, loop.requests ++ [i]⟩

/-- The first `n` turns. -/
def turns (answers : ℕ → SessionAnswer) (playerInfo : PlayerInfo) (n : ℕ) : SessionLoop :=
  (List.range n).foldl (attempt answers) ⟨playerInfo, false, []⟩

theorem turns_succ (answers : ℕ → SessionAnswer) (playerInfo : PlayerInfo) (n : ℕ) :
    turns answers playerInfo (n + 1) = attempt answers (turns answers playerInfo n) n := by
  rw [turns, turns, List.range_succ, List.foldl_append]
  rfl

/-- Every turn makes a request. -/
theorem turns_requests (answers : ℕ → SessionAnswer) (playerInfo : PlayerInfo) (n : ℕ) :
    (turns answers playerInfo n).requests = List.range n := by
  induction n with
  | zero => rfl
  | succ n ih => rw [turns_succ, attempt, ih, List.range_succ]

theorem turns_gotData (answers : ℕ → SessionAnswer) (playerInfo : PlayerInfo) (n : ℕ) :
    (turns answers playerInfo n).gotData = true ↔ ∃ i < n, (answers i).Succeeds := by
  induction n with
  | zero => simp [turns]
  | succ n ih =>
    rw [turns_succ, attempt]
    simp only [Bool.or_eq_true, ih, SessionAnswer.apply_finished, Nat.lt_succ_iff_lt_or_eq]
    constructor
    · rintro (⟨i, hi, hsucceeds⟩ | hsucceeds)
      · exact ⟨i, .inl hi, hsucceeds⟩
      · exact ⟨n, .inr rfl, hsucceeds⟩
    · rintro ⟨i, hi | rfl, hsucceeds⟩
      · exact .inl ⟨i, hi, hsucceeds⟩
      · exact .inr hsucceeds

/-- The properties of all turns pile up. -/
theorem turns_properties (answers : ℕ → SessionAnswer) (playerInfo : PlayerInfo) (n : ℕ) :
    (turns answers playerInfo n).playerInfo.properties =
      playerInfo.properties ++ (List.range n).flatMap fun i => (answers i).pushed := by
  induction n with
  | zero => simp [turns]
  | succ n ih =>
    rw [turns_succ, attempt]
    simp only [SessionAnswer.apply_properties, ih, List.range_succ, List.flatMap_append,
      List.flatMap_singleton, List.append_assoc]

theorem turns_properties_eq_nil :
    (turns answers playerInfo n).playerInfo.properties = [] ↔
      playerInfo.properties = [] ∧ ∀ i < n, (answers i).pushed = [] := by
  simp [turns_properties]

theorem turns_properties_eq_self :
    (turns answers playerInfo n).playerInfo.properties = playerInfo.properties ↔
      ∀ i < n, (answers i).pushed = [] := by
  simp [turns_properties]

end SessionLoop

open SessionLoop

theorem lookup_eq_turns (answers : ℕ → SessionAnswer) (playerInfo : PlayerInfo) :
    lookup answers playerInfo =
      ((turns answers playerInfo 10).playerInfo, (turns answers playerInfo 10).gotData) :=
  rfl

/-! ### The handler around the loop -/

/-- The answers for a response with a shared secret. -/
def sessionAnswers (host : Host) (moment : Moment) (c : ZincConnection) (secret : Bytes) :
    ℕ → SessionAnswer :=
  moment.session c.playerInfo.playerName (RSAWrapper.decrypt host secret)

/-- The loop of the handler. -/
def sessionLoop (host : Host) (moment : Moment) (c : ZincConnection) (secret : Bytes) :
    SessionLoop :=
  turns (sessionAnswers host moment c secret) c.playerInfo 10

/-- The connection behind the loop. -/
def lookedUp (host : Host) (moment : Moment) (c : ZincConnection) (secret : Bytes) :
    ZincConnection :=
  { ({ c with networkInfo := { c.networkInfo with verifyToken := [] } }).setupEncryption
      (RSAWrapper.decrypt host secret) with
    playerInfo := (sessionLoop host moment c secret).playerInfo }

/-- The login goes on with the player's data. -/
def loginGoesOn (host : Host) (moment : Moment) (connection : ZincConnection) :
    Except Fault Handled := do
  let connection ← sendInitial host moment .login connection
  done (sendLoginSuccess host connection)

/-- The login is refused. -/
def loginRefused (host : Host) (connection : ZincConnection) : Except Fault Handled :=
  leave (connection.sendLoginError host "Server is unable to access mojang session servers")

theorem encryptionResponse_eq_sessionLoop (hread : readResponse data = .ok ((secret, token), rest))
    (htoken : RSAWrapper.decrypt host token = c.networkInfo.verifyToken)
    (honline : host.config.onlineMode = true) :
    encryptionResponse host moment data c =
      if (sessionLoop host moment c secret).gotData then
        loginGoesOn host moment (lookedUp host moment c secret)
      else loginRefused host (lookedUp host moment c secret) := by
  rw [encryptionResponse, hread, ok_bind]
  simp only [htoken, honline, if_true]
  rfl

/-! ### What the retry is for -/

/-- The first of the ten attempts that succeeds. -/
structure FirstSuccess (answers : ℕ → SessionAnswer) (k : ℕ) : Prop where
  lt : k < 10
  succeeds : (answers k).Succeeds
  first : ∀ i < k, ¬ (answers i).Succeeds

theorem exists_firstSuccess (h : ∃ i < 10, (answers i).Succeeds) :
    ∃ k, FirstSuccess answers k := by
  have hfind := Nat.find_spec h
  refine ⟨Nat.find h, hfind.1, hfind.2, fun i hi hsucceeds => ?_⟩
  exact Nat.find_min h hi ⟨hi.trans hfind.1, hsucceeds⟩

/-- The login goes on with the first profile that comes, for which no other is asked; if
none comes, the login is refused and the properties are left alone. -/
structure Retries (host : Host) (moment : Moment) (c : ZincConnection) (data : ByteBuffer)
    (secret : Bytes) : Prop where
  fills : ∀ k, FirstSuccess (sessionAnswers host moment c secret) k →
    (sessionAnswers host moment c secret k).Fills (lookedUp host moment c secret).playerInfo ∧
      encryptionResponse host moment data c =
        loginGoesOn host moment (lookedUp host moment c secret)
  stops : ∀ k, FirstSuccess (sessionAnswers host moment c secret) k →
    (sessionLoop host moment c secret).requests = List.range (k + 1)
  refuses : (∀ k < 10, ¬ (sessionAnswers host moment c secret k).Succeeds) →
    encryptionResponse host moment data c = loginRefused host (lookedUp host moment c secret) ∧
      (lookedUp host moment c secret).playerInfo.properties = c.playerInfo.properties

/-- A success can only be the last attempt of a connection without properties, and no
attempt that fails has pushed a property. -/
structure Clean (answers : ℕ → SessionAnswer) (playerInfo : PlayerInfo) : Prop where
  last : ∀ k, FirstSuccess answers k → k = 9 ∧ playerInfo.properties = []
  pushed : ∀ i < 10, ¬ (answers i).Succeeds → (answers i).pushed = []

/-- The last attempt fills in its profile if nothing was there before it. -/
theorem fills_turns_ten (h : (answers 9).Succeeds) :
    (answers 9).Fills (turns answers playerInfo 10).playerInfo ↔
      playerInfo.properties = [] ∧ ∀ i < 9, (answers i).pushed = [] := by
  rw [turns_succ, ← turns_properties_eq_nil (n := 9)]
  exact SessionAnswer.fills_apply h

theorem Retries.clean (h : Retries host moment c data secret) :
    Clean (sessionAnswers host moment c secret) c.playerInfo := by
  have hlast : ∀ k, FirstSuccess (sessionAnswers host moment c secret) k → k = 9 := by
    intro k hk
    have hrequests := h.stops k hk
    rw [sessionLoop, turns_requests] at hrequests
    have hlength := congrArg List.length hrequests
    simp only [List.length_range] at hlength
    omega
  have hfills : ∀ k, FirstSuccess (sessionAnswers host moment c secret) k →
      c.playerInfo.properties = [] ∧
        ∀ i < 9, (sessionAnswers host moment c secret i).pushed = [] := by
    intro k hk
    obtain rfl := hlast k hk
    exact (fills_turns_ten hk.succeeds).mp (h.fills 9 hk).1
  refine ⟨fun k hk => ⟨hlast k hk, (hfills k hk).1⟩, fun i hi hfails => ?_⟩
  by_cases hsome : ∃ i < 10, (sessionAnswers host moment c secret i).Succeeds
  · obtain ⟨k, hk⟩ := exists_firstSuccess hsome
    obtain rfl := hlast k hk
    have hne : i ≠ 9 := by
      rintro rfl
      exact hfails hk.succeeds
    exact (hfills 9 hk).2 i (by omega)
  · have hnone : ∀ k < 10, ¬ (sessionAnswers host moment c secret k).Succeeds :=
      fun k hk hsucceeds => hsome ⟨k, hk, hsucceeds⟩
    exact turns_properties_eq_self.mp (h.refuses hnone).2 i hi

theorem Clean.retries (hread : readResponse data = .ok ((secret, token), rest))
    (htoken : RSAWrapper.decrypt host token = c.networkInfo.verifyToken)
    (honline : host.config.onlineMode = true)
    (h : Clean (sessionAnswers host moment c secret) c.playerInfo) :
    Retries host moment c data secret where
  fills k hk := by
    obtain ⟨rfl, hempty⟩ := h.last k hk
    have hgot : (sessionLoop host moment c secret).gotData = true :=
      (turns_gotData _ _ _).mpr ⟨9, hk.lt, hk.succeeds⟩
    rw [encryptionResponse_eq_sessionLoop hread htoken honline, if_pos hgot]
    refine ⟨(fills_turns_ten hk.succeeds).mpr ⟨hempty, fun i hi => ?_⟩, rfl⟩
    exact h.pushed i (by omega) (hk.first i hi)
  stops k hk := by
    obtain ⟨rfl, -⟩ := h.last k hk
    exact turns_requests _ _ _
  refuses hnone := by
    have hgot : ¬ (sessionLoop host moment c secret).gotData = true := by
      intro hgot
      obtain ⟨i, hi, hsucceeds⟩ := (turns_gotData _ _ _).mp hgot
      exact hnone i hi hsucceeds
    rw [encryptionResponse_eq_sessionLoop hread htoken honline, if_neg hgot]
    exact ⟨rfl, turns_properties_eq_self.mpr fun i hi => h.pushed i hi (hnone i hi)⟩

/-- The retry does what it is for exactly if no attempt follows a success and no failed
attempt has pushed a property. -/
theorem retries_iff (hread : readResponse data = .ok ((secret, token), rest))
    (htoken : RSAWrapper.decrypt host token = c.networkInfo.verifyToken)
    (honline : host.config.onlineMode = true) :
    Retries host moment c data secret ↔
      Clean (sessionAnswers host moment c secret) c.playerInfo :=
  ⟨Retries.clean, Clean.retries hread htoken honline⟩

/-! ### Sample session servers -/

def onlineHost : Host :=
  { sampleHost with config := { sampleHost.config with onlineMode := true } }

def sampleProfile : SessionAnswer := ⟨some nilUUID, some [65], [⟨[116], [118], none⟩], true⟩

/-- The session server that refuses nine times. -/
def patientMoment : Moment :=
  { sampleMoment [] with
    session := fun _ _ i => if i = 9 then sampleProfile else ⟨none, none, [], false⟩ }

/-- The session server that answers at once. -/
def promptMoment : Moment := { sampleMoment [] with session := fun _ _ _ => sampleProfile }

/-- A response whose secret and token are empty. -/
def emptyResponse : ByteBuffer := (packetOfValues 1 (responseValues [] [])).data

theorem readResponse_emptyResponse :
    ∃ rest, readResponse emptyResponse = .ok (([], []), rest) :=
  response_packetOfValues 1 (by decide) (by decide)

theorem retries_iff_patient :
    Retries onlineHost patientMoment (waiting []) emptyResponse [] := by
  obtain ⟨rest, hread⟩ := readResponse_emptyResponse
  refine (retries_iff hread rfl rfl).mpr ⟨fun k hk => ?_, fun i _ hfails => ?_⟩
  · refine ⟨?_, rfl⟩
    by_contra hne
    have hsucceeds := hk.succeeds
    simp [sessionAnswers, patientMoment, hne, SessionAnswer.Succeeds] at hsucceeds
  · have hne : i ≠ 9 := by
      rintro rfl
      exact hfails (by decide)
    simp [sessionAnswers, patientMoment, hne, SessionAnswer.pushed]

/-- A server that answers at once is asked ten times, and each answer adds its property. -/
theorem not_retries : ¬ ∀ host moment c data secret token rest,
    readResponse data = .ok ((secret, token), rest) →
    RSAWrapper.decrypt host token = c.networkInfo.verifyToken → host.config.onlineMode = true →
    Retries host moment c data secret := by
  intro h
  obtain ⟨rest, hread⟩ := readResponse_emptyResponse
  have hretries := h onlineHost promptMoment (waiting []) _ [] [] rest hread rfl rfl
  have hfirst : FirstSuccess (sessionAnswers onlineHost promptMoment (waiting []) []) 0 :=
    ⟨by decide, by decide, by simp⟩
  exact absurd (hretries.fills 0 hfirst).1.properties (by decide)

end Zinc.Network
