import Zinc.Base.History
import Zinc.Network.SrvCtl

/-! The server of the control port: its clients by socket, and what each is told over a whole
run. A connection starts in the state of the handshake, and the first frame that is taken leads
it to the login, which nothing leads out of; the other two states are never reached. So a
client hears an error for each input that is turned away and a success for its first frame,
and then an error for each frame whose id is not 0. What happens at other sockets plays no
role. -/

namespace Zinc.Network

open Throw History Buffer SrvCtlConnection

/-! ### The server -/

/-- `SrvCtlServer`. -/
structure SrvCtlServer where
  clients : ℕ → Option SrvCtlConnection

namespace SrvCtlServer

def new : SrvCtlServer := ⟨fun _ => none⟩

def isConnected (fd : ℕ) (server : SrvCtlServer) : Bool := (server.clients fd).isSome

def addClient (fd : ℕ) (client : SrvCtlConnection) (server : SrvCtlServer) : SrvCtlServer :=
  if server.isConnected fd then server
  else ⟨Function.update server.clients fd (some client)⟩

def removeClient (fd : ℕ) (server : SrvCtlServer) : SrvCtlServer :=
  if server.isConnected fd then ⟨Function.update server.clients fd none⟩ else server

def onAccept (fd : ℕ) (server : SrvCtlServer) : SrvCtlServer := server.addClient fd .new

/-- `onRead`, when a chunk has arrived at a socket. -/
def onRead (fd : ℕ) (chunk : Bytes) (server : SrvCtlServer) : Except Fault SrvCtlServer :=
  match server.clients fd with
  | none => .ok server
  | some connection => do
    let (_, connection) ← { connection with input := connection.input ++ chunk }.onRead
    return ⟨Function.update server.clients fd (some connection)⟩

/-- `onEvent`: the end of the stream, an error and a timeout remove the client. -/
def onEvent (fd : ℕ) (isEOF isError isTimeout : Bool) (server : SrvCtlServer) : SrvCtlServer :=
  if isEOF ∨ isError ∨ isTimeout then server.removeClient fd else server

end SrvCtlServer

inductive ControlInput
  | accept (fd : ℕ)
  | chunk (fd : ℕ) (chunk : Bytes)
  | event (fd : ℕ) (isEOF isError isTimeout : Bool)

inductive ControlStep : SrvCtlServer → ControlInput → SrvCtlServer → Prop
  /-- A socket that is accepted is not in use. -/
  | accept {server : SrvCtlServer} {fd : ℕ} (h : server.isConnected fd = false) :
    ControlStep server (.accept fd) (server.onAccept fd)
  | chunk {server server' : SrvCtlServer} {fd : ℕ} {chunk : Bytes}
    (h : server.onRead fd chunk = .ok server') : ControlStep server (.chunk fd chunk) server'
  | event (server : SrvCtlServer) (fd : ℕ) (isEOF isError isTimeout : Bool) :
    ControlStep server (.event fd isEOF isError isTimeout)
      (server.onEvent fd isEOF isError isTimeout)

abbrev ControlRun : Past SrvCtlServer ControlInput → SrvCtlServer → Prop := Run (· = .new) ControlStep

/-! ### What a client is told -/

/-- What a call finds in the input. -/
inductive Finding
  | rejected
  | taken (packetId : BitVec 32)
  deriving DecidableEq

def Finding.of (input : Bytes) : Finding :=
  if input.length < 9 ∨ input.length < frameSize input then .rejected
  else .taken (varInt ((memory input).drop 8))

/-- The calls for a client since it was accepted. -/
def session (fd : ℕ) (past : Past SrvCtlServer ControlInput) : List Finding :=
  past.foldl (fun findings x => match x.2 with
    | .accept fd' => if fd' = fd then [] else findings
    | .chunk fd' chunk =>
      if fd' = fd then findings ++ ((x.1.clients fd).map fun connection =>
        Finding.of (connection.input ++ chunk)).toList
      else findings
    | .event .. => findings) []

/-- The states of the status messages behind the first frame. -/
def laterStates (findings : List Finding) : List UInt8 :=
  (findings.filter fun finding => finding ≠ .taken 0).map fun _ => -1

/-- The states of all status messages. -/
def toldStates : List Finding → List UInt8
  | [] => []
  | .rejected :: findings => -1 :: toldStates findings
  | .taken _ :: findings => 1 :: laterStates findings

def greeted (findings : List Finding) : Bool := findings.any fun finding => finding ≠ .rejected

/-- What one more call adds. -/
def toldNext (greeted : Bool) : Finding → List UInt8
  | .rejected => [-1]
  | .taken packetId => if greeted then if packetId = 0 then [] else [-1] else [1]

theorem laterStates_concat (findings : List Finding) (finding : Finding) :
    laterStates (findings ++ [finding]) =
      laterStates findings ++ if finding = .taken 0 then [] else [-1] := by
  rw [laterStates, List.filter_append, List.map_append]
  by_cases h : finding = .taken 0
  · rw [if_pos h, List.filter_cons_of_neg (by simp [h])]
    rfl
  · rw [if_neg h, List.filter_cons_of_pos (by simpa using h)]
    rfl

theorem toldStates_concat (findings : List Finding) (finding : Finding) :
    toldStates (findings ++ [finding]) = toldStates findings ++ toldNext (greeted findings) finding := by
  induction findings with
  | nil => cases finding <;> rfl
  | cons first findings ih =>
    cases first with
    | rejected =>
      have hgreeted : greeted (.rejected :: findings) = greeted findings := by simp [greeted]
      rw [List.cons_append, toldStates, ih, hgreeted]
      rfl
    | taken packetId =>
      have hgreeted : greeted (.taken packetId :: findings) = true := by simp [greeted]
      rw [List.cons_append, toldStates, toldStates, hgreeted, laterStates_concat, List.cons_append]
      cases finding <;> simp [toldNext]

/-- A client is where its calls have led it. -/
structure SrvCtlConnection.Told (findings : List Finding) (connection : SrvCtlConnection) : Prop where
  state_eq : connection.state = if greeted findings then .login else .handshake
  output_eq : connection.output = (toldStates findings).map statusBytes

variable {findings : List Finding} {connection connection' : SrvCtlConnection} {taken : Option Bytes}

/-- The handlers tell the client about a frame. -/
theorem SrvCtlConnection.Told.switch (h : connection.Told findings) (packetId : BitVec 32) :
    ∃ connection', connection.switch packetId = .ok connection' ∧
      connection'.Told (findings ++ [.taken packetId]) := by
  have hgreeted : greeted (findings ++ [.taken packetId]) = true := by simp [greeted]
  have hstate := h.state_eq
  unfold SrvCtlConnection.switch
  simp only [sendStatus_eq]
  cases hbefore : greeted findings with
  | false =>
    rw [hbefore, if_neg Bool.false_ne_true] at hstate
    rw [hstate]
    refine ⟨_, rfl, by rw [hgreeted]; rfl, ?_⟩
    rw [toldStates_concat, hbefore, List.map_append, ← h.output_eq]
    rfl
  | true =>
    rw [hbefore, if_pos rfl] at hstate
    rw [hstate]
    by_cases hzero : packetId = 0
    · refine ⟨connection, if_pos hzero, by rw [hgreeted, hstate]; rfl, ?_⟩
      rw [toldStates_concat, hbefore, hzero, h.output_eq]
      exact congrArg _ (List.append_nil _).symm
    · refine ⟨_, if_neg hzero, by rw [hgreeted]; rfl, ?_⟩
      rw [toldStates_concat, hbefore, toldNext, if_pos rfl, if_neg hzero, List.map_append, ← h.output_eq]
      rfl

/-- A call tells the client what it found. -/
theorem SrvCtlConnection.Told.onRead (h : connection.Told findings)
    (hread : connection.onRead = .ok (taken, connection')) :
    connection'.Told (findings ++ [Finding.of connection.input]) := by
  have hmax : connection.input.length ≤ maxSize := by
    by_contra hmax
    rw [onRead_of_receive_none (if_pos (Nat.not_le.mp hmax))] at hread
    cases hread
  rw [onRead_eq hmax] at hread
  by_cases hpart : connection.input.length < 9 ∨ connection.input.length < frameSize connection.input
  · rw [if_pos hpart] at hread
    obtain ⟨-, rfl⟩ := Prod.mk.inj (Except.ok.inj hread)
    rw [Finding.of, if_pos hpart]
    refine ⟨by simpa [greeted] using h.state_eq, ?_⟩
    rw [toldStates_concat, List.map_append, ← h.output_eq]
    rfl
  · have htold : SrvCtlConnection.Told findings { connection with
        input := connection.input.drop (frameSize connection.input) } := ⟨h.state_eq, h.output_eq⟩
    obtain ⟨switched, hswitch, htold'⟩ := htold.switch (varInt ((memory connection.input).drop 8))
    rw [if_neg hpart, hswitch, ok_bind] at hread
    obtain ⟨-, rfl⟩ := Prod.mk.inj (Except.ok.inj hread)
    rwa [Finding.of, if_neg hpart]

/-! ### Runs -/

variable {past : Past SrvCtlServer ControlInput} {server server' : SrvCtlServer} {input : ControlInput}

theorem told_new : SrvCtlConnection.Told [] .new := ⟨rfl, rfl⟩

theorem SrvCtlServer.clients_removeClient (server : SrvCtlServer) (fd : ℕ) :
    (server.removeClient fd).clients = Function.update server.clients fd none := by
  unfold removeClient isConnected
  split
  · rfl
  · next h =>
    funext fd'
    by_cases hfd : fd' = fd
    · subst hfd
      simpa using h
    · rw [Function.update_of_ne hfd]

/-- A step keeps every client where its calls have led it. -/
theorem ControlStep.told (hstep : ControlStep server input server')
    (h : ∀ fd connection, server.clients fd = some connection → connection.Told (session fd past)) :
    ∀ fd connection, server'.clients fd = some connection →
      connection.Told (session fd (past ++ [(server, input)])) := by
  intro fd connection hclient
  cases hstep with
  | @accept fd' hfree =>
    have hsession : session fd (past ++ [(server, .accept fd')]) =
        if fd' = fd then [] else session fd past := by simp [session]
    rw [SrvCtlServer.onAccept, SrvCtlServer.addClient, if_neg (by simp [hfree])] at hclient
    change Function.update server.clients fd' _ fd = some connection at hclient
    rw [hsession]
    by_cases hfd : fd' = fd
    · subst hfd
      rw [Function.update_self] at hclient
      obtain rfl := Option.some.inj hclient
      rw [if_pos rfl]
      exact told_new
    · rw [Function.update_of_ne (Ne.symm hfd)] at hclient
      rw [if_neg hfd]
      exact h fd connection hclient
  | @chunk _ fd' chunk hread =>
    have hsession : session fd (past ++ [(server, .chunk fd' chunk)]) =
        if fd' = fd then session fd past ++ ((server.clients fd).map fun connection =>
          Finding.of (connection.input ++ chunk)).toList
        else session fd past := by simp [session]
    rw [hsession]
    unfold SrvCtlServer.onRead at hread
    cases hbefore : server.clients fd' with
    | none =>
      rw [hbefore] at hread
      obtain rfl := Except.ok.inj hread
      by_cases hfd : fd' = fd
      · rw [← hfd, hbefore] at hclient
        cases hclient
      · rw [if_neg hfd]
        exact h fd connection hclient
    | some before =>
      rw [hbefore] at hread
      obtain ⟨⟨taken, after⟩, hcall, hread⟩ := bind_eq_ok.mp hread
      obtain rfl := Except.ok.inj hread
      change Function.update server.clients fd' _ fd = some connection at hclient
      by_cases hfd : fd' = fd
      · subst hfd
        rw [Function.update_self] at hclient
        obtain rfl := Option.some.inj hclient
        have htold := h fd' before hbefore
        have htold' : SrvCtlConnection.Told (session fd' past)
            { before with input := before.input ++ chunk } := ⟨htold.state_eq, htold.output_eq⟩
        rw [if_pos rfl, hbefore]
        exact htold'.onRead hcall
      · rw [Function.update_of_ne (Ne.symm hfd)] at hclient
        rw [if_neg hfd]
        exact h fd connection hclient
  | event fd' isEOF isError isTimeout =>
    have hsession : session fd (past ++ [(server, .event fd' isEOF isError isTimeout)]) =
        session fd past := by simp [session]
    rw [hsession]
    apply h
    unfold SrvCtlServer.onEvent at hclient
    split at hclient
    · rw [SrvCtlServer.clients_removeClient] at hclient
      by_cases hfd : fd = fd'
      · rw [hfd, Function.update_self] at hclient
        cases hclient
      · rwa [Function.update_of_ne hfd] at hclient
    · exact hclient

theorem ControlRun.told (h : ControlRun past server) : ∀ fd connection,
    server.clients fd = some connection → connection.Told (session fd past) := by
  induction h with
  | start h =>
    subst h
    intro fd connection hclient
    cases hclient
  | next _ hstep ih => exact hstep.told ih

theorem statusBytes_inj {state state' : UInt8} (h : statusBytes state = statusBytes state') :
    state = state' := by
  have hlast := congrArg List.getLast? h
  simpa [statusBytes] using hlast

theorem laterStates_eq (findings : List Finding) : ∀ state ∈ laterStates findings, state = -1 := by
  intro state hstate
  obtain ⟨-, -, rfl⟩ := List.mem_map.mp hstate
  rfl

theorem toldStates_mem (findings : List Finding) : ∀ state ∈ toldStates findings, state = 1 ∨ state = -1 := by
  induction findings with
  | nil => simp [toldStates]
  | cons finding findings ih =>
    intro state hstate
    cases finding with
    | rejected =>
      rcases List.mem_cons.mp hstate with hfirst | hlater
      · exact .inr hfirst
      · exact ih state hlater
    | taken packetId =>
      rcases List.mem_cons.mp hstate with hfirst | hlater
      · exact .inl hfirst
      · exact .inr (laterStates_eq findings state hlater)

/-- There is one success as soon as a frame was taken. -/
theorem count_toldStates (findings : List Finding) :
    (toldStates findings).count 1 = if greeted findings then 1 else 0 := by
  induction findings with
  | nil => rfl
  | cons finding findings ih =>
    cases finding with
    | rejected =>
      have hgreeted : greeted (.rejected :: findings) = greeted findings := by simp [greeted]
      rw [toldStates, List.count_cons_of_ne (by decide), ih, hgreeted]
    | taken packetId =>
      have hgreeted : greeted (.taken packetId :: findings) = true := by simp [greeted]
      have hnone : (laterStates findings).count 1 = 0 :=
        List.count_eq_zero.mpr fun hmem => absurd (laterStates_eq findings 1 hmem) (by decide)
      rw [toldStates, List.count_cons_self, hnone, hgreeted]
      rfl

/-- In every run a client of the control port is in the state, and has heard the messages, that its own
calls since it was accepted account for: errors and one success, which it hears when it gets from the
handshake to the login. -/
theorem control_told (h : ControlRun past server) {fd : ℕ} (hclient : server.clients fd = some connection) :
    connection.Told (session fd past) ∧
      (∀ message ∈ connection.output, message = statusBytes 1 ∨ message = statusBytes (-1)) ∧
      connection.output.count (statusBytes 1) = if connection.state = .login then 1 else 0 := by
  have htold := h.told fd connection hclient
  refine ⟨htold, ?_, ?_⟩
  · intro message hmessage
    rw [htold.output_eq] at hmessage
    obtain ⟨state, hstate, rfl⟩ := List.mem_map.mp hmessage
    rcases toldStates_mem _ state hstate with rfl | rfl
    · exact .inl rfl
    · exact .inr rfl
  · have hinjective : Function.Injective statusBytes := fun _ _ => statusBytes_inj
    rw [htold.output_eq, List.count_map_of_injective _ _ hinjective, count_toldStates, htold.state_eq]
    cases greeted (session fd past) <;> rfl

/-- A server with one client. -/
def SrvCtlServer.only (connection : SrvCtlConnection) : SrvCtlServer :=
  ⟨Function.update (fun _ => none) 3 (some connection)⟩

theorem SrvCtlServer.clients_only (connection : SrvCtlConnection) :
    (only connection).clients 3 = some connection := by
  simp [only]

theorem SrvCtlServer.onRead_only {chunk : Bytes}
    (h : { connection with input := connection.input ++ chunk }.onRead = .ok (taken, connection')) :
    (only connection).onRead 3 chunk = .ok (only connection') := by
  rw [SrvCtlServer.onRead, clients_only]
  simp only [h, ok_bind, pure_eq]
  rw [only, only, Function.update_idem]

/-- A client that sends half a frame and then a whole one. -/
def briefPast : Past SrvCtlServer ControlInput :=
  [(.new, .accept 3), (.only .new, .chunk 3 (smallFrame.bytes.take 4)),
    (.only ⟨[], [statusBytes (-1)], .handshake⟩, .chunk 3 smallFrame.bytes)]

theorem session_briefPast : session 3 briefPast = [.rejected, .taken 0] := by decide +kernel

theorem briefPast_run :
    ControlRun briefPast (.only ⟨[], [statusBytes (-1), statusBytes 1], .login⟩) := by
  have hmax : ∀ bytes : Bytes, bytes.length ≤ 9 → bytes.length ≤ maxSize := by
    intro bytes h
    unfold maxSize
    omega
  have hshort : (SrvCtlConnection.mk (smallFrame.bytes.take 4) [] .handshake).onRead =
      .ok (none, ⟨[], [statusBytes (-1)], .handshake⟩) := by
    rw [onRead_eq (hmax _ (by decide)), if_pos (.inl (by decide))]
    rfl
  have hwhole : (SrvCtlConnection.mk smallFrame.bytes [statusBytes (-1)] .handshake).onRead =
      .ok (some smallFrame.bytes, ⟨[], [statusBytes (-1), statusBytes 1], .login⟩) := by
    have hsize : frameSize smallFrame.bytes = 9 := by decide +kernel
    rw [onRead_eq (hmax _ (by decide))]
    simp only [hsize, SrvCtlConnection.switch, sendStatus_eq]
    rw [if_neg (by decide)]
    rfl
  have hstart : ControlRun [] .new := .start rfl
  have haccept : ControlStep .new (.accept 3) (.only .new) := .accept rfl
  exact ((hstart.next haccept).next (.chunk (SrvCtlServer.onRead_only hshort))).next
    (.chunk (SrvCtlServer.onRead_only hwhole))

theorem control_told_brief :
    (SrvCtlConnection.mk [] [statusBytes (-1), statusBytes 1] .login).Told [.rejected, .taken 0] := by
  have h := (control_told briefPast_run (SrvCtlServer.clients_only _)).1
  rwa [session_briefPast] at h

end Zinc.Network
