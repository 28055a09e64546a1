import Zinc.Base.History
import Zinc.Network.Server

/-! Who frees the bufferevents. A connection holds a plain pointer: `close` frees what
it points to and does not forget it, the destructor calls `close` again, and a copy of
a connection has a destructor of its own. Every bufferevent and every connection object
has the number under which it was made; a destroyed object keeps its record, which
nothing may use. -/

namespace Zinc.Network

open History Buffer

/-- `TCPConnection` as far as it owns something. -/
structure TCPConnection where
  bev : Option ℕ
  fd : ℕ

namespace TCPConnection

/-- `close`, and the destructor: the bufferevents that are freed. -/
def close (connection : TCPConnection) : List ℕ :=
  match connection.bev with
  | some bev => [bev]
  | none => []

/-- `operator==` of two connections: the right one is copied, and the copy destroyed. -/
def equals (connection other : TCPConnection) : Bool × List ℕ :=
  (connection.fd = other.fd, other.close)

end TCPConnection

/-- A `ZincConnection` on the heap. -/
structure Object where
  tcpConnection : TCPConnection
  destroyed : Bool

/-- The objects, the table of `ZincServer` and the number of objects made so far. -/
structure Objects where
  object : ℕ → Option Object
  clients : ℕ → Option ℕ
  made : ℕ

/-- What is done with connections; `compare` is `operator==` or `operator!=`. -/
inductive Use where
  | onAccept (fd : ℕ) (created : Bool)
  | removeClient (fd : ℕ)
  | compare (name other : ℕ)
  | destroy (name : ℕ)

namespace Objects

def new : Objects := ⟨fun _ => none, fun _ => none, 0⟩

/-- A connection that is not destroyed. -/
def live (objects : Objects) (name : ℕ) : Option TCPConnection :=
  match objects.object name with
  | some ⟨tcpConnection, false⟩ => some tcpConnection
  | _ => none

def addClient (fd name : ℕ) (objects : Objects) : Objects :=
  match objects.clients fd with
  | some _ => objects
  | none => { objects with clients := Function.update objects.clients fd (some name) }

/-- `onAccept` with a new bufferevent. -/
def accept (fd : ℕ) (objects : Objects) : Objects :=
  addClient fd objects.made { objects with
    object := Function.update objects.object objects.made (some ⟨⟨some objects.made, fd⟩, false⟩)
    made := objects.made + 1 }

def delete (name : ℕ) (tcpConnection : TCPConnection) (objects : Objects) : Objects :=
  { objects with object := Function.update objects.object name (some ⟨tcpConnection, true⟩) }

/-- One use, with the bufferevents that it frees; a use of a destroyed object is none. -/
def perform (objects : Objects) : Use → Option (Objects × List ℕ)
  | .onAccept fd created => some (if created then objects.accept fd else objects, [])
  | .removeClient fd =>
    match objects.clients fd with
    | none => some (objects, [])
    | some name => do
      let tcpConnection ← objects.live name
      let clients := Function.update objects.clients fd none
      some ({ objects.delete name tcpConnection with clients := clients },
        tcpConnection.close ++ tcpConnection.close)
  | .compare name other => do
    let tcpConnection ← objects.live name
    let copied ← objects.live other
    some (objects, (tcpConnection.equals copied).2)
  | .destroy name => do
    let tcpConnection ← objects.live name
    some (objects.delete name tcpConnection, tcpConnection.close)

end Objects

/-- Histories of uses, each with what it freed. -/
abbrev UseRun : Past Objects (Use × List ℕ) → Objects → Prop :=
  Run (· = .new) fun objects use objects' => objects.perform use.1 = some (objects', use.2)

/-- The calls of `bufferevent_free`. -/
def freed (past : Past Objects (Use × List ℕ)) : List ℕ := (actions past).flatMap Prod.snd

def Objects.Registered (objects : Objects) (name : ℕ) : Prop := ∃ fd, objects.clients fd = some name

/-- No bufferevent is freed twice, and none of a connection that is registered: the next
event of its socket uses it. -/
structure ReleasedOnce (past : Past Objects (Use × List ℕ)) (objects : Objects) : Prop where
  nodup : (freed past).Nodup
  registered : ∀ name object, objects.Registered name → objects.object name = some object →
    ∀ bev ∈ object.tcpConnection.bev, bev ∉ freed past

/-- The connection was the right side of a comparison. -/
def Copied (past : Past Objects (Use × List ℕ)) (name : ℕ) : Prop :=
  ∃ use ∈ actions past, ∃ left, use.1 = .compare left name

/-- No client is removed, and no connection is copied or destroyed that is registered or
was copied before. -/
def Harmless (past : Past Objects (Use × List ℕ)) (objects : Objects) : Use × List ℕ → Prop
  | (.onAccept _ _, _) => True
  | (.removeClient fd, _) => objects.clients fd = none
  | (.compare _ name, _) => ¬ objects.Registered name ∧ ¬ Copied past name
  | (.destroy name, _) => ¬ objects.Registered name ∧ ¬ Copied past name

variable {objects objects' : Objects} {past : Past Objects (Use × List ℕ)} {use : Use} {bevs : List ℕ}
  {name fd : ℕ} {object : Object} {tcpConnection : TCPConnection}

/-! ### Single uses -/

/-- All that a use can do. -/
inductive Performs (objects : Objects) : Use → Objects → List ℕ → Prop
  | refused {fd : ℕ} : Performs objects (.onAccept fd false) objects []
  | accepted {fd : ℕ} : Performs objects (.onAccept fd true) (objects.accept fd) []
  | unknown {fd : ℕ} (hclient : objects.clients fd = none) :
      Performs objects (.removeClient fd) objects []
  | removed {fd name : ℕ} {tcpConnection : TCPConnection} (hclient : objects.clients fd = some name)
      (hlive : objects.live name = some tcpConnection) :
      Performs objects (.removeClient fd)
        { objects.delete name tcpConnection with clients := Function.update objects.clients fd none }
        (tcpConnection.close ++ tcpConnection.close)
  | compared {name other : ℕ} {copied : TCPConnection} (hlive : objects.live other = some copied) :
      Performs objects (.compare name other) objects copied.close
  | destroyed {name : ℕ} {tcpConnection : TCPConnection} (hlive : objects.live name = some tcpConnection) :
      Performs objects (.destroy name) (objects.delete name tcpConnection) tcpConnection.close

theorem performs_of_perform (h : objects.perform use = some (objects', bevs)) :
    Performs objects use objects' bevs := by
  cases use with
  | onAccept fd created =>
    cases h
    cases created with
    | false => exact .refused
    | true => exact .accepted
  | removeClient fd =>
    rw [Objects.perform] at h
    split at h
    next hclient =>
      cases h
      exact .unknown hclient
    next name hclient =>
      obtain ⟨tcpConnection, hlive, h⟩ := Option.bind_eq_some_iff.mp h
      cases h
      exact .removed hclient hlive
  | compare name other =>
    obtain ⟨tcpConnection, -, h⟩ := Option.bind_eq_some_iff.mp h
    obtain ⟨copied, hlive, h⟩ := Option.bind_eq_some_iff.mp h
    cases h
    exact .compared hlive
  | destroy name =>
    obtain ⟨tcpConnection, hlive, h⟩ := Option.bind_eq_some_iff.mp h
    cases h
    exact .destroyed hlive

theorem Objects.live_eq_some :
    objects.live name = some tcpConnection ↔ objects.object name = some ⟨tcpConnection, false⟩ := by
  rw [live]
  split
  next tcp hobject => simp [hobject]
  next hobject => exact ⟨fun h => (nomatch h), fun h => absurd h (hobject tcpConnection)⟩

theorem Objects.clients_accept (objects : Objects) (fd : ℕ) :
    (∃ name, objects.clients fd = some name) ∧ (objects.accept fd).clients = objects.clients ∨
      objects.clients fd = none ∧
        (objects.accept fd).clients = Function.update objects.clients fd (some objects.made) := by
  unfold accept addClient
  split
  next name hclient => exact .inl ⟨⟨name, hclient⟩, rfl⟩
  next hclient => exact .inr ⟨hclient, rfl⟩

theorem Objects.object_accept : (objects.accept fd).object =
    Function.update objects.object objects.made (some ⟨⟨some objects.made, fd⟩, false⟩) := by
  unfold accept addClient
  split <;> rfl

theorem Objects.made_accept : (objects.accept fd).made = objects.made + 1 := by
  unfold accept addClient
  split <;> rfl

/-- Only a new connection gets registered. -/
theorem Objects.Registered.of_accept (h : (objects.accept fd).Registered name) :
    objects.Registered name ∨ name = objects.made := by
  obtain ⟨fd', h⟩ := h
  obtain ⟨-, hclients⟩ | ⟨-, hclients⟩ := objects.clients_accept fd
  · rw [hclients] at h
    exact .inl ⟨fd', h⟩
  · rw [hclients, Function.update_apply] at h
    split at h
    next => exact .inr (Option.some.inj h).symm
    next => exact .inl ⟨fd', h⟩

theorem Objects.Registered.accept (h : objects.Registered name) : (objects.accept fd).Registered name := by
  obtain ⟨fd', h⟩ := h
  refine ⟨fd', ?_⟩
  obtain ⟨-, hclients⟩ | ⟨hnone, hclients⟩ := objects.clients_accept fd
  · rw [hclients, h]
  · rw [hclients, Function.update_of_ne]
    · exact h
    · rintro rfl
      rw [hnone] at h
      cases h

/-! ### The table of the server -/

/-- The same sockets are taken. -/
def Tracks (objects : Objects) (server : ZincServer) : Prop :=
  ∀ fd, (objects.clients fd).isSome = server.isConnected fd

variable {server : ZincServer}

theorem Tracks.onAccept (h : Tracks objects server) (config : ZincConfig) (now refreshed : ℤ) (fd : ℕ)
    (ip : Bytes) (networkInfo : NetworkInfo) (settingsInfo : SettingsInfo) :
    Tracks (objects.accept fd) (server.onAccept config now refreshed fd ip networkInfo settingsInfo) := by
  intro fd'
  rw [ZincServer.onAccept, ZincServer.addClient]
  obtain ⟨⟨name, hclient⟩, hclients⟩ | ⟨hclient, hclients⟩ := objects.clients_accept fd
  · have hconnected : server.isConnected fd = true := by rw [← h fd, hclient]; rfl
    rw [hclients, if_pos hconnected]
    exact h fd'
  · have hfree : ¬ server.isConnected fd = true := by rw [← h fd, hclient]; simp
    rw [hclients, if_neg hfree]
    change _ = (Function.update server.clients fd _ fd').isSome
    rw [Function.update_apply, Function.update_apply]
    split
    · rfl
    · exact h fd'

theorem Tracks.removeClient (h : Tracks objects server)
    (hperform : objects.perform (.removeClient fd) = some (objects', bevs)) :
    Tracks objects' (server.removeClient fd) := by
  intro fd'
  have hfd := h fd
  unfold ZincServer.isConnected at hfd
  unfold ZincServer.removeClient ZincServer.isConnected
  cases performs_of_perform hperform with
  | unknown hclient =>
    rw [hclient] at hfd
    cases hserver : server.clients fd with
    | none => exact h fd'
    | some client => simp [hserver] at hfd
  | @removed _ name tcpConnection hclient hlive =>
    rw [hclient] at hfd
    cases hserver : server.clients fd with
    | none => simp [hserver] at hfd
    | some client =>
      change (Function.update objects.clients fd none fd').isSome =
        (Function.update server.clients fd none fd').isSome
      rw [Function.update_apply, Function.update_apply]
      split
      · rfl
      · exact h fd'

/-! ### Who owns what -/

@[simp] theorem freed_nil : freed [] = [] := rfl

@[simp] theorem freed_concat : freed (past ++ [(objects, use, bevs)]) = freed past ++ bevs := by
  simp [freed]

theorem copied_concat : Copied (past ++ [(objects, use, bevs)]) name ↔
    Copied past name ∨ ∃ left, use = .compare left name := by
  simp only [Copied, actions_concat, List.mem_append, List.mem_singleton, or_and_right, exists_or,
    exists_eq_left]

/-- Every connection has its own bufferevent, and a connection that lives has lost it only
to copies. -/
structure Owned (past : Past Objects (Use × List ℕ)) (objects : Objects) : Prop where
  object : ∀ name object, objects.object name = some object →
    object.tcpConnection.bev = some name ∧ name < objects.made
  client : ∀ name, objects.Registered name → ∃ object, objects.object name = some object
  freed_lt : ∀ bev ∈ freed past, bev < objects.made
  copied_lt : ∀ name, Copied past name → name < objects.made
  live : ∀ name tcpConnection, objects.live name = some tcpConnection →
    (name ∈ freed past ↔ Copied past name)

theorem Owned.bev_eq (h : Owned past objects) (hlive : objects.live name = some tcpConnection) :
    tcpConnection.bev = some name := (h.object name _ (Objects.live_eq_some.mp hlive)).1

theorem Owned.close_eq (h : Owned past objects) (hlive : objects.live name = some tcpConnection) :
    tcpConnection.close = [name] := by
  rw [TCPConnection.close, h.bev_eq hlive]

theorem Owned.lt_made (h : Owned past objects) (hlive : objects.live name = some tcpConnection) :
    name < objects.made := (h.object name _ (Objects.live_eq_some.mp hlive)).2

theorem Objects.object_delete {name' : ℕ} : (objects.delete name tcpConnection).object name' =
    if name' = name then some ⟨tcpConnection, true⟩ else objects.object name' :=
  Function.update_apply _ _ _ _

theorem Owned.accepted (h : Owned past objects) :
    Owned (past ++ [(objects, .onAccept fd true, [])]) (objects.accept fd) where
  object name object hobject := by
    rw [Objects.object_accept, Function.update_apply] at hobject
    rw [Objects.made_accept]
    split at hobject
    next hname =>
      cases hobject
      exact ⟨congrArg some hname.symm, by omega⟩
    next =>
      obtain ⟨hbev, hmade⟩ := h.object name object hobject
      exact ⟨hbev, by omega⟩
  client name hname := by
    rw [Objects.object_accept, Function.update_apply]
    split
    next => exact ⟨_, rfl⟩
    next hne => exact h.client name (hname.of_accept.resolve_right hne)
  freed_lt bev hbev := by
    rw [freed_concat, List.append_nil] at hbev
    rw [Objects.made_accept]
    exact (h.freed_lt bev hbev).trans (Nat.lt_succ_self _)
  copied_lt name hname := by
    simp only [copied_concat, reduceCtorEq, exists_false, or_false] at hname
    rw [Objects.made_accept]
    exact (h.copied_lt name hname).trans (Nat.lt_succ_self _)
  live name tcpConnection hlive := by
    rw [freed_concat, List.append_nil, copied_concat]
    rw [Objects.live_eq_some, Objects.object_accept, Function.update_apply] at hlive
    split at hlive
    next hname =>
      rw [hname]
      have hfreed : objects.made ∉ freed past := fun h' => lt_irrefl _ (h.freed_lt _ h')
      have hcopied : ¬ Copied past objects.made := fun h' => lt_irrefl _ (h.copied_lt _ h')
      simp [hfreed, hcopied]
    next => simpa using h.live name tcpConnection (Objects.live_eq_some.mpr hlive)

/-- A connection that is destroyed frees at most its own bufferevent. -/
theorem Owned.delete (h : Owned past objects) (hlive : objects.live name = some tcpConnection)
    (hobject : objects'.object = (objects.delete name tcpConnection).object)
    (hmade : objects'.made = objects.made)
    (hclients : ∀ name', objects'.Registered name' → objects.Registered name')
    (hbevs : ∀ bev ∈ bevs, bev = name) (huse : ∀ left right, use ≠ .compare left right) :
    Owned (past ++ [(objects, use, bevs)]) objects' where
  object name' object hname' := by
    rw [hobject, Objects.object_delete] at hname'
    rw [hmade]
    split at hname'
    next heq =>
      cases hname'
      rw [heq]
      exact ⟨h.bev_eq hlive, h.lt_made hlive⟩
    next => exact h.object name' object hname'
  client name' hname' := by
    rw [hobject, Objects.object_delete]
    split
    next => exact ⟨_, rfl⟩
    next => exact h.client name' (hclients name' hname')
  freed_lt bev hbev := by
    rw [freed_concat] at hbev
    rw [hmade]
    obtain hold | hnew := List.mem_append.mp hbev
    · exact h.freed_lt bev hold
    · rw [hbevs bev hnew]
      exact h.lt_made hlive
  copied_lt name' hname' := by
    simp only [copied_concat, huse, exists_false, or_false] at hname'
    rw [hmade]
    exact h.copied_lt name' hname'
  live name' tcpConnection' hlive' := by
    rw [Objects.live_eq_some, hobject, Objects.object_delete] at hlive'
    split at hlive'
    next => cases hlive'
    next hne =>
      have hbev : name' ∉ bevs := fun hmem => hne (hbevs name' hmem)
      simpa [copied_concat, huse, hbev] using h.live name' tcpConnection' (Objects.live_eq_some.mpr hlive')

theorem Owned.next (h : Owned past objects) (hstep : objects.perform use = some (objects', bevs)) :
    Owned (past ++ [(objects, use, bevs)]) objects' := by
  cases performs_of_perform hstep with
  | refused =>
    exact ⟨h.object, h.client, by simpa using h.freed_lt, by simpa [copied_concat] using h.copied_lt,
      by simpa [copied_concat] using h.live⟩
  | accepted => exact h.accepted
  | unknown =>
    exact ⟨h.object, h.client, by simpa using h.freed_lt, by simpa [copied_concat] using h.copied_lt,
      by simpa [copied_concat] using h.live⟩
  | @removed fd name tcpConnection hclient hlive =>
    refine h.delete hlive rfl rfl ?_ ?_ (fun _ _ => Use.noConfusion)
    · rintro name' ⟨fd', hname'⟩
      change Function.update objects.clients fd none fd' = some name' at hname'
      rw [Function.update_apply] at hname'
      split at hname'
      next => cases hname'
      next => exact ⟨fd', hname'⟩
    · rw [h.close_eq hlive]
      simp
  | @compared name other copied hlive =>
    rw [h.close_eq hlive]
    refine ⟨h.object, h.client, ?_, ?_, ?_⟩
    · intro bev hbev
      rw [freed_concat] at hbev
      obtain hold | hnew := List.mem_append.mp hbev
      · exact h.freed_lt bev hold
      · rw [List.mem_singleton.mp hnew]
        exact h.lt_made hlive
    · intro name' hname'
      obtain hold | ⟨left, hnew⟩ := copied_concat.mp hname'
      · exact h.copied_lt name' hold
      · cases hnew
        exact h.lt_made hlive
    · intro name' tcpConnection' hlive'
      simp [copied_concat, h.live name' tcpConnection' hlive', eq_comm]
  | destroyed hlive =>
    refine h.delete hlive rfl rfl (fun _ => id) ?_ (fun _ _ => Use.noConfusion)
    rw [h.close_eq hlive]
    simp

theorem owned_of_run (h : UseRun past objects) : Owned past objects := by
  induction h with
  | start h =>
    subst h
    refine ⟨fun name object h => (nomatch h), ?_, by simp, ?_, fun name tcpConnection h => (nomatch h)⟩
    · rintro name ⟨fd, h⟩
      cases h
    · rintro name ⟨use, h, -⟩
      cases h
  | @next past objects objects' a h hstep ih => exact ih.next hstep

/-! ### Runs -/

/-- The bufferevent of a connection has its number. -/
theorem Owned.once_iff (h : Owned past objects) : ReleasedOnce past objects ↔
    (freed past).Nodup ∧ ∀ name, objects.Registered name → name ∉ freed past := by
  constructor
  · rintro ⟨hnodup, hregistered⟩
    refine ⟨hnodup, fun name hname => ?_⟩
    obtain ⟨object, hobject⟩ := h.client name hname
    exact hregistered name object hname hobject name (h.object name object hobject).1
  · rintro ⟨hnodup, hregistered⟩
    refine ⟨hnodup, fun name object hname hobject bev hbev => ?_⟩
    rw [(h.object name object hobject).1] at hbev
    cases hbev
    exact hregistered name hname

/-- One more bufferevent is freed. -/
theorem Owned.nodup_concat_iff (h : Owned past objects) (hlive : objects.live name = some tcpConnection) :
    ((freed past ++ [name]).Nodup ∧ ∀ name', objects.Registered name' → name' ∉ freed past ++ [name]) ↔
      ReleasedOnce past objects ∧ ¬ objects.Registered name ∧ ¬ Copied past name := by
  rw [h.once_iff, ← h.live name tcpConnection hlive, ← List.concat_eq_append,
    List.nodup_concat]
  simp only [List.concat_eq_append, List.mem_append, List.mem_singleton, not_or]
  constructor
  · rintro ⟨⟨hfreed, hnodup⟩, hregistered⟩
    exact ⟨⟨hnodup, fun name' h' => (hregistered name' h').1⟩,
      fun h' => (hregistered name h').2 rfl, hfreed⟩
  · rintro ⟨⟨hnodup, hregistered⟩, hname, hfreed⟩
    refine ⟨⟨hfreed, hnodup⟩, fun name' h' => ⟨hregistered name' h', ?_⟩⟩
    rintro rfl
    exact hname h'

/-- A use keeps every bufferevent from being freed twice exactly when it is harmless. -/
theorem Owned.next_iff (h : Owned past objects) (hstep : objects.perform use = some (objects', bevs)) :
    ReleasedOnce (past ++ [(objects, use, bevs)]) objects' ↔
      ReleasedOnce past objects ∧ Harmless past objects (use, bevs) := by
  rw [(h.next hstep).once_iff, freed_concat]
  cases performs_of_perform hstep with
  | refused => simp [h.once_iff, Harmless]
  | @accepted fd =>
    rw [List.append_nil, h.once_iff]
    simp only [Harmless, and_true]
    refine and_congr_right fun _ => ⟨fun hall name hname => hall name hname.accept, ?_⟩
    intro hall name hname
    obtain hold | rfl := hname.of_accept
    · exact hall name hold
    · exact fun hfreed => lt_irrefl _ (h.freed_lt _ hfreed)
  | unknown hclient => simp [h.once_iff, Harmless, hclient]
  | @removed fd name tcpConnection hclient hlive =>
    have htwice : ¬ (freed past ++ (tcpConnection.close ++ tcpConnection.close)).Nodup := by
      rw [h.close_eq hlive]
      intro hnodup
      exact absurd hnodup.of_append_right (by simp)
    have hclosed : ¬ Harmless past objects (.removeClient fd, tcpConnection.close ++ tcpConnection.close) := by
      intro hharmless
      rw [Harmless, hclient] at hharmless
      cases hharmless
    simp only [htwice, hclosed, false_and, and_false]
  | compared hlive =>
    rw [h.close_eq hlive]
    exact h.nodup_concat_iff hlive
  | destroyed hlive =>
    rw [h.close_eq hlive]
    exact h.nodup_concat_iff hlive

/-- Along a run every bufferevent is freed at most once, and none of a registered connection,
exactly when no client is removed and no connection is copied or destroyed that is registered
or was copied before. -/
theorem releasedOnce_iff (h : UseRun past objects) :
    ReleasedOnce past objects ↔ Always Harmless past := by
  induction h with
  | start h =>
    subst h
    refine ⟨fun _ => always_nil, fun _ => ⟨List.nodup_nil, fun name object _ _ bev _ => ?_⟩⟩
    simp
  | @next past objects objects' a h hstep ih =>
    obtain ⟨use, bevs⟩ := a
    rw [(owned_of_run h).next_iff hstep, ih, always_concat]

/-- Two connections of one socket: the second is not registered, and may be destroyed. -/
theorem releasedOnce_destroy : ∃ past objects, UseRun past objects ∧
    (actions past).map Prod.fst = [.onAccept 3 true, .onAccept 3 true, .destroy 1] ∧
    freed past = [1] ∧ (ReleasedOnce past objects ↔ Always Harmless past) := by
  have h₀ : UseRun [] .new := .start rfl
  have h₁ := h₀.next (a := (.onAccept 3 true, [])) rfl
  have h₂ := h₁.next (a := (.onAccept 3 true, [])) rfl
  have h₃ := h₂.next (a := (.destroy 1, [1])) rfl
  exact ⟨_, _, h₃, rfl, rfl, releasedOnce_iff h₃⟩

/-- A client that connects and is removed: its bufferevent is freed twice. -/
theorem not_releasedOnce : ¬ ∀ past objects, UseRun past objects → ReleasedOnce past objects := by
  intro hall
  have h₀ : UseRun [] .new := .start rfl
  have h₁ := h₀.next (a := (.onAccept 3 true, [])) rfl
  have h₂ := h₁.next (a := (.removeClient 3, [0, 0])) rfl
  have hnodup : [0, 0].Nodup := (hall _ _ h₂).nodup
  simp at hnodup

end Zinc.Network
