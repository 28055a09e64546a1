import Zinc.Util.Memory

/-! What becomes of locked storage. Every storage that a `Lockable` owns was locked, and
the flag moves along with it; but `_unlock` makes no calls, so storage that is dropped
has been neither cleansed nor unlocked. -/

namespace Zinc.Util

open History

variable {sizeofT name : ℕ} {world world' : World} {operation : Operation} {calls : List Call}
  {lockable : Lockable} {storage : Storage} {past : Past World (Operation × List Call)}

/-! ### What should happen to storage -/

def Call.Locks (id : ℕ) (call : Call) : Prop := ∃ name bytes, call = .mlock name id bytes

def Call.cleanses (id : ℕ) : Call → Bool
  | .cleanse _ id' _ => id' = id
  | _ => false

def Call.unlocks (id : ℕ) : Call → Bool
  | .munlock _ id' _ => id' = id
  | _ => false

/-- The object owns the storage. -/
def World.Owns (world : World) (name id : ℕ) : Prop :=
  ∃ lockable storage, world.objects name = some lockable ∧ lockable.data = some storage ∧
    storage.id = id

/-- Locked storage is cleansed and unlocked once before it is given back, and only the
object that owns it does so. -/
def Proper (before : Past World Call) (world : World) : Call → Prop
  | .mlock _ _ _ => True
  | .cleanse name id _ => world.Owns name id
  | .munlock name id _ => world.Owns name id
  | .free _ id => (∃ call ∈ actions before, call.Locks id) →
      (actions before).countP (Call.cleanses id) = 1 ∧ (actions before).countP (Call.unlocks id) = 1

/-- The calls of a run, each with the objects that it found. -/
def trace (past : Past World (Operation × List Call)) : Past World Call :=
  past.flatMap fun x => x.2.2.map (Prod.mk x.1)

/-- The object whose value an operation drops or overwrites. -/
def Operation.Ends (name : ℕ) : Operation → Prop
  | .moveAssign name' other => name' = name ∧ name' ≠ other
  | .destroy name' => name' = name
  | _ => False

theorem Operation.Ends.eq {name' : ℕ} (h : operation.Ends name) (h' : operation.Ends name') :
    name = name' := by
  cases operation with
  | moveAssign => exact h.1.symm.trans h'.1
  | destroy => exact Eq.trans (Eq.symm h) h'
  | _ => exact h.elim

/-- The operation drops or overwrites locked storage. -/
def Drops (world : World) (operation : Operation) : Prop :=
  ∃ name lockable, operation.Ends name ∧ world.objects name = some lockable ∧
    lockable.data ≠ none ∧ lockable.isLocked = true

/-! ### Single operations -/

theorem unlock_eq (sizeofT name : ℕ) (lockable : Lockable) :
    lockable.unlock sizeofT name = ({ lockable with isLocked := false }, []) := by
  unfold Lockable.unlock
  cases lockable.data <;> rfl

theorem destroy_eq (sizeofT name : ℕ) (lockable : Lockable) :
    lockable.destroy sizeofT name = lockable.data.release name := by
  rw [Lockable.destroy, unlock_eq]
  rfl

theorem moveAssign_eq (sizeofT name : ℕ) (lockable other : Lockable) :
    lockable.moveAssign sizeofT name other = (other, .empty, lockable.data.release name) := by
  rw [Lockable.moveAssign, unlock_eq]
  rfl

/-- The object that a constructor makes of a new vector. -/
def constructed (world : World) (size : ℕ) (hsize : 0 < size) : Lockable :=
  ⟨some ⟨world.allocated, size, hsize⟩, true⟩

/-- All that an operation can do. -/
inductive Performs (sizeofT : ℕ) (world : World) : Operation → World → List Call → Prop
  | default {name : ℕ} (hname : world.objects name = none) :
      Performs sizeofT world (.default name) (world.set name (some .empty)) []
  | constructEmpty {name : ℕ} (hname : world.objects name = none) :
      Performs sizeofT world (.construct name 0) (world.set name (some .empty)) []
  | construct {name size : ℕ} (hname : world.objects name = none) (hsize : 0 < size) :
      Performs sizeofT world (.construct name size)
        ({ world with allocated := world.allocated + 1 }.set name
          (some (constructed world size hsize)))
        [.mlock name world.allocated (size * sizeofT)]
  | moveConstruct {name other : ℕ} {source : Lockable} (hname : world.objects name = none)
      (hother : world.objects other = some source) :
      Performs sizeofT world (.moveConstruct name other)
        ((world.set name (some source)).set other (some .empty)) []
  | selfAssign {name : ℕ} : Performs sizeofT world (.moveAssign name name) world []
  | moveAssign {name other : ℕ} {lockable source : Lockable}
      (hname : world.objects name = some lockable) (hother : world.objects other = some source)
      (hne : name ≠ other) :
      Performs sizeofT world (.moveAssign name other)
        ((world.set name (some source)).set other (some .empty)) (lockable.data.release name)
  | destroy {name : ℕ} {lockable : Lockable} (hname : world.objects name = some lockable) :
      Performs sizeofT world (.destroy name) (world.set name none) (lockable.data.release name)

theorem perform_construct_eq {size : ℕ} (hname : world.objects name = none) (hsize : 0 < size) :
    world.perform sizeofT (.construct name size) =
      some ({ world with allocated := world.allocated + 1 }.set name
        (some (constructed world size hsize)), [.mlock name world.allocated (size * sizeofT)]) := by
  simp only [World.perform, hname, World.allocate, dif_pos hsize]
  rfl

theorem performs_of_perform (h : world.perform sizeofT operation = some (world', calls)) :
    Performs sizeofT world operation world' calls := by
  cases operation with
  | default name =>
    simp only [World.perform] at h
    split at h
    next hname =>
      cases h
      exact .default hname
    · cases h
  | construct name size =>
    cases hname : world.objects name with
    | some lockable =>
      simp only [World.perform, hname] at h
      cases h
    | none =>
      obtain rfl | hsize := Nat.eq_zero_or_pos size
      · simp only [World.perform, hname] at h
        cases h
        exact .constructEmpty hname
      · rw [perform_construct_eq hname hsize] at h
        cases h
        exact .construct hname hsize
  | moveConstruct name other =>
    simp only [World.perform] at h
    split at h
    next source hname hother =>
      cases h
      exact .moveConstruct hname hother
    · cases h
  | moveAssign name other =>
    simp only [World.perform, moveAssign_eq] at h
    split at h
    next lockable source hname hother =>
      split at h
      next hself =>
        cases h
        subst hself
        exact .selfAssign
      next hne =>
        cases h
        exact .moveAssign hname hother hne
    · cases h
  | destroy name =>
    simp only [World.perform, destroy_eq] at h
    split at h
    next lockable hname =>
      cases h
      exact .destroy hname
    · cases h

/-- An operation ends an object and gives its storage back, or it ends none and locks at most. -/
theorem Performs.calls_eq (h : Performs sizeofT world operation world' calls) :
    (∃ name lockable, operation.Ends name ∧ world.objects name = some lockable ∧
      calls = lockable.data.release name) ∨
    ((∀ name, ¬ operation.Ends name) ∧ (calls = [] ∨ ∃ name id bytes, calls = [.mlock name id bytes])) := by
  cases h with
  | default | constructEmpty | moveConstruct => exact .inr ⟨fun _ => not_false, .inl rfl⟩
  | construct => exact .inr ⟨fun _ => not_false, .inr ⟨_, _, _, rfl⟩⟩
  | selfAssign => exact .inr ⟨fun _ hends => hends.2 rfl, .inl rfl⟩
  | moveAssign hname hother hne => exact .inl ⟨_, _, ⟨rfl, hne⟩, hname, rfl⟩
  | destroy hname => exact .inl ⟨_, _, rfl, hname, rfl⟩

theorem World.object_of_set {name' : ℕ} {new : Option Lockable}
    (h : (world.set name' new).objects name = some lockable) :
    world.objects name = some lockable ∨ name = name' ∧ new = some lockable := by
  change Function.update world.objects name' new name = some lockable at h
  by_cases hname : name = name'
  · rw [hname, Function.update_self] at h
    exact .inr ⟨hname, h⟩
  · rw [Function.update_of_ne hname] at h
    exact .inl h

/-- An object that owns storage behind a move was there before. -/
theorem World.object_of_move {target other : ℕ} {source : Lockable}
    (h : ((world.set target (some source)).set other (some .empty)).objects name = some lockable)
    (hother : world.objects other = some source) (hdata : lockable.data = some storage) :
    ∃ name, world.objects name = some lockable := by
  obtain hset | ⟨-, hnew⟩ := object_of_set h
  · obtain hold | ⟨-, hnew⟩ := object_of_set hset
    · exact ⟨name, hold⟩
    · cases hnew
      exact ⟨other, hother⟩
  · cases hnew
    cases hdata

/-- Storage behind an operation belonged to an object, with the same flag, or is locked by it. -/
theorem Performs.owned (h : Performs sizeofT world operation world' calls)
    (hobject : world'.objects name = some lockable) (hdata : lockable.data = some storage) :
    (∃ name, world.objects name = some lockable) ∨
      lockable.isLocked = true ∧ ∃ call ∈ calls, call.Locks storage.id := by
  cases h with
  | default | constructEmpty =>
    obtain hold | ⟨-, hnew⟩ := World.object_of_set hobject
    · exact .inl ⟨name, hold⟩
    · cases hnew
      cases hdata
  | construct hname hsize =>
    obtain hold | ⟨-, hnew⟩ := World.object_of_set hobject
    · exact .inl ⟨name, hold⟩
    · cases hnew
      cases hdata
      exact .inr ⟨rfl, _, List.mem_singleton_self _, _, _, rfl⟩
  | moveConstruct hname hother => exact .inl (World.object_of_move hobject hother hdata)
  | selfAssign => exact .inl ⟨name, hobject⟩
  | moveAssign hname hother hne => exact .inl (World.object_of_move hobject hother hdata)
  | destroy hname =>
    obtain hold | ⟨-, hnew⟩ := World.object_of_set hobject
    · exact .inl ⟨name, hold⟩
    · cases hnew

/-! ### Runs -/

@[simp] theorem trace_concat (world : World) (operation : Operation) (calls : List Call) :
    trace (past ++ [(world, operation, calls)]) = trace past ++ calls.map (Prod.mk world) := by
  simp [trace]

theorem actions_map_mk (world : World) (calls : List Call) :
    actions (calls.map (Prod.mk world)) = calls := by
  rw [actions, List.map_map]
  exact List.map_id calls

theorem actions_trace (past : Past World (Operation × List Call)) :
    actions (trace past) = (actions past).flatMap Prod.snd := by
  induction past with
  | nil => rfl
  | cons x past ih =>
    rw [trace, List.flatMap_cons, actions_append, actions_map_mk]
    change x.2.2 ++ actions (trace past) = _
    rw [ih]
    rfl

/-- Nothing was cleansed or unlocked, and owned storage was locked. -/
structure Kept (past : Past World (Operation × List Call)) (world : World) : Prop where
  silent : ∀ call ∈ actions (trace past), ∀ id, call.cleanses id = false ∧ call.unlocks id = false
  locked : ∀ name lockable storage, world.objects name = some lockable →
    lockable.data = some storage →
      lockable.isLocked = true ∧ ∃ call ∈ actions (trace past), call.Locks storage.id

/-- The calls of one operation neither cleanse nor unlock. -/
theorem perform_silent (h : world.perform sizeofT operation = some (world', calls)) :
    ∀ call ∈ calls, ∀ id, call.cleanses id = false ∧ call.unlocks id = false := by
  intro call hcall id
  obtain ⟨name, lockable, -, -, rfl⟩ | ⟨-, rfl | ⟨name, id', bytes, rfl⟩⟩ := (performs_of_perform h).calls_eq
  · cases hdata : lockable.data with
    | none =>
      rw [hdata] at hcall
      cases hcall
    | some storage =>
      rw [hdata] at hcall
      obtain rfl := List.mem_singleton.mp hcall
      exact ⟨rfl, rfl⟩
  · cases hcall
  · obtain rfl := List.mem_singleton.mp hcall
    exact ⟨rfl, rfl⟩

theorem Kept.next (h : Kept past world)
    (hstep : world.perform sizeofT operation = some (world', calls)) :
    Kept (past ++ [(world, operation, calls)]) world' := by
  have hactions : actions (trace (past ++ [(world, operation, calls)])) =
      actions (trace past) ++ calls := by
    rw [trace_concat, actions_append, actions_map_mk]
  constructor
  · rw [hactions]
    intro call hcall
    obtain hold | hnew := List.mem_append.mp hcall
    · exact h.silent call hold
    · exact perform_silent hstep call hnew
  · rw [hactions]
    intro name lockable storage hobject hdata
    obtain ⟨name', hold⟩ | ⟨hlocked, call, hcall, hlocks⟩ := (performs_of_perform hstep).owned hobject hdata
    · obtain ⟨hlocked, call, hcall, hlocks⟩ := h.locked name' lockable storage hold hdata
      exact ⟨hlocked, call, List.mem_append_left _ hcall, hlocks⟩
    · exact ⟨hlocked, call, List.mem_append_right _ hcall, hlocks⟩

theorem kept_of_run (h : LockableRun sizeofT past world) : Kept past world := by
  induction h with
  | start h =>
    rw [h]
    exact ⟨by simp [trace], fun name lockable storage hobject => by simp [World.new] at hobject⟩
  | @next past world world' a h hstep ih => exact ih.next hstep

/-- Storage that is given back was locked and is neither cleansed nor unlocked. -/
theorem Kept.not_proper_free (h : Kept past world) (hobject : world.objects name = some lockable)
    (hdata : lockable.data = some storage) :
    ¬ Proper (trace past) world (.free name storage.id) := by
  intro hproper
  obtain ⟨-, hlocks⟩ := h.locked name lockable storage hobject hdata
  obtain ⟨hcleansed, -⟩ := hproper hlocks
  have hnone : (actions (trace past)).countP (Call.cleanses storage.id) = 0 := by
    apply List.countP_eq_zero.mpr
    intro call hcall
    rw [(h.silent call hcall storage.id).1]
    exact Bool.false_ne_true
  omega

/-- One operation keeps the trace in order exactly when it drops no locked storage. -/
theorem Kept.always_iff (h : Kept past world)
    (hstep : world.perform sizeofT operation = some (world', calls)) :
    Always Proper (trace (past ++ [(world, operation, calls)])) ↔
      Always Proper (trace past) ∧ ¬ Drops world operation := by
  rw [trace_concat]
  obtain ⟨name, lockable, hends, hobject, rfl⟩ | ⟨hends, hcalls⟩ := (performs_of_perform hstep).calls_eq
  · cases hdata : lockable.data with
    | none =>
      have hkept : ¬ Drops world operation := by
        rintro ⟨name', lockable', hends', hobject', hdata', -⟩
        rw [← hends.eq hends', hobject] at hobject'
        cases hobject'
        exact hdata' hdata
      simp [SafeVector.release, hkept]
    | some storage =>
      have hdrops : Drops world operation :=
        ⟨name, lockable, hends, hobject, by simp [hdata],
          (h.locked name lockable storage hobject hdata).1⟩
      have hnot := h.not_proper_free hobject hdata
      simp [SafeVector.release, always_concat, hnot, hdrops]
  · have hkept : ¬ Drops world operation := fun ⟨name, _, hends', _⟩ => hends name hends'
    obtain rfl | ⟨name, id, bytes, rfl⟩ := hcalls
    · simp [hkept]
    · simp [always_concat, Proper, hkept]

/-- Operations that go through extend a run. -/
theorem LockableRun.performAll {operations : List Operation} (h : LockableRun sizeofT past world)
    (hall : world.performAll sizeofT operations = some (world', calls)) :
    ∃ later, LockableRun sizeofT (past ++ later) world' ∧
      (actions later).map Prod.fst = operations ∧ (actions later).flatMap Prod.snd = calls := by
  induction operations generalizing past world calls with
  | nil =>
    cases hall
    exact ⟨[], by rwa [List.append_nil], rfl, rfl⟩
  | cons operation operations ih =>
    rw [World.performAll] at hall
    obtain ⟨⟨world₁, calls₁⟩, hstep, hall⟩ := Option.bind_eq_some_iff.mp hall
    obtain ⟨⟨world₂, calls₂⟩, hrest, hall⟩ := Option.bind_eq_some_iff.mp hall
    cases hall
    obtain ⟨later, hrun, hoperations, hcalls⟩ := ih (h.next (a := (operation, calls₁)) hstep) hrest
    rw [List.append_assoc] at hrun
    refine ⟨_, hrun, ?_, ?_⟩
    · rw [actions_append, List.map_append, hoperations]
      rfl
    · rw [actions_append, List.flatMap_append, hcalls]
      simp [actions]

/-- Key material is wiped along a run exactly when no operation drops or overwrites locked
storage. -/
theorem wiped_iff (h : LockableRun sizeofT past world) :
    Always Proper (trace past) ↔ ∀ x ∈ past, ¬ Drops x.1 x.2.1 := by
  induction h with
  | start => simp [trace, always_nil]
  | @next past world world' a h hstep ih =>
    obtain ⟨operation, calls⟩ := a
    rw [(kept_of_run h).always_iff hstep, ih, List.forall_mem_append, List.forall_mem_singleton]

/-- A wrapper that gets its first key. -/
theorem wiped_iff_setKey : ∃ past world, LockableRun 64 past world ∧
    (actions past).map Prod.fst = AESWrapper.construct 0 1 ++ AESWrapper.setKey 0 2 16 ∧
    (Always Proper (trace past) ↔ ∀ x ∈ past, ¬ Drops x.1 x.2.1) := by
  have hstart : LockableRun 64 [] .new := .start rfl
  have hall : World.new.performAll 64 (AESWrapper.construct 0 1 ++ AESWrapper.setKey 0 2 16) = some _ :=
    rfl
  obtain ⟨later, hrun, hoperations, -⟩ := hstart.performAll hall
  rw [List.nil_append] at hrun
  exact ⟨later, _, hrun, hoperations, wiped_iff hrun⟩

/-- A wrapper that is made and destroyed gives its register back, which is locked. -/
theorem not_wiped : ¬ ∀ sizeofT past world, LockableRun sizeofT past world →
    Always Proper (trace past) := by
  intro h
  have hstart : LockableRun 64 [] .new := .start rfl
  have hall : World.new.performAll 64 (AESWrapper.construct 0 1 ++ AESWrapper.destroy 0 1) =
      some (_, [.mlock 1 0 1024, .free 1 0]) := rfl
  obtain ⟨later, hrun, -, hcalls⟩ := hstart.performAll hall
  have halways := h 64 _ _ hrun
  rw [List.nil_append] at halways
  rw [← actions_trace] at hcalls
  obtain ⟨⟨world₁, lock⟩, rest, htrace, rfl, hrest⟩ := List.map_eq_cons_iff.mp hcalls
  obtain ⟨⟨world₂, free⟩, rest', rfl, rfl, -⟩ := List.map_eq_cons_iff.mp hrest
  have hproper := halways [(world₁, .mlock 1 0 1024)] world₂ (.free 1 0) rest' htrace
  obtain ⟨hcleansed, -⟩ := hproper ⟨_, List.mem_singleton_self _, 1, 1024, rfl⟩
  cases hcleansed

/-! ### `AESWrapper` -/

theorem World.objects_set (name' : ℕ) (new : Option Lockable) (world : World) (name : ℕ) :
    (world.set name' new).objects name = if name = name' then new else world.objects name := by
  rw [World.set]
  exact Function.update_apply _ _ _ _

theorem perform_moveAssign_eq {other : ℕ} {source : Lockable} (hname : world.objects name = some lockable)
    (hother : world.objects other = some source) (hne : name ≠ other) :
    world.perform sizeofT (.moveAssign name other) =
      some ((world.set name (some source)).set other (some .empty), lockable.data.release name) := by
  simp only [World.perform, hname, hother, if_neg hne, moveAssign_eq]

theorem perform_destroy_eq (hname : world.objects name = some lockable) :
    world.perform sizeofT (.destroy name) = some (world.set name none, lockable.data.release name) := by
  simp only [World.perform, hname, destroy_eq]

/-- A member of a wrapper that is set gets new locked storage; the old one is given back. -/
theorem performAll_assign {member temporary size : ℕ} (hmember : world.objects member = some lockable)
    (htemporary : world.objects temporary = none) (hsize : 0 < size) :
    ∃ world', world.performAll sizeofT (AESWrapper.assign member temporary size) =
        some (world', .mlock temporary world.allocated (size * sizeofT) :: lockable.data.release member) ∧
      world'.objects member = some (constructed world size hsize) ∧
      world'.objects temporary = none := by
  have hne : member ≠ temporary := by
    rintro rfl
    rw [hmember] at htemporary
    cases htemporary
  let world₁ := { world with allocated := world.allocated + 1 }.set temporary
    (some (constructed world size hsize))
  let world₂ := (world₁.set member (some (constructed world size hsize))).set temporary (some .empty)
  have hmember₁ : world₁.objects member = some lockable := by
    rw [World.objects_set, if_neg hne]
    exact hmember
  have htemporary₁ : world₁.objects temporary = some (constructed world size hsize) := by
    rw [World.objects_set, if_pos rfl]
  have htemporary₂ : world₂.objects temporary = some .empty := by
    rw [World.objects_set, if_pos rfl]
  have hconstruct : world.perform sizeofT (.construct temporary size) =
      some (world₁, [.mlock temporary world.allocated (size * sizeofT)]) :=
    perform_construct_eq htemporary hsize
  have hassign : world₁.perform sizeofT (.moveAssign member temporary) =
      some (world₂, lockable.data.release member) := perform_moveAssign_eq hmember₁ htemporary₁ hne
  have hdestroy : world₂.perform sizeofT (.destroy temporary) = some (world₂.set temporary none, []) :=
    perform_destroy_eq htemporary₂
  refine ⟨world₂.set temporary none, ?_, ?_, ?_⟩
  · simp [AESWrapper.assign, World.performAll, hconstruct, hassign, hdestroy]
  · simp only [World.objects_set, if_neg hne, if_true, world₂]
  · rw [World.objects_set, if_pos rfl]

end Zinc.Util
