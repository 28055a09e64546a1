import Mathlib.Data.List.Basic
import Zinc.Base.Throw

/-! Processes under an invariant. A process answers with a result when it returns or throws it in
every state of the invariant, and leaves such a state. A process stops at a list of keys when it
throws at the first key that is absent, having changed the state at that key only, and otherwise
returns and changes nothing. A process updates by a function when it returns in every state and
leaves what the function makes of it. -/

namespace Throw.Process

variable {ε σ σ' κ α β : Type}

/-- The results of a process for the elements of a list, in their order. -/
def each (f : α → Process σ ε β) : List α → Process σ ε (List β)
  | [] => pure []
  | a :: as => do
    let b ← f a
    let bs ← each f as
    pure (b :: bs)

/-- A process for the elements of a list, in their order. -/
def forEach (f : α → Process σ ε Unit) : List α → Process σ ε Unit
  | [] => pure ()
  | a :: as => do
    f a
    forEach f as

/-- A change of the state. -/
def update (f : σ → σ) : Process σ ε Unit := fun s => (.ok (), f s)

/-- A computation from the state that leaves it. -/
def look (f : σ → Except ε α) : Process σ ε α := fun s => (f s, s)

/-- A process on a part of the state. -/
def within (part : σ → σ') (put : σ' → σ → σ) (x : Process σ' ε α) : Process σ ε α :=
  fun s => ((x (part s)).1, put (x (part s)).2 s)

/-- What a process makes of a state that nothing else sees. -/
def result (x : Process σ ε Unit) (s : σ) : Except ε σ := (x s).1.map fun _ => (x s).2

theorem look_bind {f : σ → Except ε α} {g : α → Process σ ε β} {s : σ} {a : α} (h : f s = .ok a) :
    (look f >>= g) s = g a s := by
  rw [bind_apply, show (look f s).1 = .ok a from h]
  rfl

/-! ### Answers -/

/-- The result in all states of an invariant that the process keeps. -/
def Answers (I : σ → Prop) (x : Process σ ε α) (r : Except ε α) : Prop :=
  ∀ s, I s → (x s).1 = r ∧ I (x s).2

variable {I : σ → Prop}

theorem Answers.lift (r : Except ε α) : Answers I (Process.lift r) r := fun _ h => ⟨rfl, h⟩

theorem Answers.pure (a : α) : Answers I (Pure.pure a : Process σ ε α) (.ok a) :=
  fun _ h => ⟨rfl, h⟩

theorem Answers.bind {x : Process σ ε α} {r : Except ε α} {f : α → Process σ ε β}
    {g : α → Except ε β} (hx : Answers I x r) (hf : ∀ a, Answers I (f a) (g a)) :
    Answers I (x >>= f) (r >>= g) := by
  intro s h
  obtain ⟨hr, hI⟩ := hx s h
  rw [bind_apply, hr]
  cases r with
  | ok a => exact hf a _ hI
  | error e => exact ⟨rfl, hI⟩

theorem Answers.each {f : α → Process σ ε β} {g : α → Except ε β}
    (hf : ∀ a, Answers I (f a) (g a)) (as : List α) :
    Answers I (Process.each f as) (as.mapM g) := by
  induction as with
  | nil => exact Answers.pure []
  | cons a as ih =>
    rw [List.mapM_cons]
    exact (hf a).bind fun b => ih.bind fun bs => Answers.pure (b :: bs)

/-! ### Stops -/

/-- The process comes to the keys one by one, and throws at the first that is absent. -/
def Stops (I : σ → Prop) (absent : κ → Bool) (touch : κ → σ → σ) (e : ε) (keys : List κ)
    (x : Process σ ε α) : Prop :=
  ∀ s, I s → match keys.find? absent with
    | none => ∃ a, x s = (.ok a, s)
    | some key => x s = (.error e, touch key s)

variable {absent : κ → Bool} {touch : κ → σ → σ} {e : ε}

theorem Stops.lift (a : α) : Stops I absent touch e [] (Process.lift (.ok a)) :=
  fun _ _ => ⟨a, rfl⟩

theorem Stops.pure (a : α) : Stops I absent touch e [] (Pure.pure a : Process σ ε α) :=
  fun _ _ => ⟨a, rfl⟩

theorem Stops.bind {x : Process σ ε α} {f : α → Process σ ε β} {keys keys' : List κ}
    (hx : Stops I absent touch e keys x) (hf : ∀ a, Stops I absent touch e keys' (f a)) :
    Stops I absent touch e (keys ++ keys') (x >>= f) := by
  intro s h
  have hxs := hx s h
  rw [List.find?_append, bind_apply]
  cases hkey : keys.find? absent with
  | some key =>
    rw [hkey] at hxs
    rw [hxs]
    rfl
  | none =>
    rw [hkey] at hxs
    obtain ⟨a, ha⟩ := hxs
    rw [ha]
    exact hf a s h

theorem Stops.each {f : α → Process σ ε β} {keys : α → List κ} (as : List α)
    (hf : ∀ a ∈ as, Stops I absent touch e (keys a) (f a)) :
    Stops I absent touch e (as.flatMap keys) (Process.each f as) := by
  induction as with
  | nil => exact Stops.pure []
  | cons a as ih =>
    rw [List.forall_mem_cons] at hf
    have htail : ∀ b, Stops I absent touch e (as.flatMap keys)
        (Process.each f as >>= fun bs => Pure.pure (b :: bs)) := by
      intro b
      have hpure : ∀ bs, Stops I absent touch e [] (Pure.pure (b :: bs) : Process σ ε (List β)) :=
        fun bs => Stops.pure (b :: bs)
      simpa using (ih hf.2).bind hpure
    rw [List.flatMap_cons]
    exact hf.1.bind htail

/-- It throws and changes nothing exactly when it stops at a key whose touch changes nothing. -/
theorem Stops.error_and_eq_iff {x : Process σ ε α} {keys : List κ} {s : σ}
    (hx : Stops I absent touch e keys x) (h : I s) :
    x s = (.error e, s) ↔ ∃ key, keys.find? absent = some key ∧ touch key s = s := by
  have hxs := hx s h
  cases hkey : keys.find? absent with
  | some key =>
    rw [hkey] at hxs
    rw [hxs]
    constructor
    · intro heq
      exact ⟨key, rfl, (Prod.mk.inj heq).2⟩
    · rintro ⟨_, ⟨⟩, htouch⟩
      rw [htouch]
  | none =>
    rw [hkey] at hxs
    obtain ⟨a, ha⟩ := hxs
    rw [ha]
    refine iff_of_false (fun heq => ?_) ?_
    · cases (Prod.mk.inj heq).1
    · rintro ⟨_, ⟨⟩, -⟩

/-! ### Leaving a property -/

/-- The process keeps a property of the state, whether it throws or not. -/
def Leaves (P : σ → Prop) (x : Process σ ε α) : Prop := ∀ s, P s → P (x s).2

variable {P : σ → Prop}

theorem Leaves.update {f : σ → σ} (hf : ∀ s, P s → P (f s)) :
    Leaves P (Process.update f : Process σ ε Unit) := hf

theorem Leaves.look (f : σ → Except ε α) : Leaves P (Process.look f) := fun _ h => h

theorem Leaves.bind {x : Process σ ε α} {f : α → Process σ ε β} (hx : Leaves P x)
    (hf : ∀ a, Leaves P (f a)) : Leaves P (x >>= f) := by
  intro s h
  have hs := hx s h
  rw [bind_apply]
  cases (x s).1 with
  | ok a => exact hf a _ hs
  | error e => exact hs

/-! ### Updates -/

/-- The process returns, and changes the state by a function. -/
def Updates (x : Process σ ε Unit) (f : σ → σ) : Prop := ∀ s, x s = (.ok (), f s)

theorem Updates.congr {x : Process σ ε Unit} {f g : σ → σ} (hx : Updates x f) (h : ∀ s, f s = g s) :
    Updates x g := by
  intro s
  rw [hx s, h s]

theorem Updates.pure : Updates (Pure.pure () : Process σ ε Unit) id := fun _ => rfl

theorem Updates.update (f : σ → σ) : Updates (Process.update f : Process σ ε Unit) f := fun _ => rfl

theorem Updates.bind_eq {x : Process σ ε Unit} {f : σ → σ} (hx : Updates x f)
    (y : Unit → Process σ ε α) (s : σ) : (x >>= y) s = y () (f s) := by
  rw [bind_apply, hx s]

/-- What a last part keeps. -/
theorem Updates.leaves {x : Process σ ε Unit} {f : σ → σ} (hx : Updates x f)
    {y : Unit → Process σ ε α} (hy : Leaves P (y ())) {s : σ} (h : P (f s)) : P ((x >>= y) s).2 := by
  rw [hx.bind_eq]
  exact hy _ h

theorem Updates.bind {x y : Process σ ε Unit} {f g : σ → σ} (hx : Updates x f) (hy : Updates y g) :
    Updates (x >>= fun _ => y) (g ∘ f) := by
  intro s
  rw [hx.bind_eq]
  exact hy (f s)

theorem Updates.lift_bind {r : Except ε α} {a : α} {x : α → Process σ ε Unit} {f : σ → σ}
    (hr : r = .ok a) (hx : Updates (x a) f) : Updates (Process.lift r >>= x) f := by
  rw [hr]
  exact hx

theorem Updates.within {part : σ → σ'} {put : σ' → σ → σ} {x : Process σ' ε Unit} {f : σ' → σ'}
    (hx : Updates x f) : Updates (Process.within part put x) fun s => put (f (part s)) s := by
  intro s
  rw [Process.within, hx]

theorem Updates.result {x : Process σ ε Unit} {f : σ → σ} (hx : Updates x f) (s : σ) :
    Process.result x s = .ok (f s) := by
  rw [Process.result, hx]
  rfl

end Throw.Process
