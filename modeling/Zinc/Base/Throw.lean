import Mathlib.Data.Nat.Notation
import Mathlib.Logic.Basic

/-! Computations that may throw, and computations that may throw over a state.
The state of a computation is read through a view, a relation to the symbols
still in front of it. A computation consumes a word with a result when, at every
state whose view begins with the word, it returns the result and leaves a state
whose view begins right behind the word. Consumption is closed under sequencing
and repetition, so a reader is specified piece by piece in the order in which it
is written. Production is the dual notion for computations that append to the
view. A process is a computation that keeps its state when it throws. -/

namespace Throw

variable {ε σ τ α β : Type}

@[simp] theorem ok_bind (a : α) (f : α → Except ε β) : (Except.ok a >>= f) = f a := rfl

@[simp] theorem error_bind (e : ε) (f : α → Except ε β) : (Except.error e >>= f) = .error e := rfl

@[simp] theorem pure_eq (a : α) : (pure a : Except ε α) = .ok a := rfl

@[simp] theorem throw_eq (e : ε) : (throw e : Except ε α) = .error e := rfl

theorem bind_eq_ok {x : Except ε α} {f : α → Except ε β} {b : β} :
    (x >>= f) = .ok b ↔ ∃ a, x = .ok a ∧ f a = .ok b := by
  cases x <;> simp

/-- The result, if there is one, has the property. -/
def Returns (P : α → Prop) (x : Except ε α) : Prop := ∀ a, x = .ok a → P a

theorem Returns.ok {P : α → Prop} {a : α} (h : P a) : Returns P (.ok a : Except ε α) := by
  rintro _ ⟨⟩
  exact h

theorem Returns.bind {P : α → Prop} {Q : β → Prop} {x : Except ε α} {f : α → Except ε β}
    (hx : Returns P x) (hf : ∀ a, P a → Returns Q (f a)) : Returns Q (x >>= f) := by
  intro b h
  obtain ⟨a, ha, hb⟩ := bind_eq_ok.mp h
  exact hf a (hx a ha) b hb

/-- Nothing needs to be known of the first result. -/
theorem Returns.of_bind {Q : β → Prop} {x : Except ε α} {f : α → Except ε β}
    (hf : ∀ a, Returns Q (f a)) : Returns Q (x >>= f) :=
  Returns.bind (P := fun _ => True) (fun _ _ => trivial) fun a _ => hf a

/-- Computations over a state `σ` that may throw. -/
abbrev Action (σ ε α : Type) := StateT σ (Except ε) α

theorem bind_apply (x : Action σ ε α) (f : α → Action σ ε β) (s : σ) :
    (x >>= f) s = (x s >>= fun p => f p.1 p.2) := rfl

/-- What follows a computation that returns. -/
theorem bind_of_eq_ok {x : Action σ ε α} {f : α → Action σ ε β} {s s' : σ} {a : α}
    (h : x s = .ok (a, s')) : (x >>= f) s = f a s' := by
  rw [bind_apply, h, ok_bind]

/-- Repeat a computation and collect the results. -/
def replicate (x : Action σ ε α) : ℕ → Action σ ε (List α)
  | 0 => pure []
  | n + 1 => do
    let a ← x
    let as ← replicate x n
    pure (a :: as)

theorem length_of_replicate {x : Action σ ε α} {n : ℕ} {s s' : σ} {as : List α}
    (h : replicate x n s = .ok (as, s')) : as.length = n := by
  induction n generalizing s as with
  | zero =>
    cases h
    rfl
  | succ n ih =>
    obtain ⟨⟨a, s₁⟩, -, h₁⟩ := bind_eq_ok.mp h
    obtain ⟨⟨as', s₂⟩, h₂, h₃⟩ := bind_eq_ok.mp h₁
    cases h₃
    rw [List.length_cons, ih h₂]

/-- Repeating what leaves the state. -/
theorem replicate_of_eq_ok {x : Action σ ε α} {s : σ} {a : α} (h : x s = .ok (a, s)) (n : ℕ) :
    replicate x n s = .ok (List.replicate n a, s) := by
  induction n with
  | zero => rfl
  | succ n ih =>
    rw [replicate, bind_of_eq_ok h, bind_of_eq_ok ih]
    rfl

/-- `x` reads the word `w` and returns `a`. -/
def Consumes (view : σ → List τ → Prop) (x : Action σ ε α) (w : List τ) (a : α) : Prop :=
  ∀ s rest, view s (w ++ rest) → ∃ s', x s = .ok (a, s') ∧ view s' rest

variable {view : σ → List τ → Prop}

theorem Consumes.pure (a : α) : Consumes view (Pure.pure a : Action σ ε α) [] a :=
  fun s _ h => ⟨s, rfl, h⟩

theorem Consumes.bind {x : Action σ ε α} {f : α → Action σ ε β} {v w : List τ} {a : α} {b : β}
    (hx : Consumes view x v a) (hf : Consumes view (f a) w b) :
    Consumes view (x >>= f) (v ++ w) b := by
  intro s rest h
  rw [List.append_assoc] at h
  obtain ⟨s₁, h₁, hv₁⟩ := hx s (w ++ rest) h
  obtain ⟨s₂, h₂, hv₂⟩ := hf s₁ rest hv₁
  exact ⟨s₂, by rw [bind_of_eq_ok h₁, h₂], hv₂⟩

/-- A last computation that reads nothing more. -/
theorem Consumes.bind_pure {x : Action σ ε α} {w : List τ} {a : α} (f : α → β)
    (hx : Consumes view x w a) : Consumes view (x >>= fun a => Pure.pure (f a)) w (f a) := by
  have h := hx.bind (f := fun a => Pure.pure (f a)) (Consumes.pure (f a))
  simpa using h

/-- Repetition reads what a list of things encodes to and returns what they decode to. -/
theorem Consumes.replicate_map {γ : Type} {x : Action σ ε α} (enc : γ → List τ) (dec : γ → α)
    (cs : List γ) (h : ∀ c ∈ cs, Consumes view x (enc c) (dec c)) :
    Consumes view (Throw.replicate x cs.length) (cs.flatMap enc) (cs.map dec) := by
  induction cs with
  | nil => exact Consumes.pure []
  | cons c cs ih =>
    have ht := ih fun b hb => h b (List.mem_cons_of_mem c hb)
    exact (h c List.mem_cons_self).bind (ht.bind_pure (dec c :: ·))

theorem Consumes.replicate {x : Action σ ε α} (enc : α → List τ) (as : List α)
    (h : ∀ a ∈ as, Consumes view x (enc a) a) :
    Consumes view (Throw.replicate x as.length) (as.flatMap enc) as := by
  have hmap := Consumes.replicate_map enc id as h
  rwa [List.map_id] at hmap

/-- `x` appends the word `w`. -/
def Produces (view : σ → List τ → Prop) (x : Action σ ε Unit) (w : List τ) : Prop :=
  ∀ s v, view s v → ∃ s', x s = .ok ((), s') ∧ view s' (v ++ w)

theorem Produces.pure : Produces view (Pure.pure () : Action σ ε Unit) [] :=
  fun s v h => ⟨s, rfl, by rwa [List.append_nil]⟩

theorem Produces.bind {x y : Action σ ε Unit} {v w : List τ} (hx : Produces view x v)
    (hy : Produces view y w) : Produces view (x >>= fun _ => y) (v ++ w) := by
  intro s u h
  obtain ⟨s₁, h₁, hv₁⟩ := hx s u h
  obtain ⟨s₂, h₂, hv₂⟩ := hy s₁ (u ++ v) hv₁
  exact ⟨s₂, by rw [bind_of_eq_ok h₁, h₂], by rwa [← List.append_assoc]⟩

/-- Write the elements of a list in order. -/
def forEach (f : α → Action σ ε Unit) : List α → Action σ ε Unit
  | [] => pure ()
  | a :: as => do
    f a
    forEach f as

theorem forEach_append (f : α → Action σ ε Unit) (as as' : List α) :
    forEach f (as ++ as') = (forEach f as >>= fun _ => forEach f as') := by
  induction as with
  | nil => exact (pure_bind _ _).symm
  | cons a as ih => rw [List.cons_append, forEach, ih, forEach, bind_assoc]

theorem Produces.forEach {f : α → Action σ ε Unit} (enc : α → List τ) (as : List α)
    (h : ∀ a ∈ as, Produces view (f a) (enc a)) :
    Produces view (Throw.forEach f as) (as.flatMap enc) := by
  induction as with
  | nil => exact Produces.pure
  | cons a as ih =>
    exact (h a List.mem_cons_self).bind (ih fun b hb => h b (List.mem_cons_of_mem a hb))

/-- Computations that keep their state when they throw. -/
abbrev Process (σ ε α : Type) := ExceptT ε (StateM σ) α

/-- A computation that does not touch the state. -/
def Process.lift (x : Except ε α) : Process σ ε α := fun s => (x, s)

@[simp] theorem Process.pure_apply (a : α) (s : σ) : (Pure.pure a : Process σ ε α) s = (.ok a, s) := rfl

theorem Process.bind_apply (x : Process σ ε α) (f : α → Process σ ε β) (s : σ) :
    (x >>= f) s = match (x s).1 with
      | .ok a => f a (x s).2
      | .error e => (.error e, (x s).2) := by
  change (match (x s).1 with
    | .ok a => f a
    | .error e => fun s' => (.error e, s')) (x s).2 = _
  cases (x s).1 <;> rfl

/-- The result of a sequence, and the state that its first part leaves to the second. -/
theorem Process.bind_fst (x : Process σ ε α) (f : α → Process σ ε β) (s : σ) :
    ((x >>= f) s).1 = (x s).1 >>= fun a => (f a (x s).2).1 := by
  rw [bind_apply]
  cases (x s).1 <;> rfl

/-- A last computation that only changes the result. -/
theorem Process.bind_pure_snd (x : Process σ ε α) (f : α → β) (s : σ) :
    ((x >>= fun a => Pure.pure (f a)) s).2 = (x s).2 := by
  rw [bind_apply]
  cases (x s).1 <;> rfl

@[simp] theorem Process.lift_ok_bind (a : α) (f : α → Process σ ε β) (s : σ) :
    (Process.lift (.ok a) >>= f) s = f a s := rfl

@[simp] theorem Process.lift_error_bind (e : ε) (f : α → Process σ ε β) (s : σ) :
    (Process.lift (.error e) >>= f) s = (.error e, s) := rfl

/-! ### Bounds on a recursion -/

/-- One bound for finitely many things. -/
theorem exists_bound {P : α → ℕ → Prop} (as : List α)
    (h : ∀ a ∈ as, ∃ bound, ∀ n ≥ bound, P a n) : ∃ bound, ∀ a ∈ as, ∀ n ≥ bound, P a n := by
  induction as with
  | nil => exact ⟨0, fun a ha => absurd ha List.not_mem_nil⟩
  | cons a as ih =>
    rcases h a List.mem_cons_self with ⟨bound, hbound⟩
    rcases ih fun b hb => h b (List.mem_cons_of_mem a hb) with ⟨bound', hbound'⟩
    refine ⟨max bound bound', fun b hb n hn => ?_⟩
    rcases List.mem_cons.mp hb with rfl | hb
    · exact hbound n (Nat.le_trans (Nat.le_max_left _ _) hn)
    · exact hbound' b hb n (Nat.le_trans (Nat.le_max_right _ _) hn)

end Throw
