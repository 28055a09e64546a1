import Zinc.Base.Throw

/-! Computations that may throw and report calls on the way. The calls made
before a throw stay in the trace, so a property of all calls is a property of
runs that throw as well. -/

namespace Throw

structure Traced (κ ε α : Type) where
  trace : List κ
  result : Except ε α

namespace Traced

variable {κ ε α β : Type}

instance : Monad (Traced κ ε) where
  pure a := ⟨[], .ok a⟩
  bind x f :=
    match x.result with
    | .ok a => ⟨x.trace ++ (f a).trace, (f a).result⟩
    | .error e => ⟨x.trace, .error e⟩

/-- A computation without calls. -/
def lift (x : Except ε α) : Traced κ ε α := ⟨[], x⟩

/-- Report a call, then compute. -/
def call (k : κ) (x : Except ε α) : Traced κ ε α := ⟨[k], x⟩

@[simp] theorem pure_eq_mk (a : α) : (pure a : Traced κ ε α) = ⟨[], .ok a⟩ := rfl

@[simp] theorem lift_ok_bind (a : α) (f : α → Traced κ ε β) :
    (lift (.ok a) >>= f) = f a := rfl

@[simp] theorem lift_error_bind (e : ε) (f : α → Traced κ ε β) :
    (lift (.error e) >>= f) = ⟨[], .error e⟩ := rfl

@[simp] theorem call_ok_bind (k : κ) (a : α) (f : α → Traced κ ε β) :
    (call k (.ok a) >>= f) = ⟨k :: (f a).trace, (f a).result⟩ := rfl

@[simp] theorem call_error_bind (k : κ) (e : ε) (f : α → Traced κ ε β) :
    (call k (.error e) >>= f) = ⟨[k], .error e⟩ := rfl

@[simp] theorem result_lift (x : Except ε α) : (lift x : Traced κ ε α).result = x := rfl

@[simp] theorem result_call (k : κ) (x : Except ε α) : (call k x).result = x := rfl

theorem result_bind (x : Traced κ ε α) (f : α → Traced κ ε β) :
    (x >>= f).result = (x.result >>= fun a => (f a).result) := by
  obtain ⟨t, r⟩ := x
  cases r <;> rfl

/-- Every call of the computation has the property. -/
def AllCalls (P : κ → Prop) (x : Traced κ ε α) : Prop := ∀ k ∈ x.trace, P k

variable {P : κ → Prop}

@[simp] theorem allCalls_pure (a : α) : AllCalls P (pure a : Traced κ ε α) := by
  simp [AllCalls]

@[simp] theorem allCalls_lift (x : Except ε α) : AllCalls P (lift x : Traced κ ε α) := by
  simp [AllCalls, lift]

@[simp] theorem allCalls_call (k : κ) (x : Except ε α) :
    AllCalls P (call k x : Traced κ ε α) ↔ P k := by
  simp [AllCalls, call]

theorem allCalls_bind (x : Traced κ ε α) (f : α → Traced κ ε β) :
    AllCalls P (x >>= f) ↔ AllCalls P x ∧ ∀ a, x.result = .ok a → AllCalls P (f a) := by
  obtain ⟨t, r⟩ := x
  cases r with
  | ok a =>
    simp only [AllCalls, bind, List.mem_append, Except.ok.injEq, forall_eq']
    exact ⟨fun h => ⟨fun k hk => h k (.inl hk), fun k hk => h k (.inr hk)⟩,
      fun h k hk => hk.elim (h.1 k) (h.2 k)⟩
  | error e => simp [AllCalls, bind]

theorem allCalls_call_ok_bind (k : κ) (a : α) (f : α → Traced κ ε β) :
    AllCalls P (call k (.ok a) >>= f) ↔ P k ∧ AllCalls P (f a) := by
  simp [AllCalls]

/-- What follows a computation has no calls. -/
theorem allCalls_bind_iff_left (x : Traced κ ε α) {f : α → Traced κ ε β}
    (h : ∀ a, AllCalls P (f a)) : AllCalls P (x >>= f) ↔ AllCalls P x := by
  rw [allCalls_bind]
  exact and_iff_left fun a _ => h a

end Traced

end Throw
