import Zinc.Base.Throw
import Mathlib.Data.List.Forall2

/-! Rules for computations over a state. `Ensures` says what holds of the two states
and the result whenever a computation returns, `Avoids` that a computation does not
throw a given error. A computation simulates another one over a smaller state when it
gives related results from related states, and throws what the other one throws where
the simulation is exact. All three are closed under sequencing and repetition. -/

namespace Throw

variable {ε σ υ α β γ δ : Type}

/-! ### What a computation ensures -/

def Ensures (P : σ → α → σ → Prop) (x : Action σ ε α) : Prop :=
  ∀ s a s', x s = .ok (a, s') → P s a s'

namespace Ensures

variable {P : σ → α → σ → Prop} {x : Action σ ε α}

theorem mono {Q : σ → α → σ → Prop} (hx : Ensures P x) (h : ∀ s a s', P s a s' → Q s a s') :
    Ensures Q x :=
  fun s a s' hs => h s a s' (hx s a s' hs)

theorem pure {a : α} (h : ∀ s, P s a s) : Ensures P (Pure.pure a : Action σ ε α) := by
  rintro s a' s' ⟨⟩
  exact h s

theorem bind {Q : α → σ → β → σ → Prop} {R : σ → β → σ → Prop} {f : α → Action σ ε β}
    (hx : Ensures P x) (hf : ∀ a, Ensures (Q a) (f a))
    (h : ∀ s a s₁ b s', P s a s₁ → Q a s₁ b s' → R s b s') : Ensures R (x >>= f) := by
  intro s b s' hs
  obtain ⟨⟨a, s₁⟩, h₁, h₂⟩ := bind_eq_ok.mp hs
  exact h s a s₁ b s' (hx s a s₁ h₁) (hf a s₁ b s' h₂)

/-- A last computation that only changes the result. -/
theorem map {Q : σ → β → σ → Prop} (f : α → β) (hx : Ensures P x)
    (h : ∀ s a s', P s a s' → Q s (f a) s') : Ensures Q (x >>= fun a => Pure.pure (f a)) :=
  hx.bind (Q := fun a s b s' => b = f a ∧ s' = s) (fun a => pure fun s => ⟨rfl, rfl⟩) (by
    rintro s a s₁ b s' hp ⟨rfl, rfl⟩
    exact h s a s' hp)

end Ensures

/-! ### What a computation avoids -/

def Avoids (f : ε) (D : σ → Prop) (x : Action σ ε α) : Prop := ∀ s, D s → x s ≠ .error f

namespace Avoids

variable {f : ε} {D : σ → Prop} {x : Action σ ε α}

theorem pure (a : α) : Avoids f D (Pure.pure a : Action σ ε α) := by
  rintro s - ⟨⟩

theorem bind {E : α → σ → Prop} {g : α → Action σ ε β} (hx : Avoids f D x)
    (hensures : Ensures (fun s a s' => D s → E a s') x) (hg : ∀ a, Avoids f (E a) (g a)) :
    Avoids f D (x >>= g) := by
  intro s hs
  rw [bind_apply]
  cases h : x s with
  | ok p => exact hg p.1 p.2 (hensures s p.1 p.2 h hs)
  | error f' =>
    rw [error_bind]
    rintro ⟨⟩
    exact hx s hs h

theorem replicate (hx : Avoids f D x) (hensures : Ensures (fun s _ s' => D s → D s') x) (n : ℕ) :
    Avoids f D (Throw.replicate x n) := by
  induction n with
  | zero => exact pure []
  | succ n ih =>
    exact hx.bind hensures fun a => ih.bind (E := fun _ _ => True) (fun _ _ _ _ _ => trivial)
      fun as => pure (a :: as)

end Avoids

/-! ### Simulation -/

/-- `x` follows `y`: it returns a related result where `y` returns, and throws the errors of
`y` in which the simulation is exact. -/
def Simulates (view : σ → υ → Prop) (exact : ε → Prop) (R : α → β → Prop) (x : Action σ ε α)
    (y : Action υ ε β) : Prop :=
  ∀ s v, view s v →
    (∀ b v', y v = .ok (b, v') → ∃ a s', x s = .ok (a, s') ∧ R a b ∧ view s' v') ∧
    ∀ f, exact f → y v = .error f → x s = .error f

namespace Simulates

variable {view : σ → υ → Prop} {exact : ε → Prop} {R : α → β → Prop} {x : Action σ ε α}
  {y : Action υ ε β}

theorem pure {a : α} {b : β} (h : R a b) :
    Simulates view exact R (Pure.pure a : Action σ ε α) (Pure.pure b : Action υ ε β) := by
  refine fun s v hv => ⟨?_, ?_⟩
  · rintro b' v' ⟨⟩
    exact ⟨a, s, rfl, h, hv⟩
  · rintro f - ⟨⟩

theorem bind {S : γ → δ → Prop} {f : α → Action σ ε γ} {g : β → Action υ ε δ}
    (hx : Simulates view exact R x y)
    (hf : ∀ a b, R a b → Simulates view exact S (f a) (g b)) :
    Simulates view exact S (x >>= f) (y >>= g) := by
  refine fun s v hv => ⟨fun d v' hy => ?_, fun err hexact hy => ?_⟩
  · obtain ⟨⟨b, v₁⟩, h₁, h₂⟩ := bind_eq_ok.mp hy
    obtain ⟨a, s₁, hxs, hR, hv₁⟩ := (hx s v hv).1 b v₁ h₁
    rw [bind_of_eq_ok hxs]
    exact (hf a b hR s₁ v₁ hv₁).1 d v' h₂
  · rw [bind_apply] at hy ⊢
    cases hyv : y v with
    | ok p =>
      obtain ⟨a, s₁, hxs, hR, hv₁⟩ := (hx s v hv).1 p.1 p.2 hyv
      rw [hyv] at hy
      rw [hxs]
      exact (hf a p.1 hR s₁ p.2 hv₁).2 err hexact hy
    | error err' =>
      rw [hyv, error_bind] at hy
      cases hy
      rw [(hx s v hv).2 err hexact hyv, error_bind]

/-- A computation follows itself. -/
theorem refl (x : Action σ ε α) :
    Simulates (fun s s' => s = s') (fun _ => True) (fun a b => a = b) x x := by
  rintro s _ rfl
  exact ⟨fun a s' h => ⟨a, s', h, rfl, rfl⟩, fun f _ h => h⟩

theorem mono {S : α → β → Prop} (hx : Simulates view exact R x y) (h : ∀ a b, R a b → S a b) :
    Simulates view exact S x y := by
  refine fun s v hv => ⟨fun b v' hy => ?_, (hx s v hv).2⟩
  obtain ⟨a, s', hxs, hR, hv'⟩ := (hx s v hv).1 b v' hy
  exact ⟨a, s', hxs, h a b hR, hv'⟩

/-- The last step of both sides. -/
theorem map {S : γ → δ → Prop} (f : α → γ) (g : β → δ) (hx : Simulates view exact R x y)
    (h : ∀ a b, R a b → S (f a) (g b)) :
    Simulates view exact S (x >>= fun a => Pure.pure (f a)) (y >>= fun b => Pure.pure (g b)) :=
  hx.bind fun a b hR => pure (h a b hR)

/-- A last step of the followed side alone. -/
theorem map_right {S : α → δ → Prop} (g : β → δ) (hx : Simulates view exact R x y)
    (h : ∀ a b, R a b → S a (g b)) :
    Simulates view exact S x (y >>= fun b => Pure.pure (g b)) := by
  have hbind := hx.bind (f := Pure.pure) (g := fun b => Pure.pure (g b)) fun a b hR =>
    pure (R := S) (h a b hR)
  rwa [bind_pure] at hbind

/-- `x` may be replaced by what it is at the states in view. -/
theorem congr {x' : Action σ ε α} (hx : Simulates view exact R x y)
    (h : ∀ s v, view s v → x' s = x s) : Simulates view exact R x' y := by
  intro s v hv
  rw [h s v hv]
  exact hx s v hv

/-- A check in front of `y` whose errors are outside those of the simulation. -/
theorem check {c : Action υ ε Unit} (hx : Simulates view exact R x y)
    (hstate : Ensures (fun v _ v' => v' = v) c) (herror : ∀ v f, c v = .error f → ¬ exact f) :
    Simulates view exact R x (c >>= fun _ => y) := by
  refine fun s v hv => ⟨fun b v' hy => ?_, fun err hexact hy => ?_⟩
  · obtain ⟨⟨u, v₁⟩, h₁, h₂⟩ := bind_eq_ok.mp hy
    obtain rfl := hstate v u v₁ h₁
    exact (hx s v₁ hv).1 b v' h₂
  · rw [bind_apply] at hy
    cases hc : c v with
    | ok p =>
      obtain ⟨u, v₁⟩ := p
      obtain rfl := hstate v u v₁ hc
      rw [hc] at hy
      exact (hx s v₁ hv).2 err hexact hy
    | error f =>
      rw [hc, error_bind] at hy
      cases hy
      exact absurd hexact (herror v err hc)

theorem replicate (hx : Simulates view exact R x y) (n : ℕ) :
    Simulates view exact (List.Forall₂ R) (Throw.replicate x n) (Throw.replicate y n) := by
  induction n with
  | zero => exact pure .nil
  | succ n ih => exact hx.bind fun a b hR => ih.map (a :: ·) (b :: ·) fun as bs h => .cons hR h

end Simulates

end Throw
