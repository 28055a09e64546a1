import Mathlib.Data.List.Basic
import Zinc.Base.Throw

/-! What a computation that returned has done, whatever it ran on. Its result has a property,
and the word that it took from the front of the view is related to the result. The relation is
only claimed where the view goes on behind the word: a reader that meets the end of the view
may return early. -/

namespace Throw

variable {ε σ τ α β : Type}

/-- Every result has the property. -/
def Yields (P : α → Prop) (x : Action σ ε α) : Prop := ∀ s, Returns (fun p => P p.1) (x s)

theorem Yields.pure {P : α → Prop} {a : α} (h : P a) : Yields P (Pure.pure a : Action σ ε α) :=
  fun _ => Returns.ok h

theorem Yields.bind {P : α → Prop} {Q : β → Prop} {x : Action σ ε α} {f : α → Action σ ε β}
    (hx : Yields P x) (hf : ∀ a, P a → Yields Q (f a)) : Yields Q (x >>= f) :=
  fun s => (hx s).bind fun p hp => hf p.1 hp p.2

/-- Nothing needs to be known of the first result. -/
theorem Yields.of_bind {Q : β → Prop} {x : Action σ ε α} {f : α → Action σ ε β}
    (hf : ∀ a, Yields Q (f a)) : Yields Q (x >>= f) :=
  fun _ => Returns.of_bind fun p => hf p.1 p.2

/-- A last computation that only changes the result. -/
theorem Yields.map {P : α → Prop} {Q : β → Prop} {x : Action σ ε α} (f : α → β)
    (hx : Yields P x) (h : ∀ a, P a → Q (f a)) :
    Yields Q (x >>= fun a => Pure.pure (f a)) :=
  hx.bind fun a ha => Yields.pure (h a ha)

theorem Yields.replicate {P : α → Prop} {x : Action σ ε α} (hx : Yields P x) (n : ℕ) :
    Yields (fun as => as.length = n ∧ ∀ a ∈ as, P a) (Throw.replicate x n) := by
  induction n with
  | zero => exact Yields.pure (by simp)
  | succ n ih =>
    refine hx.bind fun a ha => ih.map _ fun as has => ?_
    rw [List.length_cons, has.1, List.forall_mem_cons]
    exact ⟨rfl, ha, has.2⟩

/-- The word in front of what is left is related to the result. -/
def Takes (view : σ → List τ → Prop) (x : Action σ ε α) (Q : List τ → α → Prop) : Prop :=
  ∀ s w a s', view s w → x s = .ok (a, s') →
    ∃ u rest, w = u ++ rest ∧ view s' rest ∧ (rest ≠ [] → Q u a)

variable {view : σ → List τ → Prop}

theorem Takes.pure (a : α) :
    Takes view (Pure.pure a : Action σ ε α) (fun u b => u = [] ∧ b = a) := by
  rintro s w _ _ h ⟨⟩
  exact ⟨[], w, rfl, h, fun _ => ⟨rfl, rfl⟩⟩

theorem Takes.mono {Q R : List τ → α → Prop} {x : Action σ ε α} (hx : Takes view x Q)
    (h : ∀ u a, Q u a → R u a) : Takes view x R := by
  intro s w a s' hs hrun
  obtain ⟨u, rest, hw, hs', hQ⟩ := hx s w a s' hs hrun
  exact ⟨u, rest, hw, hs', fun hrest => h u a (hQ hrest)⟩

theorem Takes.bind {Q : List τ → α → Prop} {R : α → List τ → β → Prop} {S : List τ → β → Prop}
    {x : Action σ ε α} {f : α → Action σ ε β} (hx : Takes view x Q)
    (hf : ∀ a, Takes view (f a) (R a)) (h : ∀ u a v b, Q u a → R a v b → S (u ++ v) b) :
    Takes view (x >>= f) S := by
  intro s w b s'' hs hrun
  obtain ⟨⟨a, s'⟩, hfirst, hrun⟩ := bind_eq_ok.mp hrun
  obtain ⟨u, rest, rfl, hs', hQ⟩ := hx s w a s' hs hfirst
  obtain ⟨v, rest', rfl, hs'', hR⟩ := hf a s' rest b s'' hs' hrun
  refine ⟨u ++ v, rest', by rw [List.append_assoc], hs'', fun hrest => ?_⟩
  exact h u a v b (hQ (List.append_ne_nil_of_right_ne_nil v hrest)) (hR hrest)

/-- A last computation that only changes the result. -/
theorem Takes.map {Q : List τ → α → Prop} {S : List τ → β → Prop} {x : Action σ ε α} (f : α → β)
    (hx : Takes view x Q) (h : ∀ u a, Q u a → S u (f a)) :
    Takes view (x >>= fun a => Pure.pure (f a)) S :=
  hx.bind (fun a => Takes.pure (f a)) fun u a v b hQ hR => by
    obtain ⟨rfl, rfl⟩ := hR
    rw [List.append_nil]
    exact h u a hQ

end Throw
