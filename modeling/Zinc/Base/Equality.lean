import Mathlib.Data.Set.Basic
import Zinc.Base.Throw

/-! Hand-written equalities, which may throw. On a set of values an equality is lawful when it
always returns, is an equivalence, and its negation is the other operator. One that computes an
equivalence there is lawful; in particular one that compares keys. -/

namespace Equality

open Throw

variable {α β ε : Type}

/-- The equality returns, and is an equivalence. -/
structure EquivalenceOn (S : Set α) (eq : α → α → Except ε Bool) : Prop where
  total : ∀ a ∈ S, ∀ b ∈ S, ∃ v, eq a b = .ok v
  refl : ∀ a ∈ S, eq a a = .ok true
  symm : ∀ a ∈ S, ∀ b ∈ S, eq a b = .ok true → eq b a = .ok true
  trans : ∀ a ∈ S, ∀ b ∈ S, ∀ c ∈ S, eq a b = .ok true → eq b c = .ok true → eq a c = .ok true

/-- The negation of an equality. -/
def negation (eq : α → α → Except ε Bool) (a b : α) : Except ε Bool := do
  let equal ← eq a b
  return !equal

/-- An equivalence and its negation. -/
structure LawfulOn (S : Set α) (eq ne : α → α → Except ε Bool) : Prop extends
    EquivalenceOn S eq where
  ne_eq : ∀ a ∈ S, ∀ b ∈ S, ne a b = negation eq a b

variable {S : Set α} {eq : α → α → Except ε Bool}

theorem EquivalenceOn.of_eq {r : α → α → Bool} (heq : ∀ a ∈ S, ∀ b ∈ S, eq a b = .ok (r a b))
    (hrefl : ∀ a ∈ S, r a a = true) (hsymm : ∀ a b, r a b = true → r b a = true)
    (htrans : ∀ a b c, r a b = true → r b c = true → r a c = true) : EquivalenceOn S eq where
  total a ha b hb := ⟨_, heq a ha b hb⟩
  refl a ha := by rw [heq a ha a ha, hrefl a ha]
  symm a ha b hb h := by
    rw [heq a ha b hb, Except.ok.injEq] at h
    rw [heq b hb a ha, hsymm a b h]
  trans a ha b hb c hc hab hbc := by
    rw [heq a ha b hb, Except.ok.injEq] at hab
    rw [heq b hb c hc, Except.ok.injEq] at hbc
    rw [heq a ha c hc, htrans a b c hab hbc]

/-- An equality of keys. -/
theorem EquivalenceOn.of_key [DecidableEq β] (key : α → β)
    (heq : ∀ a ∈ S, ∀ b ∈ S, eq a b = .ok (decide (key a = key b))) : EquivalenceOn S eq := by
  refine .of_eq (r := fun a b => decide (key a = key b)) heq ?_ ?_ ?_ <;> simp only [decide_eq_true_eq]
  · exact fun a _ => trivial
  · exact fun a b h => h.symm
  · exact fun a b c h h' => h.trans h'

/-- With its negation it is lawful. -/
theorem EquivalenceOn.lawfulOn (h : EquivalenceOn S eq) : LawfulOn S eq (negation eq) :=
  ⟨h, fun _ _ _ _ => rfl⟩

/-- An equality that is its own negation is lawful for no value. -/
theorem lawfulOn_self_iff : LawfulOn S eq eq ↔ S = ∅ := by
  constructor
  · intro h
    refine Set.eq_empty_iff_forall_notMem.mpr fun a ha => ?_
    have hne := h.ne_eq a ha a ha
    rw [negation, h.refl a ha] at hne
    cases hne
  · rintro rfl
    constructor
    · constructor <;> exact fun a ha => absurd ha (Set.notMem_empty a)
    · exact fun a ha => absurd ha (Set.notMem_empty a)

end Equality
