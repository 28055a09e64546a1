import Mathlib.Data.Set.Card

/-! Partial maps as functions to options, and how many of their values meet a
condition. An update changes such a number by what it takes from its key and what
it puts there; this one lemma gives what an insertion, a removal and a replacement do. -/

namespace PartialMap

variable {κ α : Type*} {m : κ → Option α} {k : κ} {x : Option α} {v w : α}

/-- The keys whose values meet a condition. -/
def keys (m : κ → Option α) (P : α → Prop) : Set κ := {k | ∃ v ∈ m k, P v}

/-- Only finitely many keys have a value. -/
def Finite (m : κ → Option α) : Prop := {k | (m k).isSome}.Finite

/-- How many values meet a condition. -/
noncomputable def count (m : κ → Option α) (P : α → Prop) : ℕ := (keys m P).ncard

/-- What one value adds to the count. -/
def weight (P : α → Prop) [DecidablePred P] : Option α → ℕ
  | none => 0
  | some v => if P v then 1 else 0

variable {P : α → Prop}

@[simp] theorem weight_none [DecidablePred P] : weight P none = 0 := rfl

theorem weight_of_pos [DecidablePred P] (h : P v) : weight P (some v) = 1 := if_pos h

theorem weight_of_neg [DecidablePred P] (h : ¬ P v) : weight P (some v) = 0 := if_neg h

theorem Finite.keys (h : Finite m) (P : α → Prop) : (keys m P).Finite := by
  apply h.subset
  rintro k ⟨v, hv, -⟩
  rw [Set.mem_ofPred_eq, hv]
  rfl

theorem finite_empty : Finite (fun _ : κ => (none : Option α)) := by
  simp [Finite]

@[simp] theorem count_empty : count (fun _ : κ => (none : Option α)) P = 0 := by
  simp [count, PartialMap.keys]

theorem count_mono {Q : α → Prop} (h : Finite m) (hPQ : ∀ v, P v → Q v) : count m P ≤ count m Q := by
  apply Set.ncard_le_ncard _ (h.keys Q)
  rintro k ⟨v, hk, hv⟩
  exact ⟨v, hk, hPQ v hv⟩

/-- A count is what one key adds and what the others do. -/
theorem count_eq_add (h : Finite m) (P : α → Prop) [DecidablePred P] (k : κ) :
    count m P = (PartialMap.keys m P \ {k}).ncard + weight P (m k) := by
  by_cases hk : k ∈ PartialMap.keys m P
  · obtain ⟨v, hv, hP⟩ := id hk
    rw [hv, weight_of_pos hP, count, Set.ncard_sdiff_singleton_add_one hk (h.keys P)]
  · have hweight : weight P (m k) = 0 := by
      cases hm : m k with
      | none => rfl
      | some v => exact weight_of_neg fun hP => hk ⟨v, hm, hP⟩
    rw [hweight, Set.sdiff_singleton_eq_self hk, Nat.add_zero, count]

variable [DecidableEq κ]

theorem Finite.update (h : Finite m) (k : κ) (x : Option α) : Finite (Function.update m k x) := by
  apply (Set.Finite.insert k h).subset
  intro k' hk'
  by_cases hkk : k' = k
  · exact .inl hkk
  · rw [Set.mem_ofPred_eq, Function.update_of_ne hkk] at hk'
    exact .inr hk'

/-- The other keys keep their values. -/
theorem keys_update_diff (m : κ → Option α) (P : α → Prop) (k : κ) (x : Option α) :
    PartialMap.keys (Function.update m k x) P \ {k} = PartialMap.keys m P \ {k} := by
  ext k'
  simp only [Set.mem_sdiff, Set.mem_singleton_iff, PartialMap.keys, Set.mem_ofPred_eq]
  apply and_congr_left
  intro hkk
  rw [Function.update_of_ne hkk]

/-- An update takes the old value from the count and adds the new one. -/
theorem count_update (h : Finite m) (P : α → Prop) [DecidablePred P] (k : κ) (x : Option α) :
    count (Function.update m k x) P + weight P (m k) = count m P + weight P x := by
  rw [count_eq_add (h.update k x) P k, count_eq_add h P k, keys_update_diff, Function.update_self]
  omega

theorem count_insert [DecidablePred P] (h : Finite m) (hk : m k = none) (v : α) :
    count (Function.update m k (some v)) P = count m P + weight P (some v) := by
  have hcount := count_update h P k (some v)
  rwa [hk, weight_none, Nat.add_zero] at hcount

theorem count_erase [DecidablePred P] (h : Finite m) (hk : m k = some v) :
    count (Function.update m k none) P + weight P (some v) = count m P := by
  have hcount := count_update h P k none
  rwa [hk, weight_none, Nat.add_zero] at hcount

/-- A replacement by a value that counts alike changes nothing. -/
theorem count_replace [DecidablePred P] (h : Finite m) (hk : m k = some v) (hvw : P v ↔ P w) :
    count (Function.update m k (some w)) P = count m P := by
  have hcount := count_update h P k (some w)
  have hweight : weight P (some v) = weight P (some w) := if_congr hvw rfl rfl
  rw [hk, hweight] at hcount
  exact Nat.add_right_cancel hcount

end PartialMap
