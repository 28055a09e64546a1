import Mathlib.Data.List.Basic

/-! Runs of calls that overwrite one another. What is read of a state after a run is what the last
of the calls that set it has written, and what such calls collect stands in their order. -/

namespace Overwriting

variable {σ α β γ : Type*} {apply : σ → α → σ}

/-- The last call of those that set a part of the state. -/
def lastCall (sets : α → Bool) (calls : List α) : Option α := (calls.filter sets).getLast?

variable {sets : α → Bool}

theorem lastCall_cons_of_sets {call : α} (h : sets call = true) (calls : List α) :
    lastCall sets (call :: calls) = some ((lastCall sets calls).getD call) := by
  rw [lastCall, List.filter_cons_of_pos h, List.getLast?_cons, lastCall]

theorem lastCall_cons_of_not {call : α} (h : ¬ sets call = true) (calls : List α) :
    lastCall sets (call :: calls) = lastCall sets calls := by
  rw [lastCall, List.filter_cons_of_neg h, lastCall]

/-- The last call that sets a part decides what is read of it. -/
theorem read_foldl (read : σ → β) (value : α → β)
    (hsets : ∀ s call, sets call = true → read (apply s call) = value call)
    (hframe : ∀ s call, ¬ sets call = true → read (apply s call) = read s) (s : σ) (calls : List α) :
    read (calls.foldl apply s) = ((lastCall sets calls).map value).getD (read s) := by
  induction calls generalizing s with
  | nil => rfl
  | cons call calls ih =>
    rw [List.foldl_cons, ih]
    by_cases h : sets call = true
    · rw [hsets s call h, lastCall_cons_of_sets h]
      cases lastCall sets calls <;> rfl
    · rw [hframe s call h, lastCall_cons_of_not h]

/-- Two runs whose last calls agree leave the same behind. -/
theorem read_foldl_congr (read : σ → β) (value : α → β)
    (hsets : ∀ s call, sets call = true → read (apply s call) = value call)
    (hframe : ∀ s call, ¬ sets call = true → read (apply s call) = read s) (s : σ)
    {calls calls' : List α} (h : lastCall sets calls = lastCall sets calls') :
    read (calls.foldl apply s) = read (calls'.foldl apply s) := by
  rw [read_foldl read value hsets hframe, read_foldl read value hsets hframe, h]

/-- Where every call sets all that is read, the very last one decides. -/
theorem read_foldl_getLast (read : σ → β) (value : α → β)
    (h : ∀ s call, read (apply s call) = value call) (s : σ) {calls calls' : List α}
    (hlast : calls.getLast? = calls'.getLast?) :
    read (calls.foldl apply s) = read (calls'.foldl apply s) := by
  have hall : lastCall (fun _ => true) calls = lastCall (fun _ => true) calls' := by
    rwa [lastCall, lastCall, List.filter_true, List.filter_true]
  exact read_foldl_congr read value (fun s call _ => h s call) (fun _ _ hnot => absurd rfl hnot) s hall

/-- What is collected stands in the order of the calls. -/
theorem collected_foldl (read : σ → List γ) (adds : α → List γ)
    (h : ∀ s call, read (apply s call) = read s ++ adds call) (s : σ) (calls : List α) :
    read (calls.foldl apply s) = read s ++ calls.flatMap adds := by
  induction calls generalizing s with
  | nil => rw [List.foldl_nil, List.flatMap_nil, List.append_nil]
  | cons call calls ih => rw [List.foldl_cons, ih, h, List.flatMap_cons, List.append_assoc]

end Overwriting
