import Mathlib.Data.List.Basic
import Mathlib.Data.Nat.Notation

/-! Lists that are put together of pieces. Two such lists are the same only if they are piece
by piece, if a property or a rank of the elements tells where a piece ends. -/

namespace Pieces

variable {α : Type}

/-- Two lists that run up to an element without a property. -/
theorem append_inj_of_stop {p : α → Prop} {a b rest rest' : List α} (ha : ∀ c ∈ a, p c)
    (hb : ∀ c ∈ b, p c) (hrest : ∀ c ∈ rest.head?, ¬ p c) (hrest' : ∀ c ∈ rest'.head?, ¬ p c)
    (heq : a ++ rest = b ++ rest') : a = b ∧ rest = rest' := by
  induction a generalizing b with
  | nil =>
    cases b with
    | nil => exact ⟨rfl, heq⟩
    | cons d b =>
      rw [List.nil_append, List.cons_append] at heq
      exact absurd (hb d List.mem_cons_self) (hrest d (by rw [heq]; rfl))
  | cons c a ih =>
    cases b with
    | nil =>
      rw [List.nil_append, List.cons_append] at heq
      exact absurd (ha c List.mem_cons_self) (hrest' c (by rw [← heq]; rfl))
    | cons d b =>
      obtain ⟨rfl, htail⟩ := List.cons.inj heq
      obtain ⟨rfl, hsame⟩ := ih (fun c hc => ha c (List.mem_cons_of_mem _ hc))
        (fun c hc => hb c (List.mem_cons_of_mem _ hc)) htail
      exact ⟨rfl, hsame⟩

variable {rank : α → ℕ} {n : ℕ} {pieces pieces' : List (List α)}

/-- The elements of each piece have its number, counted from `n`. -/
inductive Ranked (rank : α → ℕ) : ℕ → List (List α) → Prop
  | nil {n : ℕ} : Ranked rank n []
  | cons {n : ℕ} {piece : List α} {pieces : List (List α)} (h : ∀ x ∈ piece, rank x = n)
      (hs : Ranked rank (n + 1) pieces) : Ranked rank n (piece :: pieces)

theorem Ranked.le (h : Ranked rank n pieces) : ∀ x ∈ pieces.flatten, n ≤ rank x := by
  induction h with
  | nil => simp
  | cons h _ ih =>
    intro x hx
    rcases List.mem_append.mp hx with hpiece | hpieces
    · exact Nat.le_of_eq (h x hpiece).symm
    · exact Nat.le_of_succ_le (ih x hpieces)

theorem Ranked.flatten_inj (h : Ranked rank n pieces) (h' : Ranked rank n pieces')
    (hlength : pieces.length = pieces'.length) :
    pieces.flatten = pieces'.flatten ↔ pieces = pieces' := by
  refine ⟨fun heq => ?_, fun heq => by rw [heq]⟩
  induction h generalizing pieces' with
  | nil => exact (List.eq_nil_of_length_eq_zero hlength.symm).symm
  | @cons n piece pieces h hs ih =>
    cases h' with
    | nil => cases hlength
    | cons h' hs' =>
      have hstop {pieces : List (List α)} (hs : Ranked rank (n + 1) pieces) :
          ∀ x ∈ pieces.flatten.head?, rank x ≠ n :=
        fun x hx => Nat.ne_of_gt (hs.le x (List.mem_of_mem_head? hx))
      obtain ⟨rfl, htail⟩ := append_inj_of_stop h h' (hstop hs) (hstop hs') heq
      rw [ih hs' (Nat.succ.inj hlength) htail]

end Pieces
