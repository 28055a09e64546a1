import Mathlib.Algebra.Ring.Nat
import Mathlib.Data.List.Nodup
import Mathlib.Logic.Function.Basic
import Zinc.Base.Throw

/-! Calls whose arguments are evaluated one after another in an order that the language leaves
open. Each argument is a computation on one state, so what it reads depends on which arguments
were evaluated before it; its value ends in its own slot. A word that is made of a piece for each
argument, in the order of evaluation, is read into the slots of the pieces. -/

namespace Throw

variable {ι : Type}

/-- An order of evaluation has every argument once. -/
structure EvalOrder (ι : Type) where
  list : List ι
  nodup : list.Nodup
  complete : ∀ i, i ∈ list

/-- All orders have the same arguments. -/
theorem EvalOrder.perm (order order' : EvalOrder ι) : order.list.Perm order'.list :=
  (List.perm_ext_iff_of_nodup order.nodup order'.nodup).mpr fun i =>
    iff_of_true (order.complete i) (order'.complete i)

def EvalOrder.leftToRight (n : ℕ) : EvalOrder (Fin n) :=
  ⟨List.finRange n, List.nodup_finRange n, List.mem_finRange⟩

def EvalOrder.rightToLeft (n : ℕ) : EvalOrder (Fin n) where
  list := (List.finRange n).reverse
  nodup := List.nodup_reverse.mpr (List.nodup_finRange n)
  complete i := List.mem_reverse.mpr (List.mem_finRange i)

theorem EvalOrder.length_list {n : ℕ} (order : EvalOrder (Fin n)) : order.list.length = n :=
  (order.perm (.leftToRight n)).length_eq.trans List.length_finRange

variable [DecidableEq ι] {σ ε τ : Type} {α : ι → Type}

/-- Evaluate the arguments of a list, each into its own slot. -/
def evaluateAll (args : ∀ i, Action σ ε (α i)) : List ι → (∀ i, α i) → Action σ ε (∀ i, α i)
  | [], values => pure values
  | i :: order, values => do
    let value ← args i
    evaluateAll args order (Function.update values i value)

/-- Evaluate all arguments in an order; the slots hold some values before. -/
def evaluate [∀ i, Inhabited (α i)] (order : EvalOrder ι) (args : ∀ i, Action σ ε (α i)) :
    Action σ ε (∀ i, α i) := evaluateAll args order.list fun _ => default

variable {view : σ → List τ → Prop} {args : ∀ i, Action σ ε (α i)} {word : ι → List τ}
  {values : ∀ i, α i}

theorem consumes_evaluateAll (order : List ι)
    (h : ∀ i ∈ order, Consumes view (args i) (word i) (values i)) (start : ∀ i, α i) :
    Consumes view (evaluateAll args order start) (order.flatMap word)
      (fun i => if i ∈ order then values i else start i) := by
  induction order generalizing start with
  | nil => exact Consumes.pure start
  | cons i order ih =>
    have hrest := ih (fun j hj => h j (List.mem_cons_of_mem i hj))
      (Function.update start i (values i))
    have hslots : (fun j => if j ∈ i :: order then values j else start j) =
        fun j => if j ∈ order then values j else Function.update start i (values i) j := by
      funext j
      by_cases hj : j ∈ order
      · rw [if_pos hj, if_pos (List.mem_cons_of_mem i hj)]
      · rw [if_neg hj]
        by_cases hij : j = i
        · subst hij
          rw [if_pos List.mem_cons_self, Function.update_self]
        · rw [if_neg (by simp [hij, hj]), Function.update_of_ne hij]
    rw [hslots]
    exact (h i List.mem_cons_self).bind hrest

/-- The pieces of a word in the order of evaluation end in the slots of their arguments. -/
theorem consumes_evaluate [∀ i, Inhabited (α i)] (order : EvalOrder ι)
    (h : ∀ i, Consumes view (args i) (word i) (values i)) :
    Consumes view (evaluate order args) (order.list.flatMap word) values := by
  have hall := consumes_evaluateAll order.list (fun i _ => h i) fun _ => default
  have hslots : (fun i => if i ∈ order.list then values i else default) = values :=
    funext fun i => if_pos (order.complete i)
  rwa [hslots] at hall

/-! ### Words in pieces -/

/-- A list of values has one for each argument. -/
theorem exists_map_eq {β : Type} [Inhabited β] {order : List ι} (hnodup : order.Nodup) {as : List β}
    (h : as.length = order.length) : ∃ f : ι → β, order.map f = as := by
  induction order generalizing as with
  | nil => exact ⟨fun _ => default, (List.length_eq_zero_iff.mp h).symm⟩
  | cons i order ih =>
    obtain ⟨b, as, rfl⟩ := List.exists_cons_of_length_eq_add_one h
    obtain ⟨hi, hrest⟩ := List.nodup_cons.mp hnodup
    obtain ⟨f, rfl⟩ := ih hrest (Nat.succ.inj h)
    refine ⟨Function.update f i b, ?_⟩
    rw [List.map_cons, Function.update_self]
    refine congrArg _ (List.map_congr_left fun j hj => ?_)
    exact Function.update_of_ne (ne_of_mem_of_not_mem hj hi) ..

/-- A word of the right length has a piece of each width. -/
theorem exists_flatMap_eq {order : List ι} (hnodup : order.Nodup) (width : ι → ℕ) {w : List τ}
    (h : w.length = (order.map width).sum) : ∃ word : ι → List τ,
      (∀ i ∈ order, (word i).length = width i) ∧ order.flatMap word = w := by
  induction order generalizing w with
  | nil => exact ⟨fun _ => [], by simp, (List.length_eq_zero_iff.mp h).symm⟩
  | cons i order ih =>
    rw [List.map_cons, List.sum_cons] at h
    obtain ⟨hi, hrest⟩ := List.nodup_cons.mp hnodup
    obtain ⟨word, hwidth, hword⟩ := @ih hrest (w.drop (width i)) (by rw [List.length_drop]; omega)
    have hother : ∀ j ∈ order, Function.update word i (w.take (width i)) j = word j :=
      fun j hj => Function.update_of_ne (ne_of_mem_of_not_mem hj hi) ..
    refine ⟨Function.update word i (w.take (width i)), ?_, ?_⟩
    · intro j hj
      rcases List.mem_cons.mp hj with rfl | hj
      · rw [Function.update_self, List.length_take]
        omega
      · rw [hother j hj, hwidth j hj]
    · rw [List.flatMap_cons, Function.update_self, List.flatMap_congr hother, hword,
        List.take_append_drop]

end Throw
