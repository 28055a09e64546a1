import Mathlib.Data.Nat.Notation
import Mathlib.Logic.Basic

/-! Words in which repeated parts stand behind their number. A layout says where the
counts of a word are, of which form each is, and what it counts. If every count reads
back as the number of parts that follow it, the counts alone lead over the word. -/

/-- A word, or two after each other, or parts behind their number. -/
inductive Layout (φ τ : Type) where
  | plain (word : List τ)
  | seq (first second : Layout φ τ)
  | counted (form : φ) (items : List (Layout φ τ))

namespace Layout

variable {φ τ : Type}

/-- Layouts after each other. -/
def sequence : List (Layout φ τ) → Layout φ τ
  | [] => plain []
  | layout :: layouts => seq layout (sequence layouts)

/-- The symbols of a word behind their number. -/
def sized (form : φ) (word : List τ) : Layout φ τ := counted form (word.map fun c => plain [c])

/-! ### Words -/

mutual

/-- The word of a layout, given the counts. -/
def word (write : φ → ℕ → List τ) : Layout φ τ → List τ
  | plain w => w
  | seq first second => word write first ++ word write second
  | counted form items => write form items.length ++ words write items

def words (write : φ → ℕ → List τ) : List (Layout φ τ) → List τ
  | [] => []
  | layout :: layouts => word write layout ++ words write layouts

end

variable {write : φ → ℕ → List τ}

theorem words_eq_flatMap (layouts : List (Layout φ τ)) :
    words write layouts = layouts.flatMap (word write) := by
  induction layouts with
  | nil => rfl
  | cons layout layouts ih => rw [words, List.flatMap_cons, ih]

theorem word_sequence (layouts : List (Layout φ τ)) :
    word write (sequence layouts) = words write layouts := by
  induction layouts with
  | nil => rfl
  | cons layout layouts ih => rw [sequence, word, words, ih]

theorem words_plain {α : Type} (enc : α → List τ) (as : List α) :
    words write (as.map fun a => plain (enc a)) = as.flatMap enc := by
  rw [words_eq_flatMap, List.flatMap_map]
  rfl

theorem word_sized (form : φ) (w : List τ) :
    word write (sized form w) = write form w.length ++ w := by
  rw [sized, word, List.length_map, words_plain, List.flatMap_singleton']

/-! ### Counts -/

mutual

/-- Every count has the property. -/
def All (P : φ → ℕ → Prop) : Layout φ τ → Prop
  | plain _ => True
  | seq first second => All P first ∧ All P second
  | counted form items => P form items.length ∧ AllOf P items

def AllOf (P : φ → ℕ → Prop) : List (Layout φ τ) → Prop
  | [] => True
  | layout :: layouts => All P layout ∧ AllOf P layouts

end

variable {P Q S : φ → ℕ → Prop}

theorem allOf_iff (layouts : List (Layout φ τ)) :
    AllOf P layouts ↔ ∀ layout ∈ layouts, All P layout := by
  induction layouts with
  | nil => simp [AllOf]
  | cons layout layouts ih => rw [AllOf, ih, List.forall_mem_cons]

theorem all_sequence (layouts : List (Layout φ τ)) : All P (sequence layouts) ↔ AllOf P layouts := by
  induction layouts with
  | nil => exact Iff.rfl
  | cons layout layouts ih => rw [sequence, All, AllOf, ih]

theorem allOf_plain {α : Type} (enc : α → List τ) (as : List α) :
    AllOf P (as.map fun a => plain (enc a)) := by
  rw [allOf_iff]
  intro layout hmem
  obtain ⟨a, -, rfl⟩ := List.mem_map.mp hmem
  trivial

theorem all_sized (form : φ) (w : List τ) : All P (sized form w) ↔ P form w.length := by
  rw [sized, All, List.length_map]
  exact and_iff_left (allOf_plain _ w)

mutual

/-- Two properties that agree on counts with a third one. -/
theorem all_congr (h : ∀ form n, S form n → (P form n ↔ Q form n)) : (layout : Layout φ τ) →
    All S layout → (All P layout ↔ All Q layout)
  | plain _, _ => Iff.rfl
  | seq first second, hs => and_congr (all_congr h first hs.1) (all_congr h second hs.2)
  | counted form items, hs => and_congr (h form _ hs.1) (allOf_congr h items hs.2)

theorem allOf_congr (h : ∀ form n, S form n → (P form n ↔ Q form n)) :
    (layouts : List (Layout φ τ)) → AllOf S layouts → (AllOf P layouts ↔ AllOf Q layouts)
  | [], _ => Iff.rfl
  | layout :: layouts, hs => and_congr (all_congr h layout hs.1) (allOf_congr h layouts hs.2)

end

/-! ### Walking over a word -/

mutual

/-- Pass a word by its layout, and as many parts behind a count as the count says. -/
def skip (read : φ → List τ → Option (ℕ × List τ)) : Layout φ τ → List τ → Option (List τ)
  | plain w, s => if w.length ≤ s.length then some (s.drop w.length) else none
  | seq first second, s => (skip read first s).bind (skip read second)
  | counted form items, s => (read form s).bind fun p => skips read items p.1 p.2

def skips (read : φ → List τ → Option (ℕ × List τ)) :
    List (Layout φ τ) → ℕ → List τ → Option (List τ)
  | _, 0, s => some s
  | [], _ + 1, _ => none
  | layout :: layouts, n + 1, s => (skip read layout s).bind (skips read layouts n)

end

/-- The count is read back. -/
def Truthful (write : φ → ℕ → List τ) (read : φ → List τ → Option (ℕ × List τ)) (form : φ) (n : ℕ) :
    Prop :=
  ∀ s, read form (write form n ++ s) = some (n, s)

variable {read : φ → List τ → Option (ℕ × List τ)}

mutual

theorem skip_word : (layout : Layout φ τ) → All (Truthful write read) layout → ∀ s,
    skip read layout (word write layout ++ s) = some s
  | plain w, _, s => by simp [skip, word]
  | seq first second, h, s => by
    rw [skip, word, List.append_assoc, skip_word first h.1, Option.bind_some, skip_word second h.2]
  | counted form items, h, s => by
    rw [skip, word, List.append_assoc, h.1, Option.bind_some, skips_words items h.2]

theorem skips_words : (layouts : List (Layout φ τ)) → AllOf (Truthful write read) layouts → ∀ s,
    skips read layouts layouts.length (words write layouts ++ s) = some s
  | [], _, s => rfl
  | layout :: layouts, h, s => by
    rw [List.length_cons, skips, words, List.append_assoc, skip_word layout h.1, Option.bind_some,
      skips_words layouts h.2]

end

end Layout
