import Mathlib.Data.List.Basic
import Mathlib.Algebra.Order.Group.Nat

/-! A sequence stored in blocks of one length. The blocks are read as the flat
sequence they concatenate to: an index is a block number and an offset, leaving
blocks from the front is dropping a multiple of the block length, and writing
inside one block is writing at the flat index. -/

namespace Blocks

variable {α : Type*} {B : ℕ}

/-- Write `ys` over the symbols of `xs` from an offset on. -/
def overwrite (xs : List α) (offset : ℕ) (ys : List α) : List α :=
  xs.take offset ++ ys ++ xs.drop (offset + ys.length)

theorem length_overwrite {xs ys : List α} {offset : ℕ} (h : offset + ys.length ≤ xs.length) :
    (overwrite xs offset ys).length = xs.length := by
  simp [overwrite]; omega

theorem overwrite_append_left {xs ys zs : List α} {offset : ℕ}
    (h : offset + ys.length ≤ xs.length) :
    overwrite (xs ++ zs) offset ys = overwrite xs offset ys ++ zs := by
  unfold overwrite
  rw [List.take_append_of_le_length (by omega), List.drop_append_of_le_length (by omega)]
  simp

theorem overwrite_append_right (xs ys zs : List α) (offset : ℕ) :
    overwrite (xs ++ zs) (xs.length + offset) ys = xs ++ overwrite zs offset ys := by
  unfold overwrite
  rw [List.take_length_add_append, Nat.add_assoc, List.drop_length_add_append]
  simp

/-- Writing behind a prefix replaces as many symbols as are written. -/
theorem overwrite_append (xs ys zs : List α) :
    overwrite (xs ++ zs) xs.length ys = xs ++ ys ++ zs.drop ys.length := by
  simp [overwrite]

/-- All blocks have the length `B`. -/
def Uniform (B : ℕ) (bs : List (List α)) : Prop := ∀ b ∈ bs, b.length = B

namespace Uniform

variable {bs : List (List α)}

theorem tail {b : List α} (h : Uniform B (b :: bs)) : Uniform B bs :=
  fun c hc => h c (List.mem_cons_of_mem b hc)

theorem concat (h : Uniform B bs) {b : List α} (hb : b.length = B) : Uniform B (bs ++ [b]) := by
  intro c hc
  obtain hc | rfl := by simpa using hc
  · exact h c hc
  · exact hb

theorem set (h : Uniform B bs) (i : ℕ) {b : List α} (hb : b.length = B) : Uniform B (bs.set i b) := by
  intro c hc
  obtain hc | rfl := List.mem_or_eq_of_mem_set hc
  · exact h c hc
  · exact hb

theorem length_flatten (h : Uniform B bs) : bs.flatten.length = bs.length * B := by
  induction bs with
  | nil => simp
  | cons b bs ih =>
    rw [List.flatten_cons, List.length_append, ih h.tail, h b List.mem_cons_self, List.length_cons,
      Nat.succ_mul, Nat.add_comm]

theorem drop_flatten (h : Uniform B bs) (k : ℕ) :
    bs.flatten.drop (k * B) = (bs.drop k).flatten := by
  induction k generalizing bs with
  | zero => simp
  | succ k ih =>
    cases bs with
    | nil => simp
    | cons b bs =>
      have hb := h b List.mem_cons_self
      rw [List.flatten_cons, List.drop_succ_cons, ← ih h.tail, Nat.succ_mul, Nat.add_comm, ← hb,
        List.drop_length_add_append, hb]

/-- The flat sequence from an offset in block `k` on. -/
theorem drop_flatten_add (h : Uniform B bs) {k : ℕ} {b : List α} (hb : bs[k]? = some b) {i : ℕ}
    (hi : i ≤ B) :
    bs.flatten.drop (k * B + i) = b.drop i ++ bs.flatten.drop ((k + 1) * B) := by
  obtain ⟨hk, rfl⟩ := List.getElem?_eq_some_iff.mp hb
  have hlen := h _ (List.getElem_mem hk)
  rw [← List.drop_drop, h.drop_flatten, h.drop_flatten, List.drop_eq_getElem_cons hk,
    List.flatten_cons, List.drop_append_of_le_length (by omega)]

/-- Writing inside block `k` writes at the flat index. -/
theorem flatten_set (h : Uniform B bs) {k : ℕ} {b : List α} (hb : bs[k]? = some b) {i : ℕ}
    {ys : List α} (hi : i + ys.length ≤ B) :
    (bs.set k (overwrite b i ys)).flatten = overwrite bs.flatten (k * B + i) ys := by
  induction bs generalizing k with
  | nil => simp at hb
  | cons c bs ih =>
    have hc := h c List.mem_cons_self
    cases k with
    | zero =>
      obtain rfl : c = b := by simpa using hb
      rw [List.set_cons_zero, List.flatten_cons, List.flatten_cons, Nat.zero_mul, Nat.zero_add,
        overwrite_append_left (by omega)]
    | succ k =>
      have hidx : (k + 1) * B + i = c.length + (k * B + i) := by rw [hc, Nat.succ_mul]; omega
      rw [List.set_cons_succ, List.flatten_cons, List.flatten_cons, ih h.tail (by simpa using hb),
        hidx, overwrite_append_right]

end Uniform

end Blocks
