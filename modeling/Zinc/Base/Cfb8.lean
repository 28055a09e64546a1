import Mathlib.Data.List.Basic
import Mathlib.Data.Nat.Notation

/-! Cipher feedback over single symbols. A register is shifted by every
ciphertext symbol, and a symbol is mixed with a key symbol computed from the
register; mixing twice with the same key symbol changes nothing. Both directions
process a stream piece by piece when the register is carried along, and
decryption under the sender's register follows the sender. -/

namespace Cfb8

variable {α : Type*} (keySymbol : List α → α) (mix : α → α → α)

/-- Shift a ciphertext symbol into the register. -/
def shift (register : List α) (c : α) : List α := register.tail ++ [c]

/-- The ciphertext of a piece and the register behind it. -/
def encrypt : List α → List α → List α × List α
  | register, [] => ([], register)
  | register, x :: xs =>
    let c := mix (keySymbol register) x
    let (cs, register') := encrypt (shift register c) xs
    (c :: cs, register')

/-- The plaintext of a piece and the register behind it. -/
def decrypt : List α → List α → List α × List α
  | register, [] => ([], register)
  | register, c :: cs =>
    let (xs, register') := decrypt (shift register c) cs
    (mix (keySymbol register) c :: xs, register')

@[simp] theorem length_encrypt (register xs : List α) :
    (encrypt keySymbol mix register xs).1.length = xs.length := by
  induction xs generalizing register with
  | nil => rfl
  | cons x xs ih => simp [encrypt, ih]

@[simp] theorem length_decrypt (register cs : List α) :
    (decrypt keySymbol mix register cs).1.length = cs.length := by
  induction cs generalizing register with
  | nil => rfl
  | cons c cs ih => simp [decrypt, ih]

/-- Shifting keeps the length of a register, unless it is empty. -/
theorem length_shift_eq_iff {n : ℕ} (hn : 2 ≤ n) (register : List α) (c : α) :
    (shift register c).length = n ↔ register.length = n := by
  rw [shift, List.length_append, List.length_tail, List.length_singleton]
  omega

theorem length_encrypt_snd_eq_iff {n : ℕ} (hn : 2 ≤ n) (register xs : List α) :
    (encrypt keySymbol mix register xs).2.length = n ↔ register.length = n := by
  induction xs generalizing register with
  | nil => rfl
  | cons x xs ih => exact (ih _).trans (length_shift_eq_iff hn register _)

theorem length_decrypt_snd_eq_iff {n : ℕ} (hn : 2 ≤ n) (register cs : List α) :
    (decrypt keySymbol mix register cs).2.length = n ↔ register.length = n := by
  induction cs generalizing register with
  | nil => rfl
  | cons c cs ih => exact (ih _).trans (length_shift_eq_iff hn register c)

theorem encrypt_append (register xs ys : List α) :
    encrypt keySymbol mix register (xs ++ ys) =
      ((encrypt keySymbol mix register xs).1 ++
        (encrypt keySymbol mix (encrypt keySymbol mix register xs).2 ys).1,
      (encrypt keySymbol mix (encrypt keySymbol mix register xs).2 ys).2) := by
  induction xs generalizing register with
  | nil => rfl
  | cons x xs ih => simp [encrypt, ih]

theorem decrypt_append (register cs ds : List α) :
    decrypt keySymbol mix register (cs ++ ds) =
      ((decrypt keySymbol mix register cs).1 ++
        (decrypt keySymbol mix (decrypt keySymbol mix register cs).2 ds).1,
      (decrypt keySymbol mix (decrypt keySymbol mix register cs).2 ds).2) := by
  induction cs generalizing register with
  | nil => rfl
  | cons c cs ih => simp [decrypt, ih]

/-- Decryption under the sender's register. -/
theorem decrypt_encrypt (hmix : ∀ k x, mix k (mix k x) = x) (register xs : List α) :
    decrypt keySymbol mix register (encrypt keySymbol mix register xs).1 =
      (xs, (encrypt keySymbol mix register xs).2) := by
  induction xs generalizing register with
  | nil => rfl
  | cons x xs ih => simp [encrypt, decrypt, ih, hmix]

end Cfb8
