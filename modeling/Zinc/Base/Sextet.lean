import Mathlib.Algebra.Group.Nat.Defs
import Mathlib.Data.List.Basic

/-! Three octets written as four sextets, each as a symbol of an alphabet. A text
whose last group is short of octets is filled up with a padding symbol. A decoder
that takes padding for zeros returns the octets of whole groups: what was encoded,
followed by one zero for each padding symbol. -/

namespace Sextet

/-- Symbols for the numbers below sixty-four, and another one for padding. -/
structure Alphabet (α : Type*) where
  symbol : ℕ → α
  digit : α → Option ℕ
  pad : α
  digit_symbol : ∀ d < 64, digit (symbol d) = some d
  digit_pad : digit pad = none

/-- Three octets as one number. -/
def group (a b c : UInt8) : ℕ := (a.toNat * 256 + b.toNat) * 256 + c.toNat

/-- The octets of a number below `256 ^ 3`. -/
def octets (v : ℕ) : List UInt8 :=
  [UInt8.ofNat (v / 256 ^ 2), UInt8.ofNat (v / 256), UInt8.ofNat v]

/-- How many symbols of padding end the text of `n` octets. -/
def padding (n : ℕ) : ℕ := (3 - n % 3) % 3

variable {α : Type*}

namespace Alphabet

variable (A : Alphabet α)

/-- The symbol of the sextet of `v` that has `i` sextets behind it. -/
def sextet (v i : ℕ) : α := A.symbol (v / 64 ^ i % 64)

def encode : List UInt8 → List α
  | [] => []
  | [a] => [A.sextet (group a 0 0) 3, A.sextet (group a 0 0) 2, A.pad, A.pad]
  | [a, b] =>
    [A.sextet (group a b 0) 3, A.sextet (group a b 0) 2, A.sextet (group a b 0) 1, A.pad]
  | a :: b :: c :: rest =>
    A.sextet (group a b c) 3 :: A.sextet (group a b c) 2 :: A.sextet (group a b c) 1 ::
      A.sextet (group a b c) 0 :: encode rest

variable [DecidableEq α]

/-- What a symbol counts for; padding counts for zero. -/
def value (x : α) : Option ℕ := if x = A.pad then some 0 else A.digit x

def decode : List α → Option (List UInt8)
  | [] => some []
  | p :: q :: r :: s :: rest => do
    let p ← A.value p
    let q ← A.value q
    let r ← A.value r
    let s ← A.value s
    let bytes ← decode rest
    return octets (((p * 64 + q) * 64 + r) * 64 + s) ++ bytes
  | _ => none

end Alphabet

/-! ### Octets and sextets of a group -/

theorem group_lt (a b c : UInt8) : group a b c < 64 ^ 4 := by
  have ha := a.toNat_lt
  have hb := b.toNat_lt
  have hc := c.toNat_lt
  unfold group
  omega

theorem octets_group (a b c : UInt8) : octets (group a b c) = [a, b, c] := by
  have ha := a.toNat_lt
  have hb := b.toNat_lt
  have hc := c.toNat_lt
  have h₁ : UInt8.ofNat (group a b c / 256 ^ 2) = a := by
    apply UInt8.toNat.inj
    rw [UInt8.toNat_ofNat', group]
    omega
  have h₂ : UInt8.ofNat (group a b c / 256) = b := by
    apply UInt8.toNat.inj
    rw [UInt8.toNat_ofNat', group]
    omega
  have h₃ : UInt8.ofNat (group a b c) = c := by
    apply UInt8.toNat.inj
    rw [UInt8.toNat_ofNat', group]
    omega
  rw [octets, h₁, h₂, h₃]

/-- Four sextets make up the number they are cut from. -/
theorem sextets_eq {v : ℕ} (h : v < 64 ^ 4) :
    ((v / 64 ^ 3 % 64 * 64 + v / 64 ^ 2 % 64) * 64 + v / 64 ^ 1 % 64) * 64 + v / 64 ^ 0 % 64 = v := by
  omega

theorem padding_add_three (n : ℕ) : padding (n + 3) = padding n := by
  unfold padding
  omega

theorem padding_eq_zero_iff (n : ℕ) : padding n = 0 ↔ n % 3 = 0 := by
  unfold padding
  omega

namespace Alphabet

variable (A : Alphabet α)

theorem length_encode (x : List UInt8) : (A.encode x).length = 4 * ((x.length + 2) / 3) := by
  fun_induction A.encode x with
  | case1 | case2 | case3 => simp
  | case4 a b c rest ih =>
    simp only [List.length_cons, ih]
    omega

/-! ### Symbols -/

theorem symbol_ne_pad {d : ℕ} (h : d < 64) : A.symbol d ≠ A.pad := by
  intro heq
  have hdigit := A.digit_symbol d h
  rw [heq, A.digit_pad] at hdigit
  cases hdigit

theorem sextet_ne_pad (v i : ℕ) : A.sextet v i ≠ A.pad :=
  A.symbol_ne_pad (Nat.mod_lt _ (by decide))

section Decode

variable [DecidableEq α]

@[simp] theorem value_sextet (v i : ℕ) : A.value (A.sextet v i) = some (v / 64 ^ i % 64) := by
  rw [value, if_neg (A.sextet_ne_pad v i), sextet, A.digit_symbol _ (Nat.mod_lt _ (by decide))]

@[simp] theorem value_pad : A.value A.pad = some 0 := if_pos rfl

/-! ### Decoding what was encoded -/

/-- Sextets that end in zeros decode like those that are written out. -/
theorem decode_cons {p q r s : α} {v : ℕ} (hv : v < 64 ^ 4) (hp : A.value p = some (v / 64 ^ 3 % 64))
    (hq : A.value q = some (v / 64 ^ 2 % 64)) (hr : A.value r = some (v / 64 ^ 1 % 64))
    (hs : A.value s = some (v / 64 ^ 0 % 64)) (rest : List α) :
    A.decode (p :: q :: r :: s :: rest) = (A.decode rest).map (octets v ++ ·) := by
  rw [decode, hp, hq, hr, hs]
  simp only [Option.bind_eq_bind, Option.bind_some, sextets_eq hv]
  cases A.decode rest <;> rfl

/-- A decoder that takes padding for zeros returns a zero for each symbol of it. -/
theorem decode_encode_padded (x : List UInt8) :
    A.decode (A.encode x) = some (x ++ List.replicate (padding x.length) 0) := by
  fun_induction A.encode x with
  | case1 => rfl
  | case2 a =>
    have h₁ : group a 0 0 / 64 ^ 1 % 64 = 0 := by
      rw [group, UInt8.toNat_zero]
      omega
    have h₀ : group a 0 0 / 64 ^ 0 % 64 = 0 := by
      rw [group, UInt8.toNat_zero]
      omega
    rw [A.decode_cons (group_lt a 0 0) (A.value_sextet _ _) (A.value_sextet _ _)
      (by rw [h₁, A.value_pad]) (by rw [h₀, A.value_pad]), octets_group]
    rfl
  | case3 a b =>
    have h₀ : group a b 0 / 64 ^ 0 % 64 = 0 := by
      rw [group, UInt8.toNat_zero]
      omega
    rw [A.decode_cons (group_lt a b 0) (A.value_sextet _ _) (A.value_sextet _ _)
      (A.value_sextet _ _) (by rw [h₀, A.value_pad]), octets_group]
    rfl
  | case4 a b c rest ih =>
    rw [A.decode_cons (group_lt a b c) (A.value_sextet _ _) (A.value_sextet _ _)
      (A.value_sextet _ _) (A.value_sextet _ _), octets_group, ih]
    simp only [List.length_cons, padding_add_three, Option.map_some, List.cons_append,
      List.nil_append]

/-- Only whole groups are decoded. -/
theorem length_decode {text : List α} {bytes : List UInt8} (h : A.decode text = some bytes) :
    4 * bytes.length = 3 * text.length := by
  fun_induction A.decode text generalizing bytes with
  | case1 =>
    cases h
    rfl
  | case2 p q r s rest ih =>
    simp only [Option.bind_eq_bind, Option.bind_eq_some_iff] at h
    obtain ⟨p, -, q, -, r, -, s, -, tail, htail, hbytes⟩ := h
    cases hbytes
    have hrest := ih htail
    simp only [List.length_append, octets, List.length_cons, List.length_nil]
    omega
  | case3 => cases h

end Decode

/-! ### The end of a text -/

/-- The last group of a text shows how many octets it is short of. -/
theorem encode_eq_append {x : List UInt8} (hx : x ≠ []) :
    ∃ (body : List α) (p q r s : α), A.encode x = body ++ [p, q, r, s] ∧
      (r = A.pad ↔ x.length % 3 = 1) ∧ (s = A.pad ↔ x.length % 3 ≠ 0) := by
  fun_induction A.encode x with
  | case1 => exact absurd rfl hx
  | case2 a => exact ⟨[], _, _, _, _, rfl, by simp, by simp⟩
  | case3 a b =>
    exact ⟨[], _, _, _, _, rfl, ⟨fun h => absurd h (A.sextet_ne_pad _ _), by simp⟩, by simp⟩
  | case4 a b c rest ih =>
    cases rest with
    | nil =>
      exact ⟨[], _, _, _, _, rfl, ⟨fun h => absurd h (A.sextet_ne_pad _ _), by simp⟩,
        fun h => absurd h (A.sextet_ne_pad _ _), by simp⟩
    | cons d rest =>
      obtain ⟨body, p, q, r, s, hencode, hr, hs⟩ := ih (by simp)
      rw [hencode]
      refine ⟨_ :: _ :: _ :: _ :: body, p, q, r, s, rfl, hr.trans ?_, hs.trans ?_⟩
      · simp only [List.length_cons]
        omega
      · simp only [List.length_cons]
        omega

end Alphabet

end Sextet
