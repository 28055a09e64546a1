import Zinc.Base.Endian
import Zinc.Base.Radix
import Zinc.Buffer.Codec

/-! The text of a digest that the session server is asked about. The server compares
it with the hexadecimal text of the digest as a signed number, which has no leading
zeros; `digestJava` writes two digits for each byte, and the carry of its negation
does not reach the first one. -/

namespace Zinc.Util

open Buffer

/-! ### Hexadecimal texts -/

def hexDigit (n : ℕ) : UInt8 := UInt8.ofNat (if n < 10 then 48 + n else 87 + n)

/-- The lower-case text of a number, as `std::hex` writes it. -/
def hex (n : ℕ) : Bytes := (Radix.digits 16 n).map hexDigit

/-- The number that bytes stand for in two's complement, the most significant one first. -/
def signed (bytes : Bytes) : ℤ :=
  if 2 * Endian.value bytes.reverse < 256 ^ bytes.length then Endian.value bytes.reverse
  else Endian.value bytes.reverse - 256 ^ bytes.length

/-- `BigInteger.toString(16)`. -/
def javaHex (z : ℤ) : Bytes := (if z < 0 then [45] else []) ++ hex z.natAbs

/-! ### The digest -/

structure MCSHA1 where
  digest : Bytes
  length_digest : digest.length = 20

/-- The carry of the negation: the bytes from an index down to the second one. -/
def addCarry (bytes : Bytes) : ℕ → Bytes
  | 0 => bytes
  | i + 1 =>
    let bytes := bytes.set (i + 1) (bytes.getD (i + 1) 0 + 1)
    if bytes.getD (i + 1) 0 ≠ 0 then bytes else addCarry bytes i

namespace MCSHA1

variable (sha : MCSHA1)

def isNegative : Bool := sha.digest.getD 0 0 &&& 0x80 ≠ 0

def twosComplement : Bytes :=
  if sha.isNegative then addCarry (sha.digest.map (~~~·)) (20 - 1) else sha.digest

def digestJava : Bytes :=
  (if sha.isNegative then [45] else []) ++
    sha.twosComplement.flatMap fun byte => (hex byte.toNat).leftpad 2 48

end MCSHA1

/-! ### Two digits for each byte -/

theorem hexDigit_inj : ∀ n < 16, ∀ m < 16, hexDigit n = hexDigit m → n = m := by decide

theorem map_hexDigit_inj {ns ms : List ℕ} (hn : ∀ n ∈ ns, n < 16) (hm : ∀ m ∈ ms, m < 16) :
    ns.map hexDigit = ms.map hexDigit ↔ ns = ms := by
  refine ⟨fun h => ?_, fun h => by rw [h]⟩
  induction ns generalizing ms with
  | nil => exact (List.map_eq_nil_iff.mp h.symm).symm
  | cons n ns ih =>
    cases ms with
    | nil => cases h
    | cons m ms =>
      rw [List.forall_mem_cons] at hn hm
      obtain ⟨hhead, htail⟩ := List.cons.inj h
      rw [hexDigit_inj n hn.1 m hm.1 hhead, ih hn.2 hm.2 htail]

def nibbles (bytes : Bytes) : List ℕ := bytes.flatMap fun byte => [byte.toNat / 16, byte.toNat % 16]

theorem nibbles_lt (bytes : Bytes) : ∀ d ∈ nibbles bytes, d < 16 := by
  intro d hd
  obtain ⟨byte, -, hd⟩ := List.mem_flatMap.mp hd
  have hlt := byte.toNat_lt
  simp only [List.mem_cons, List.not_mem_nil, or_false] at hd
  omega

theorem length_nibbles (bytes : Bytes) : (nibbles bytes).length = 2 * bytes.length := by
  induction bytes with
  | nil => rfl
  | cons byte bytes ih =>
    rw [nibbles, List.flatMap_cons, List.length_append, ← nibbles, ih]
    simp only [List.length_cons, List.length_nil]
    omega

theorem value_nibbles (bytes : Bytes) :
    Radix.value 16 (nibbles bytes) = Endian.value bytes.reverse := by
  induction bytes with
  | nil => rfl
  | cons byte bytes ih =>
    have hpow : 16 ^ (2 * bytes.length) = 256 ^ bytes.length := by
      rw [Nat.pow_mul]
    have hdigits : Nat.ofDigits 16 [byte.toNat % 16, byte.toNat / 16] = Endian.value [byte] := by
      simp only [Nat.ofDigits_cons, Nat.ofDigits_nil, Endian.value]
      omega
    rw [Radix.value, nibbles, List.flatMap_cons, List.reverse_append, Nat.ofDigits_append, ← nibbles,
      ← Radix.value, ih, List.length_reverse, length_nibbles, hpow, List.reverse_cons (a := byte),
      Endian.value_append, List.length_reverse, ← hdigits]
    rfl

theorem leftpad_hex (byte : UInt8) :
    (hex byte.toNat).leftpad 2 48 = [byte.toNat / 16, byte.toNat % 16].map hexDigit := by
  have hlt := byte.toNat_lt
  by_cases hzero : byte.toNat = 0
  · rw [hzero]
    rfl
  by_cases hsmall : byte.toNat < 16
  · rw [hex, Radix.digits, if_neg hzero, Nat.digits_of_lt 16 _ hzero hsmall,
      Nat.div_eq_of_lt hsmall, Nat.mod_eq_of_lt hsmall]
    rfl
  · rw [hex, Radix.digits, if_neg hzero, Nat.digits_def' (by decide) (by omega),
      Nat.digits_of_lt 16 (byte.toNat / 16) (by omega) (by omega)]
    rfl

/-- The text of a number is two digits for each byte if and only if the bytes stand
for the number and the first one has two digits. -/
theorem hex_eq_iff (n : ℕ) (byte : UInt8) (bytes : Bytes) :
    hex n = (byte :: bytes).flatMap (fun byte => (hex byte.toNat).leftpad 2 48) ↔
      n = Endian.value (byte :: bytes).reverse ∧ 16 ≤ byte.toNat := by
  have htext : (byte :: bytes).flatMap (fun byte => (hex byte.toNat).leftpad 2 48) =
      (nibbles (byte :: bytes)).map hexDigit := by
    simp only [leftpad_hex, nibbles, List.map_flatMap]
  have hinj := map_hexDigit_inj (fun d hd => Radix.digits_lt (b := 16) (n := n) (by decide) hd)
    (nibbles_lt (byte :: bytes))
  have htwo : 2 ≤ (nibbles (byte :: bytes)).length := by
    rw [length_nibbles, List.length_cons]
    omega
  have hhead : (nibbles (byte :: bytes)).head? ≠ some 0 ↔ 16 ≤ byte.toNat := by
    show some (byte.toNat / 16) ≠ some 0 ↔ _
    rw [ne_eq, Option.some_inj]
    omega
  rw [htext, hex, hinj, Radix.digits_eq_iff (by decide) (nibbles_lt _) htwo, value_nibbles, hhead]

/-! ### The negation -/

/-- The loop adds one to all bytes but the first. -/
theorem addCarry_eq (byte : UInt8) (low high : Bytes) :
    addCarry (byte :: (low.reverse ++ high)) low.length =
      byte :: ((Endian.succ low).reverse ++ high) := by
  induction low generalizing high with
  | nil => rfl
  | cons x low ih =>
    have hlow : low.length = low.reverse.length := List.length_reverse.symm
    have hset (y : UInt8) : (byte :: (low.reverse ++ x :: high)).set (low.length + 1) y =
        byte :: (low.reverse ++ y :: high) := by
      rw [List.set_cons_succ, hlow, List.set_append_right _ _ (Nat.le_refl _), Nat.sub_self,
        List.set_cons_zero]
    have hget (y : UInt8) : (byte :: (low.reverse ++ y :: high)).getD (low.length + 1) 0 = y := by
      rw [List.getD_cons_succ, hlow]
      simp
    rw [List.reverse_cons, List.append_assoc, List.singleton_append, List.length_cons, addCarry]
    simp only [hget, hset, Endian.succ]
    by_cases hx : x + 1 = 0
    · rw [if_neg (not_not.mpr hx), if_neg (not_not.mpr hx), hx, ih, List.reverse_cons,
        List.append_assoc, List.singleton_append]
    · rw [if_pos hx, if_pos hx, List.reverse_cons, List.append_assoc, List.singleton_append]

theorem negative_iff (byte : UInt8) : byte &&& 0x80 ≠ 0 ↔ 128 ≤ byte.toNat := by
  have hall : ∀ n < 256, UInt8.ofNat n &&& 0x80 ≠ 0 ↔ 128 ≤ n := by decide +kernel
  have hbyte := hall byte.toNat byte.toNat_lt
  rwa [UInt8.ofNat_toNat] at hbyte

theorem value_cons (byte : UInt8) (bytes : Bytes) :
    Endian.value (byte :: bytes).reverse =
      Endian.value bytes.reverse + 256 ^ bytes.length * byte.toNat := by
  rw [List.reverse_cons, Endian.value_append, List.length_reverse]
  rfl

/-- The bytes that are written for a negative digest. -/
theorem value_addCarry (byte : UInt8) (bytes : Bytes) :
    ∃ low, addCarry ((byte :: bytes).map (~~~·)) bytes.length = (~~~byte) :: low ∧
      Endian.value (~~~byte :: low).reverse =
        (256 ^ bytes.length - Endian.value bytes.reverse) % 256 ^ bytes.length +
          256 ^ bytes.length * (255 - byte.toNat) := by
  have hlt := Endian.value_lt bytes.reverse
  have hnot := Endian.value_not bytes.reverse
  have hloop := addCarry_eq (~~~byte) (bytes.reverse.map (~~~·)) []
  rw [List.length_reverse] at hlt hnot
  simp only [List.append_nil, List.length_map, List.length_reverse, ← List.map_reverse,
    List.reverse_reverse] at hloop
  refine ⟨_, hloop, ?_⟩
  have hbyte : (~~~byte).toNat = 255 - byte.toNat := UInt8.toNat_not byte
  rw [value_cons, List.reverse_reverse, Endian.value_succ, List.length_reverse, Endian.length_succ,
    List.length_map, List.length_reverse, hbyte]
  congr 2
  omega

namespace MCSHA1

variable (sha : MCSHA1)

theorem signed_cons (byte : UInt8) (bytes : Bytes) :
    signed (byte :: bytes) =
      if byte.toNat < 128 then (Endian.value (byte :: bytes).reverse : ℤ)
      else Endian.value (byte :: bytes).reverse - 256 ^ (bytes.length + 1) := by
  have hlt := Endian.value_lt bytes.reverse
  rw [List.length_reverse] at hlt
  have hhalf : 2 * Endian.value (byte :: bytes).reverse < 256 ^ (bytes.length + 1) ↔
      byte.toNat < 128 := by
    rw [value_cons, Nat.pow_succ]
    constructor
    · intro h
      have : 256 ^ bytes.length * (2 * byte.toNat) < 256 ^ bytes.length * 256 := by linarith
      have := Nat.lt_of_mul_lt_mul_left this
      omega
    · intro h
      have : 256 ^ bytes.length * (byte.toNat + 1) ≤ 256 ^ bytes.length * 128 :=
        Nat.mul_le_mul_left _ h
      linarith
  simp only [signed, hhalf, List.length_cons]

/-- The text is that of the signed number if and only if the number of digits is right
and the carry of a negation stops behind the first byte. -/
theorem digestJava_eq_iff :
    sha.digestJava = javaHex (signed sha.digest) ↔
      16 ≤ (sha.digest.getD 0 0).toNat ∧ (sha.digest.getD 0 0).toNat < 240 ∧
        (128 ≤ (sha.digest.getD 0 0).toNat → ∃ byte ∈ sha.digest.tail, byte ≠ 0) := by
  obtain ⟨digest, hlength⟩ := sha
  obtain ⟨byte, bytes, rfl⟩ := List.exists_cons_of_length_pos (l := digest) (by omega)
  have hbytes : bytes.length = 19 := Nat.succ.inj hlength
  have hbyte := byte.toNat_lt
  have hlt := Endian.value_lt bytes.reverse
  rw [List.length_reverse, hbytes] at hlt
  have hzero : (∃ byte ∈ bytes, byte ≠ 0) ↔ Endian.value bytes.reverse ≠ 0 := by
    rw [ne_eq, Endian.value_eq_zero_iff]
    simp
  simp only [List.getD_cons_zero, List.tail_cons, hzero]
  by_cases hnegative : 128 ≤ byte.toNat
  · have hisNegative : isNegative ⟨byte :: bytes, hlength⟩ = true :=
      decide_eq_true ((negative_iff byte).mpr hnegative)
    obtain ⟨low, hlow, hvalue⟩ := value_addCarry byte bytes
    rw [hbytes] at hlow hvalue
    have hsigned : signed (byte :: bytes) < 0 ∧ (signed (byte :: bytes)).natAbs =
        256 ^ 20 - (Endian.value bytes.reverse + 256 ^ 19 * byte.toNat) := by
      rw [signed_cons, if_neg (by omega), value_cons, hbytes]
      omega
    rw [digestJava, twosComplement, javaHex, if_pos hisNegative, if_pos hisNegative,
      if_pos hsigned.1, hlow, List.append_cancel_left_eq, eq_comm, hex_eq_iff, hvalue, hsigned.2,
      show (~~~byte).toNat = 255 - byte.toNat from UInt8.toNat_not byte]
    by_cases hv : Endian.value bytes.reverse = 0
    · rw [hv, Nat.sub_zero, Nat.mod_self]
      omega
    · rw [Nat.mod_eq_of_lt (by omega)]
      omega
  · have hisNegative : isNegative ⟨byte :: bytes, hlength⟩ = false :=
      decide_eq_false fun h => hnegative ((negative_iff byte).mp h)
    have hsigned : ¬ signed (byte :: bytes) < 0 ∧
        (signed (byte :: bytes)).natAbs = Endian.value (byte :: bytes).reverse := by
      rw [signed_cons, if_pos (by omega)]
      omega
    rw [digestJava, twosComplement, javaHex, hisNegative, if_neg Bool.false_ne_true,
      if_neg Bool.false_ne_true, if_neg hsigned.1, List.append_cancel_left_eq, eq_comm, hex_eq_iff,
      hsigned.2]
    omega

/-- A digest whose first byte has one digit. -/
def sample : MCSHA1 := ⟨1 :: List.replicate 19 0, rfl⟩

/-- The text of the sample has a leading zero, and that of its number has not. -/
theorem not_digestJava_sample : ¬ ∀ sha : MCSHA1, sha.digestJava = javaHex (signed sha.digest) := by
  intro h
  have hlength : sample.digestJava.length = (javaHex (signed sample.digest)).length := by rw [h]
  exact absurd hlength (by decide +kernel)

end MCSHA1

end Zinc.Util
