import Zinc.Buffer.Codec

/-! The text of a UUID: two lowercase hexadecimal digits for each byte, with a
hyphen in front of the bytes 4, 6, 8 and 10. The reader skips hyphens wherever
they stand and takes digits of both cases, so it reads back what was written. -/

namespace Zinc.Uuids

open Buffer

/-! ### Digits -/

/-- `guid_encoder[digit]`. -/
def guidEncoder (digit : UInt8) : UInt8 := if digit < 10 then 48 + digit else 87 + digit

def hex2char (c : UInt8) : UInt8 :=
  if 48 ≤ c ∧ c ≤ 57 then c - 48
  else if 97 ≤ c ∧ c ≤ 102 then 10 + c - 97
  else if 65 ≤ c ∧ c ≤ 70 then 10 + c - 65
  else 0

def isHex (c : UInt8) : Bool :=
  (48 ≤ c ∧ c ≤ 57) ∨ (97 ≤ c ∧ c ≤ 102) ∨ (65 ≤ c ∧ c ≤ 70)

/-- The two digits of a byte. -/
def digits (c : UInt8) : Bytes := [guidEncoder (c >>> 4 &&& 15), guidEncoder (c &&& 15)]

/-! ### Texts -/

/-- The text of the bytes from an index on. -/
def digitsFrom : ℕ → Bytes → Bytes
  | _, [] => []
  | index, c :: bytes =>
    (if index = 4 ∨ index = 6 ∨ index = 8 ∨ index = 10 then [45] else []) ++ digits c ++
      digitsFrom (index + 1) bytes

/-- `to_string`. -/
def toString (uuid : UUID) : Bytes := digitsFrom 0 uuid.1

/-- The loop of `from_string`: the bytes so far and the digit in front of the next one. -/
def fromDigits : Bytes → Bytes → Option UInt8 → Option Bytes
  | [], data, _ => if data.length < 16 then none else some data
  | c :: str, data, firstDigit =>
    if c = 45 then fromDigits str data firstDigit
    else if 16 ≤ data.length ∨ !isHex c then none
    else
      match firstDigit with
      | none => fromDigits str data (some (hex2char c <<< 4))
      | some digit => fromDigits str (data ++ [digit ||| hex2char c]) none

/-- `from_string`, which takes a text in braces, too. -/
def fromString (str : Bytes) : Option UUID := do
  let data ←
    if str.head? = some 123 then
      if str.getLast? = some 125 then fromDigits (str.drop 1).dropLast [] none else none
    else if str = [] then none
    else fromDigits str [] none
  if h : data.length = 16 then some ⟨data, h⟩ else none

theorem length_digitsFrom_le (index : ℕ) (bytes : Bytes) :
    (digitsFrom index bytes).length ≤ 3 * bytes.length := by
  induction bytes generalizing index with
  | nil => exact Nat.zero_le _
  | cons c bytes ih =>
    have hrest := ih (index + 1)
    rw [digitsFrom, List.length_append, List.length_append, List.length_cons]
    split <;> simp only [digits, List.length_cons, List.length_nil] <;> omega

theorem length_toString_le (uuid : UUID) : (toString uuid).length ≤ 48 := by
  have h := length_digitsFrom_le 0 uuid.1
  rwa [uuid.2] at h

/-! ### The round trip -/

/-- A digit is a hexadecimal digit, and neither a hyphen nor a brace. -/
theorem guidEncoder_props : ∀ n < 16, let c := guidEncoder (UInt8.ofNat n)
    isHex c = true ∧ c ≠ 45 ∧ c ≠ 123 ∧ hex2char c = UInt8.ofNat n := by
  decide

theorem nibbles : ∀ n < 256, let c := UInt8.ofNat n
    c >>> 4 &&& 15 = UInt8.ofNat (n / 16) ∧ c &&& 15 = UInt8.ofNat (n % 16) ∧
      UInt8.ofNat (n / 16) <<< 4 ||| UInt8.ofNat (n % 16) = c := by
  decide +kernel

theorem fromDigits_digits (c : UInt8) (str : Bytes) {data : Bytes} (h : data.length < 16) :
    fromDigits (digits c ++ str) data none = fromDigits str (data ++ [c]) none := by
  have hlt : c.toNat < 256 := c.toNat_lt
  rcases nibbles c.toNat hlt with ⟨hhigh, hlow, hc⟩
  rw [UInt8.ofNat_toNat] at hhigh hlow hc
  rcases guidEncoder_props (c.toNat / 16) (by omega) with ⟨hhex₁, hhyphen₁, -, hchar₁⟩
  rcases guidEncoder_props (c.toNat % 16) (by omega) with ⟨hhex₂, hhyphen₂, -, hchar₂⟩
  have hfull : ¬ 16 ≤ data.length := by omega
  rw [digits, hhigh, hlow, List.cons_append, List.cons_append, List.nil_append, fromDigits,
    if_neg hhyphen₁, if_neg (by simp [hfull, hhex₁]), fromDigits, if_neg hhyphen₂,
    if_neg (by simp [hfull, hhex₂]), hchar₁, hchar₂, hc]

/-- By induction on the bytes that are left. -/
theorem fromDigits_digitsFrom (bytes : Bytes) (index : ℕ) (data : Bytes)
    (h : data.length + bytes.length = 16) :
    fromDigits (digitsFrom index bytes) data none = some (data ++ bytes) := by
  induction bytes generalizing index data with
  | nil =>
    rw [List.length_nil, Nat.add_zero] at h
    rw [digitsFrom, fromDigits, if_neg (by omega), List.append_nil]
  | cons c bytes ih =>
    rw [List.length_cons] at h
    have hrest := ih (index + 1) (data ++ [c])
      (by rw [List.length_append, List.length_singleton]; omega)
    rw [List.append_assoc, List.singleton_append] at hrest
    rw [digitsFrom, List.append_assoc]
    split
    · rw [List.singleton_append, fromDigits, if_pos rfl, fromDigits_digits c _ (by omega), hrest]
    · rw [List.nil_append, fromDigits_digits c _ (by omega), hrest]

theorem fromString_toString (uuid : UUID) : fromString (toString uuid) = some uuid := by
  have hdata := fromDigits_digitsFrom uuid.1 0 [] (by rw [uuid.2]; rfl)
  rcases uuid with ⟨bytes, hlength⟩
  cases bytes with
  | nil => cases hlength
  | cons c bytes =>
    have hhead : (toString ⟨c :: bytes, hlength⟩).head? ≠ some 123 := by
      rcases nibbles c.toNat c.toNat_lt with ⟨hhigh, -, -⟩
      rw [UInt8.ofNat_toNat] at hhigh
      have hdigit := (guidEncoder_props (c.toNat / 16) (by have := c.toNat_lt; omega)).2.2.1
      change some (guidEncoder (c >>> 4 &&& 15)) ≠ some 123
      rw [hhigh]
      exact fun h => hdigit (Option.some.inj h)
    unfold fromString
    rw [if_neg hhead, if_neg (by simp [toString, digitsFrom, digits])]
    change (fromDigits (digitsFrom 0 (c :: bytes)) [] none >>= _) = _
    rw [hdata]
    change (if h : _ then _ else _) = _
    exact dif_pos hlength

theorem toString_inj {uuid uuid' : UUID} : toString uuid = toString uuid' ↔ uuid = uuid' := by
  refine ⟨fun h => ?_, fun h => by rw [h]⟩
  have hread := congrArg fromString h
  rwa [fromString_toString, fromString_toString, Option.some.injEq] at hread

/-! ### Characters -/

theorem isHex_of_mem_digits (c : UInt8) : ∀ d ∈ digits c, isHex d = true := by
  have hlt : c.toNat < 256 := c.toNat_lt
  rcases nibbles c.toNat hlt with ⟨hhigh, hlow, -⟩
  rw [UInt8.ofNat_toNat] at hhigh hlow
  rw [digits, hhigh, hlow, List.forall_mem_cons, List.forall_mem_singleton]
  exact ⟨(guidEncoder_props _ (by omega)).1, (guidEncoder_props _ (by omega)).1⟩

theorem mem_digitsFrom (bytes : Bytes) (index : ℕ) :
    ∀ d ∈ digitsFrom index bytes, d = 45 ∨ isHex d = true := by
  induction bytes generalizing index with
  | nil => simp [digitsFrom]
  | cons c bytes ih =>
    rw [digitsFrom, List.forall_mem_append, List.forall_mem_append]
    refine ⟨⟨?_, fun d hd => .inr (isHex_of_mem_digits c d hd)⟩, ih (index + 1)⟩
    split <;> simp

/-- The text of a UUID has no quotes. -/
theorem quote_notMem_toString (uuid : UUID) : 34 ∉ toString uuid := by
  intro hmem
  exact absurd (mem_digitsFrom uuid.1 0 34 hmem) (by decide)

end Zinc.Uuids
