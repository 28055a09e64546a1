import Zinc.Base.Sextet
import Zinc.Buffer.Codec

/-! `Base64` over the two functions of OpenSSL. The decoder sizes its result without
the padding, while `EVP_DecodeBlock` writes and counts whole groups: a text that ends
in padding is written beyond the result and rejected afterwards. -/

namespace Zinc.Util

open Buffer

/-- The functions of OpenSSL: the memory behind the pointer and the length that are
passed, the bytes that are written and the length that is returned. -/
structure Evp where
  encodeBlock : Bytes → BitVec 32 → Bytes × BitVec 32
  decodeBlock : Bytes → BitVec 32 → Bytes × BitVec 32

def base64Symbols : Bytes := utf8 "ABCDEFGHIJKLMNOPQRSTUVWXYZabcdefghijklmnopqrstuvwxyz0123456789+/"

/-- The standard alphabet. -/
def standard : Sextet.Alphabet UInt8 where
  symbol d := base64Symbols.getD d 0
  digit x := base64Symbols.idxOf? x
  pad := 61
  digit_symbol := by decide +kernel
  digit_pad := by decide

/-- `EVP_EncodeBlock` writes the standard encoding; `EVP_DecodeBlock` counts padding
as zeros, and both return how much they have written. -/
structure Evp.Documented (evp : Evp) : Prop where
  encodeBlock : ∀ data, (standard.encode data).length < 2 ^ 31 →
    evp.encodeBlock data (BitVec.ofNat 32 data.length) =
      (standard.encode data, BitVec.ofNat 32 (standard.encode data).length)
  decodeBlock : ∀ text bytes, text.length < 2 ^ 31 → standard.decode text = some bytes →
    evp.decodeBlock text (BitVec.ofNat 32 text.length) = (bytes, BitVec.ofNat 32 bytes.length)

namespace Base64

def calculateEncodedSize (inputLen : ℕ) : ℕ := 4 * ((inputLen + 2) / 3)

def calculatePadding (encoded : Bytes) : ℕ :=
  if encoded.length = 0 then 0
  else
    (if encoded[encoded.length - 1]? = some 61 then 1 else 0) +
      if 1 < encoded.length ∧ encoded[encoded.length - 2]? = some 61 then 1 else 0

/-- Write to a vector from its front on; what does not fit goes beyond it. -/
def store (vector written : Bytes) : Bytes := (Blocks.overwrite vector 0 written).take vector.length

variable (evp : Evp)

def encode (data : Bytes) : Bytes :=
  if data.length = 0 then []
  else
    let encodedSize := calculateEncodedSize data.length
    let (written, outputLen) := evp.encodeBlock data (BitVec.ofNat 32 data.length)
    let result := store (zeros encodedSize) written
    if outputLen.toInt ≤ 0 ∨ outputLen.toInt.toNat ≠ encodedSize then [] else result

/-- What `decode` returns, the size of the vector that it gives to `EVP_DecodeBlock`,
and how many bytes are written from the front of that vector on. -/
structure Decoded where
  value : Bytes
  held : ℕ
  written : ℕ
  deriving DecidableEq

def decode (encoded : Bytes) : Decoded :=
  if encoded.length = 0 then ⟨[], 0, 0⟩
  else if encoded.length % 4 ≠ 0 then ⟨[], 0, 0⟩
  else
    let padding := calculatePadding encoded
    let maxDecodedSize := encoded.length / 4 * 3 - padding
    let (written, outputLen) := evp.decodeBlock encoded (BitVec.ofNat 32 encoded.length)
    let result := store (zeros maxDecodedSize) written
    if outputLen.toInt < 0 ∨ outputLen.toInt.toNat ≠ maxDecodedSize then
      ⟨[], maxDecodedSize, written.length⟩
    else ⟨result, maxDecodedSize, written.length⟩

/-! ### Sizes -/

theorem toInt_ofNat {n : ℕ} (h : n < 2 ^ 31) : (BitVec.ofNat 32 n).toInt = n := by
  have hn : (BitVec.ofNat 32 n).toNat = n := by
    rw [BitVec.toNat_ofNat, Nat.mod_eq_of_lt (by omega)]
  rw [BitVec.toInt_eq_toNat_of_lt (by omega), hn]

theorem store_zeros (written : Bytes) : store (zeros written.length) written = written := by
  simp [store, Blocks.overwrite, zeros]

theorem calculatePadding_append (body : Bytes) (p q r s : UInt8) :
    calculatePadding (body ++ [p, q, r, s]) =
      (if s = 61 then 1 else 0) + if r = 61 then 1 else 0 := by
  have hlength : (body ++ [p, q, r, s]).length = body.length + 4 := by simp
  have hs : (body ++ [p, q, r, s])[body.length + 4 - 1]? = some s := by
    rw [List.getElem?_append_right (by omega), show body.length + 4 - 1 - body.length = 3 by omega]
    rfl
  have hr : (body ++ [p, q, r, s])[body.length + 4 - 2]? = some r := by
    rw [List.getElem?_append_right (by omega), show body.length + 4 - 2 - body.length = 2 by omega]
    rfl
  rw [calculatePadding, hlength, if_neg (by omega), hs, hr]
  simp

theorem calculatePadding_encode (x : Bytes) :
    calculatePadding (standard.encode x) = Sextet.padding x.length := by
  cases x with
  | nil => rfl
  | cons a x =>
    obtain ⟨body, p, q, r, s, hencode, hr, hs⟩ := standard.encode_eq_append (List.cons_ne_nil a x)
    change r = 61 ↔ _ at hr
    change s = 61 ↔ _ at hs
    rw [hencode, calculatePadding_append]
    simp only [hr, hs, Sextet.padding]
    split <;> split <;> omega

/-! ### The two directions -/

variable {evp : Evp}

theorem encode_eq (hevp : evp.Documented) {x : Bytes} (hx : x.length < 2 ^ 29) :
    encode evp x = standard.encode x := by
  cases x with
  | nil => rfl
  | cons a x =>
    have hlength := standard.length_encode (a :: x)
    have hlt : (standard.encode (a :: x)).length < 2 ^ 31 := by omega
    have hpos : 0 < (a :: x).length := Nat.succ_pos _
    rw [encode, if_neg (by omega), hevp.encodeBlock _ hlt]
    dsimp only
    rw [toInt_ofNat hlt, calculateEncodedSize, ← hlength, if_neg (by omega), store_zeros]

/-- A text is decoded if it has no padding; whole groups are written in any case. -/
theorem decode_eq (hevp : evp.Documented) {text bytes : Bytes} (hne : text ≠ [])
    (hlt : text.length < 2 ^ 31) (hdecode : standard.decode text = some bytes) :
    decode evp text = ⟨if calculatePadding text = 0 then bytes else [],
      bytes.length - calculatePadding text, bytes.length⟩ := by
  have hpos := List.length_pos_of_ne_nil hne
  have hlength := standard.length_decode hdecode
  have hbound : bytes.length < 2 ^ 31 := by omega
  rw [decode, if_neg (by omega), if_neg (by omega), hevp.decodeBlock _ _ hlt hdecode]
  dsimp only
  rw [toInt_ofNat hbound, show text.length / 4 * 3 = bytes.length by omega]
  by_cases hpadding : calculatePadding text = 0
  · rw [hpadding, if_neg (by omega), if_pos rfl, Nat.sub_zero, store_zeros]
  · rw [if_pos (by omega), if_neg hpadding]

/-- Any text that ends in padding is written beyond the result. -/
theorem written_le_held_iff (hevp : evp.Documented) {text bytes : Bytes}
    (hlt : text.length < 2 ^ 31) (hdecode : standard.decode text = some bytes) :
    (decode evp text).written ≤ (decode evp text).held ↔ calculatePadding text = 0 := by
  cases text with
  | nil => exact ⟨fun _ => rfl, fun _ => Nat.le_refl 0⟩
  | cons a text =>
    have hlength := standard.length_decode hdecode
    have hpos : 0 < (a :: text).length := Nat.succ_pos _
    rw [decode_eq hevp (List.cons_ne_nil a text) hlt hdecode]
    dsimp only
    omega

/-- What `decode` makes of a text that `encode` has made. -/
theorem decode_encode_eq (hevp : evp.Documented) {x : Bytes} (hne : x ≠ []) (hx : x.length < 2 ^ 29) :
    decode evp (encode evp x) = ⟨if x.length % 3 = 0 then x else [], x.length,
      x.length + Sextet.padding x.length⟩ := by
  have hlength := standard.length_encode x
  have hpos := List.length_pos_of_ne_nil hne
  have hdecode := standard.decode_encode_padded x
  rw [encode_eq hevp hx, decode_eq hevp (List.ne_nil_of_length_pos (by omega)) (by omega) hdecode,
    calculatePadding_encode]
  simp only [Sextet.padding_eq_zero_iff, List.length_append, List.length_replicate, Nat.add_sub_cancel]
  split
  next hthree => rw [(Sextet.padding_eq_zero_iff _).mpr hthree, List.replicate_zero, List.append_nil]
  next => rfl

/-- The decoder returns what was encoded, within the memory of its result, if and
only if the length is a multiple of three. -/
theorem decode_encode_iff (hevp : evp.Documented) (x : Bytes) (hx : x.length < 2 ^ 29) :
    ((decode evp (encode evp x)).value = x ∧
      (decode evp (encode evp x)).written ≤ (decode evp (encode evp x)).held) ↔
      x.length % 3 = 0 := by
  cases x with
  | nil => exact ⟨fun _ => rfl, fun _ => ⟨rfl, Nat.le_refl 0⟩⟩
  | cons a x =>
    rw [decode_encode_eq hevp (List.cons_ne_nil a x) hx]
    dsimp only
    constructor
    · rintro ⟨-, hwritten⟩
      exact (Sextet.padding_eq_zero_iff _).mp (by omega)
    · intro hthree
      rw [if_pos hthree, (Sextet.padding_eq_zero_iff _).mpr hthree]
      exact ⟨rfl, Nat.le_refl _⟩

end Base64

/-- The functions as they are documented. -/
def sampleEvp : Evp where
  encodeBlock data _ := (standard.encode data, BitVec.ofNat 32 (standard.encode data).length)
  decodeBlock text _ :=
    match standard.decode text with
    | some bytes => (bytes, BitVec.ofNat 32 bytes.length)
    | none => ([], -1)

theorem documented_sampleEvp : sampleEvp.Documented where
  encodeBlock _ _ := rfl
  decodeBlock text bytes _ h := by
    simp only [sampleEvp, h]

theorem decode_encode_hello :
    ((Base64.decode sampleEvp (Base64.encode sampleEvp (utf8 "Hello World!"))).value =
        utf8 "Hello World!" ∧
      (Base64.decode sampleEvp (Base64.encode sampleEvp (utf8 "Hello World!"))).written ≤
        (Base64.decode sampleEvp (Base64.encode sampleEvp (utf8 "Hello World!"))).held) ↔
      (utf8 "Hello World!").length % 3 = 0 :=
  Base64.decode_encode_iff documented_sampleEvp (utf8 "Hello World!") (by decide)

/-- A single byte comes back as nothing, and two bytes are written beyond the result. -/
theorem decode_encode_one_fails : ¬ ∀ evp : Evp, evp.Documented → ∀ x : Bytes, x.length < 2 ^ 29 →
    (Base64.decode evp (Base64.encode evp x)).value = x ∧
      (Base64.decode evp (Base64.encode evp x)).written ≤
        (Base64.decode evp (Base64.encode evp x)).held := by
  intro h
  have hone := (h sampleEvp documented_sampleEvp [65] (by decide)).1
  rw [Base64.decode_encode_eq documented_sampleEvp (by simp) (by decide)] at hone
  cases hone

end Zinc.Util
