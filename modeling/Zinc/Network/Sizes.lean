import Zinc.Network.Frame

/-! The sizes that `ZincConnection::read` computes from a client's bytes. A
length has to leave room for the VarInt that is subtracted from it; where it
does not, the subtraction wraps. The VarInt behind an uncompressed length may
even end behind the frame, since it is read before the lengths are compared. -/

namespace Zinc.Network

open Throw Traced Buffer Buffer.ByteBuffer

/-- No subtraction wraps, and no size exceeds what an `int` can announce. -/
def Call.Safe : Call → Prop
  | .sub a b => b ≤ a
  | .readBytes length => length < 2 ^ 31
  | .uncompress size => size < 2 ^ 31

/-- `length` bytes have room for the number in front of `a`. -/
def HasRoom (length : ℕ) (a : Bytes) : Prop := 0 < length ∧ (varInt a).toNat < 128 ^ length

theorem hasRoom_iff {length : ℕ} {a : Bytes} :
    HasRoom length a ↔ Base128.size (varInt a).toNat ≤ length := by
  have hpos := Base128.size_pos (varInt a).toNat
  constructor
  · rintro ⟨hlen, hlt⟩
    exact (Base128.size_le_iff hlen _).mpr hlt
  · intro h
    have hlen : 0 < length := by omega
    exact ⟨hlen, (Base128.size_le_iff hlen _).mp h⟩

theorem wrapSub_of_le {a b : ℕ} (h : b ≤ a) (ha : a < sizeRange) : wrapSub a b = a - b := by
  rw [wrapSub, show a + sizeRange - b = a - b + sizeRange by omega, Nat.add_mod_right,
    Nat.mod_eq_of_lt (by omega)]

/-- The wrapped difference of two lengths is no size of a buffer. -/
theorem maxSize_lt_wrapSub {a b : ℕ} (h : a < b) (hb : b < 2 ^ 62) : maxSize < wrapSub a b := by
  have hmod : (a + sizeRange - b) % sizeRange = a + sizeRange - b :=
    Nat.mod_eq_of_lt (by unfold sizeRange; omega)
  rw [wrapSub, hmod]
  unfold maxSize sizeRange
  omega

/-- A negative `int` is no size of a buffer. -/
theorem toSize_of_le_maxSize {value : BitVec 32} (h : toSize value ≤ maxSize) :
    toSize value = value.toNat ∧ value.toNat < 2 ^ 31 := by
  unfold toSize maxSize at *
  rw [BitVec.toNat_signExtend] at *
  have hlt := value.isLt
  split at h
  next hmsb => simp [BitVec.toNat_setWidth] at h
  next hmsb =>
    rw [if_neg hmsb] at *
    have := BitVec.msb_eq_false_iff_two_mul_lt.mp (by simpa using hmsb)
    simp [BitVec.toNat_setWidth]
    omega

theorem toSize_eq_zero {value : BitVec 32} : toSize value = 0 ↔ value = 0 := by
  constructor
  · intro h
    rw [← toInt_toSize value, h]
    rfl
  · rintro rfl
    rfl

theorem allCalls_slice {n : ℕ} {a : Bytes} : AllCalls Call.Safe (slice n a) ↔ n < 2 ^ 31 := by
  unfold slice
  rw [allCalls_call]
  rfl

theorem result_slice {n : ℕ} {a : Bytes} (hn : n ≤ maxSize) : (slice n a).result = .ok (a.take n) := by
  unfold slice
  rw [if_neg (Nat.not_lt.mpr hn)]
  rfl

theorem result_slice_of_lt {n : ℕ} {a : Bytes} (hn : maxSize < n) :
    (slice n a).result = .error .lengthError := by
  unfold slice
  rw [if_pos hn]
  rfl

/-- A slice whose length is the difference of two lengths. -/
theorem result_slice_wrapSub {length consumed : ℕ} (hlen : length < 2 ^ 31) (hconsumed : consumed < 2 ^ 62)
    (a : Bytes) : (slice (wrapSub length consumed) a).result =
      if consumed ≤ length then .ok (a.take (length - consumed)) else .error .lengthError := by
  split
  next h =>
    rw [wrapSub_of_le h (by unfold sizeRange; omega), result_slice (le_maxSize (by omega))]
  next h => exact result_slice_of_lt (maxSize_lt_wrapSub (Nat.lt_of_not_le h) hconsumed)

theorem allCalls_idAndData {length counted : ℕ} {a : Bytes} (hlen : length < 2 ^ 31) :
    AllCalls Call.Safe (idAndData length counted a) ↔
      Base128.size (varInt a).toNat + counted ≤ length := by
  unfold idAndData subSize
  rw [allCalls_call_ok_bind, allCalls_bind_iff_left _ (fun _ => allCalls_pure _), allCalls_slice]
  refine and_iff_left_of_imp fun h => ?_
  change Base128.size (varInt a).toNat + counted ≤ length at h
  rw [wrapSub_of_le h (by unfold sizeRange; omega)]
  omega

/-- Uncompressed data has room for its id: its length is the announced one. -/
theorem uncompress_hasRoom {libs : Libraries} {compressed uncompressed : Bytes} {size : ℕ}
    (hsize : 0 < size) (h : uncompress libs compressed size = .ok uncompressed) :
    HasRoom size (memory uncompressed) := by
  refine ⟨hsize, ?_⟩
  have hlen : uncompressed.length ≤ size := by
    unfold uncompress at h
    split at h
    next => simp at h
    next =>
      split at h
      next =>
        obtain rfl := Except.ok.inj h
        exact List.length_take_le _ _
      next =>
        obtain rfl := Except.ok.inj h
        exact Nat.zero_le _
  unfold varInt
  cases hdec : Base128.decode 5 (memory uncompressed) with
  | none => simp
  | some n =>
    have hn := Base128.decode_append_zeros_lt hdec
    have hpow := Nat.pow_le_pow_right (show 0 < 128 by omega) hlen
    rw [Option.getD_some, BitVec.toNat_ofNat]
    exact lt_of_le_of_lt (Nat.mod_le _ _) (lt_of_lt_of_le hn hpow)

/-- The sizes of a frame with `length` bytes. -/
theorem allCalls_frameBody {libs : Libraries} {isCompressed : Bool} {length : ℕ} {a : Bytes}
    (hlen : length < 2 ^ 31) :
    AllCalls Call.Safe (frameBody libs isCompressed length a) ↔
      if isCompressed then
        if varInt a = 0 then 1 < length ∧ HasRoom (length - 1) (afterVarInt a)
        else HasRoom length a ∧ (varInt a).toNat < 2 ^ 31
      else HasRoom length a := by
  unfold frameBody
  split
  next =>
    by_cases hzero : varInt a = 0
    · rw [if_neg (by rw [hzero]; decide), if_pos hzero, allCalls_idAndData hlen, hasRoom_iff]
      have := Base128.size_pos (varInt (afterVarInt a)).toNat
      omega
    · rw [if_pos (toSize_eq_zero.not.mpr hzero), if_neg hzero, subSize, allCalls_call_ok_bind, hasRoom_iff]
      refine and_congr_right fun hroom => ?_
      have hn : wrapSub length (Base128.size (varInt a).toNat) < 2 ^ 31 := by
        rw [wrapSub_of_le hroom (by unfold sizeRange; omega)]
        omega
      rw [allCalls_bind, and_iff_right (allCalls_slice.mpr hn)]
      constructor
      · intro h
        have hcall := h _ (result_slice (le_maxSize (by omega)))
        rw [allCalls_bind, allCalls_call] at hcall
        have hsize : toSize (varInt a) < 2 ^ 31 := hcall.1
        have := toSize_of_le_maxSize (le_maxSize (show toSize (varInt a) < 2 ^ 31 by omega))
        omega
      · intro hsize compressed _
        rw [allCalls_bind, allCalls_call]
        have hsize' := toSize_of_lt hsize
        refine ⟨by change toSize (varInt a) < 2 ^ 31; omega, fun uncompressed h => ?_⟩
        rw [allCalls_idAndData (by omega), Nat.add_zero, ← hasRoom_iff]
        have hpos := toSize_eq_zero.not.mpr hzero
        exact uncompress_hasRoom (by omega) h
  next => rw [allCalls_idAndData hlen, hasRoom_iff, Nat.add_zero]

/-- The frame in front of a content, if it is complete, has room for each VarInt
in it and announces no negative size. -/
def ContentFits (isCompressed : Bool) (content : Bytes) : Prop :=
  let length := toSize (varInt (memory content))
  let body := afterVarInt (memory content)
  length ≤ content.length →
    if isCompressed then
      if varInt body = 0 then 1 < length ∧ HasRoom (length - 1) (afterVarInt body)
      else HasRoom length body ∧ (varInt body).toNat < 2 ^ 31
    else HasRoom length body

theorem allCalls_readPlain {libs : Libraries} {content : Bytes} {connection : ZincConnection}
    (hmax : content.length ≤ maxSize) :
    AllCalls Call.Safe (readPlain libs content connection) ↔
      ContentFits connection.isCompressed content := by
  by_cases hlen : toSize (varInt (memory content)) ≤ content.length
  · have hint := toSize_of_le_maxSize (hlen.trans hmax)
    rw [readPlain_of_le hlen, allCalls_bind_iff_left _ (fun _ => allCalls_pure _),
      allCalls_frameBody (by omega)]
    exact ⟨fun h _ => h, fun h => h hlen⟩
  · rw [readPlain_of_lt (Nat.not_le.mp hlen)]
    exact ⟨fun _ h => absurd h hlen, fun _ => allCalls_pure _⟩

/-- The decrypted input, if there is one, has sizes that fit. -/
def SizesFit (libs : Libraries) (connection : ZincConnection) : Prop :=
  ∀ content connection', plain libs connection = .ok (content, connection') →
    ContentFits connection.isCompressed content

/-- The inputs on which `read` computes and asks for no size that is too large. -/
theorem read_safe_iff (libs : Libraries) (connection : ZincConnection) :
    AllCalls Call.Safe (ZincConnection.read libs connection) ↔ SizesFit libs connection := by
  rw [read_eq, allCalls_bind, and_iff_right (allCalls_lift _)]
  constructor
  · intro h content connection' hplain
    obtain ⟨hmax, decrypt, hconnection⟩ := plain_eq_ok hplain
    have hfit := (allCalls_readPlain hmax).mp (h (content, connection') hplain)
    rwa [hconnection] at hfit
  · rintro h ⟨content, connection'⟩ hplain
    obtain ⟨hmax, decrypt, hconnection⟩ := plain_eq_ok hplain
    apply (allCalls_readPlain hmax).mpr
    rw [hconnection]
    exact h content connection' hplain

/-- A length of 0 leaves no room for the id. -/
theorem not_read_safe : ¬ ∀ libs connection,
    AllCalls Call.Safe (ZincConnection.read libs connection) := by
  intro h
  have hcalls := h copying (waiting [0])
  have hmax : [(0 : UInt8)].length ≤ maxSize := by unfold maxSize; decide
  rw [read_eq, plain_waiting copying hmax, lift_ok_bind, allCalls_readPlain hmax] at hcalls
  have hlength : varInt (memory [0]) = 0 := (varInt_cons (c := 0) (by decide) _).1
  have hroom := hcalls (by rw [hlength]; decide)
  rw [hlength] at hroom
  exact absurd hroom.1 (by decide)

end Zinc.Network
