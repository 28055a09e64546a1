import Zinc.Nbt.LittleEndian

/-! Plain children read as network children. The reader of the network format falls behind
where the plain format has more bytes for the same value, which then are zeros, and reads
zeros from there on; it never catches up. That it gets ahead takes a length, an Int or a
Long whose bytes all have the high bit, so that the VarInt does not end inside them. Where
no such number is written, only plain roots come back. -/

namespace Zinc.Nbt

open Throw Buffer Buffer.InternalByteBuffer Buffer.ByteBuffer NBTElementType NBTElement

/-! ### VarInts in fixed-width numbers -/

/-- The number that a VarInt ends inside of is larger, and not close to the largest one. -/
theorem value_of_decode {c u : ℕ} {bs : Bytes} (h : Base128.decode c bs = some u) :
    u ≤ Endian.value bs ∧ Endian.value bs + u / 2 + 2 ≤ 256 ^ bs.length := by
  induction c generalizing bs u with
  | zero => cases h
  | succ c ih =>
    cases bs with
    | nil => cases h
    | cons b bs =>
      have hlt := Endian.value_lt bs
      have hb := b.toNat_lt
      rw [Base128.decode] at h
      rw [Endian.value, List.length_cons, Nat.pow_succ]
      split at h
      next hlow =>
        obtain rfl := Option.some.inj h
        omega
      next hhigh =>
        obtain ⟨m, hm, rfl⟩ := Option.map_eq_some_iff.mp h
        have hrest := ih hm
        omega

/-- The value behind zigzag. -/
theorem toNat_unZigZag {w : ℕ} (hw : 0 < w) (uv : BitVec w) :
    ((uv >>> 1) ^^^ (-(uv &&& 1))).toNat =
      if uv.toNat % 2 = 0 then uv.toNat / 2 else 2 ^ w - 1 - uv.toNat / 2 := by
  have hone : (1 : BitVec w).toNat = 1 := BitVec.toNat_one hw
  have hlow : (uv &&& 1).toNat = uv.toNat % 2 := by
    rw [BitVec.toNat_and, hone, Nat.and_one_is_mod]
  have hhalf : (uv >>> 1).toNat = uv.toNat / 2 := by
    rw [BitVec.toNat_ushiftRight, Nat.shiftRight_eq_div_pow, pow_one]
  by_cases heven : uv.toNat % 2 = 0
  · have hzero : uv &&& 1 = 0 := BitVec.eq_of_toNat_eq (by rw [hlow, heven]; rfl)
    have hneg : (-0 : BitVec w) = 0 := BitVec.neg_zero w
    rw [if_pos heven, hzero, hneg]
    simpa using hhalf
  · have hunit : uv &&& 1 = 1 := BitVec.eq_of_toNat_eq (by rw [hlow, hone]; omega)
    have hneg : (-1 : BitVec w) = BitVec.allOnes w := BitVec.neg_one_eq_allOnes
    rw [if_neg heven, hunit, hneg, BitVec.xor_allOnes, BitVec.toNat_not, hhalf]

/-- A word that stays the same behind zeros. -/
theorem eq_zeros_of_take {L : ℕ} (hL : 1 ≤ L) {w s : Bytes}
    (h : (zeros L ++ (w ++ s)).take w.length = w) : w = zeros w.length := by
  have hall : ∀ i, ∀ hi : i < w.length, w[i] = 0 := by
    intro i
    induction i using Nat.strong_induction_on with
    | _ i ih =>
      intro hi
      have hget : w[i]? = (zeros L ++ (w ++ s))[i]? := by
        conv_lhs => rw [← h]
        rw [List.getElem?_take_of_lt hi]
      by_cases hlt : i < L
      · rw [List.getElem?_append_left (by rwa [length_zeros]), List.getElem?_eq_getElem hi, zeros,
          List.getElem?_replicate_of_lt hlt] at hget
        exact Option.some.inj hget
      · rw [List.getElem?_append_right (by rw [length_zeros]; omega), length_zeros,
          List.getElem?_append_left (by omega), List.getElem?_eq_getElem hi,
          List.getElem?_eq_getElem (by omega)] at hget
        rw [Option.some.inj hget]
        exact ih (i - L) (by omega) (by omega)
  rw [zeros, List.eq_replicate_iff]
  refine ⟨rfl, fun c hc => ?_⟩
  obtain ⟨i, hi, rfl⟩ := List.getElem_of_mem hc
  exact hall i hi

theorem zeros_succ_append (n : ℕ) (s : Bytes) : zeros (n + 1) ++ s = 0 :: (zeros n ++ s) := rfl

theorem zeros_append_cons (n : ℕ) (s : Bytes) : zeros n ++ 0 :: s = zeros (n + 1) ++ s := by
  rw [← List.singleton_append, ← List.append_assoc]
  exact congrArg (· ++ s) (zeros_append n 1)

/-- A byte without the high bit. -/
def HasLow (w : Bytes) : Prop := ∃ c ∈ w, c.toNat < 128

/-- A VarInt that ends inside a word. -/
theorem decode_of_hasLow {c : ℕ} {w : Bytes} (hc : w.length ≤ c) (h : HasLow w) :
    ∃ u, Base128.decode c w = some u := by
  obtain ⟨b, hb, hlow⟩ := h
  refine Option.ne_none_iff_exists'.mp fun hnone => ?_
  rw [Base128.decode_eq_none_iff, List.take_of_length_le hc] at hnone
  have := hnone b hb
  omega

/-! ### Falling behind -/

namespace Flat

/-- Reading the word `w` behind unread zeros. If the result is `a`, the reader has passed the word
and there were no zeros, for which `P` holds, or zeros are still in front of what follows. -/
def Drifts {α : Type} (P : Prop) (x : Parser α) (a : α) (w : Bytes) : Prop :=
  ∀ L s r, s ≠ [] → x (zeros L ++ (w ++ s)) = .ok (a, r) →
    (L = 0 ∧ P ∧ r = s) ∨ ∃ L', 1 ≤ L' ∧ r = zeros L' ++ s

namespace Drifts

variable {α β : Type} {P Q : Prop} {x : Parser α} {a : α} {w : Bytes}

theorem of_pure (hP : P) (a : α) : Drifts P (pure a) a [] := by
  intro L s r _ hrun
  obtain ⟨-, rfl⟩ := Prod.mk.inj (Except.ok.inj hrun)
  cases L with
  | zero => exact .inl ⟨rfl, hP, rfl⟩
  | succ L => exact .inr ⟨L + 1, Nat.le_add_left _ _, rfl⟩

theorem map (hx : Drifts P x a w) (f : α → β) (hf : ∀ a', f a' = f a → a' = a) :
    Drifts P (x >>= fun a => pure (f a)) (f a) w := by
  intro L s r hs h
  obtain ⟨⟨a', memory⟩, hrun, h⟩ := bind_eq_ok.mp h
  obtain ⟨hfa, rfl⟩ := Prod.mk.inj (Except.ok.inj h)
  obtain rfl := hf a' hfa
  exact hx L s _ hs hrun

theorem mono (hx : Drifts P x a w) (h : P → Q) : Drifts Q x a w := by
  intro L s r hs hrun
  obtain ⟨hL, hP, hr⟩ | hdrift := hx L s r hs hrun
  · exact .inl ⟨hL, h hP, hr⟩
  · exact .inr hdrift

/-- Two words after each other. -/
theorem append {y : Parser β} {b : β} {v : Bytes} {L : ℕ} {s r r' : Bytes} (hs : s ≠ [])
    (hx : Drifts P x a w) (hy : Drifts Q y b v) (h₁ : x (zeros L ++ (w ++ (v ++ s))) = .ok (a, r))
    (h₂ : y r = .ok (b, r')) : (L = 0 ∧ (P ∧ Q) ∧ r' = s) ∨ ∃ L', 1 ≤ L' ∧ r' = zeros L' ++ s := by
  obtain ⟨rfl, hP, rfl⟩ | ⟨L₁, hL₁, rfl⟩ := hx L (v ++ s) r (by simp [hs]) h₁
  · obtain ⟨-, hQ, rfl⟩ | hdrift := hy 0 s r' hs h₂
    · exact .inl ⟨rfl, ⟨hP, hQ⟩, rfl⟩
    · exact .inr hdrift
  · obtain ⟨rfl, -, -⟩ | hdrift := hy L₁ s r' hs h₂
    · omega
    · exact .inr hdrift

theorem replicate {enc : α → Bytes} {P : α → Prop} {as : List α}
    (h : ∀ a ∈ as, Drifts (P a) x a (enc a)) :
    Drifts (∀ a ∈ as, P a) (Throw.replicate x as.length) as (as.flatMap enc) := by
  induction as with
  | nil => exact of_pure (fun _ h => absurd h List.not_mem_nil) []
  | cons a as ih =>
    rw [List.forall_mem_cons] at h
    intro L s r hs hrun
    obtain ⟨⟨a', memory⟩, hfirst, hrun⟩ := bind_eq_ok.mp hrun
    obtain ⟨⟨as', memory'⟩, hrest, hrun⟩ := bind_eq_ok.mp hrun
    obtain ⟨heq, rfl⟩ := Prod.mk.inj (Except.ok.inj hrun)
    obtain ⟨rfl, rfl⟩ := List.cons.inj heq
    rw [List.flatMap_cons, List.append_assoc] at hfirst
    rw [List.forall_mem_cons]
    exact append hs h.1 (ih h.2) hfirst hrest

end Drifts

/-! ### Readers that fall behind -/

theorem drifts_readByte (c : UInt8) : Drifts True readByte c [c] := by
  intro L s r hs h
  cases L with
  | zero =>
    obtain ⟨-, rfl⟩ := Prod.mk.inj (Except.ok.inj h)
    exact .inl ⟨rfl, trivial, rfl⟩
  | succ L =>
    obtain ⟨rfl, rfl⟩ := Prod.mk.inj (Except.ok.inj h)
    exact .inr ⟨L + 1, Nat.le_add_left _ _, zeros_append_cons L s⟩

theorem drifts_readBytes {bytes : Bytes} (hmax : bytes.length ≤ maxSize) :
    Drifts True (readBytes bytes.length) bytes bytes := by
  intro L s r hs h
  rw [readBytes, if_neg (by omega)] at h
  obtain ⟨htake, rfl⟩ := Prod.mk.inj (Except.ok.inj h)
  cases L with
  | zero => exact .inl ⟨rfl, trivial, List.drop_left⟩
  | succ L =>
    -- the zeros in front are the bytes as well
    have hzeros := eq_zeros_of_take (Nat.le_add_left 1 L) htake
    have hshift : zeros (L + 1) ++ (bytes ++ s) = zeros bytes.length ++ (zeros (L + 1) ++ s) := by
      conv_lhs => rw [hzeros]
      rw [← List.append_assoc, zeros_append, Nat.add_comm, ← zeros_append, List.append_assoc]
    rw [hshift]
    exact .inr ⟨L + 1, Nat.le_add_left _ _, List.drop_left' (length_zeros _)⟩

theorem drifts_readNumeric {k : ℕ} (hk : k ≤ maxSize) (value : BitVec (8 * k)) :
    Drifts True (readNumeric false k) value (numericBytes false value) := by
  intro L s r hs h
  obtain ⟨⟨bytes, memory⟩, hbytes, h⟩ := bind_eq_ok.mp h
  obtain ⟨hvalue, rfl⟩ := Prod.mk.inj (Except.ok.inj h)
  have hlen : bytes.length = k := by
    rw [readBytes, if_neg (by omega)] at hbytes
    obtain ⟨rfl, -⟩ := Prod.mk.inj (Except.ok.inj hbytes)
    simp
    omega
  obtain rfl : bytes = numericBytes false value := by rw [← hvalue, numericBytes_numericOfBytes false hlen]
  have hdrift := drifts_readBytes (show (numericBytes false value).length ≤ maxSize by omega)
  rw [hlen] at hdrift
  exact hdrift L s _ hs hbytes

theorem readVarNumeric_inside {k u : ℕ} {w : Bytes}
    (h : Base128.decode (varNumericMaxSize k) w = some u) (s : Bytes) :
    readVarNumeric k (w ++ s) =
      .ok (BitVec.ofNat (8 * k) u, w.drop (Base128.span (varNumericMaxSize k) w) ++ s) := by
  obtain ⟨hdec, hspan⟩ := Base128.decode_append h s
  rw [readVarNumeric, hdec]
  simp only
  rw [hspan, List.drop_append_of_le_length (Base128.span_le_length _ _)]

theorem readVarNumeric_zero (k : ℕ) (s : Bytes) : readVarNumeric k (0 :: s) = .ok (0, s) :=
  readVarNumeric_inside (k := k) (u := 0) (w := [0]) rfl s

theorem readZigZagVarNumeric_zero (k : ℕ) (s : Bytes) :
    readZigZagVarNumeric k (0 :: s) = .ok (0, s) := by
  rw [readZigZagVarNumeric, bind_of_eq_ok (readVarNumeric_zero k s)]
  have hvalue : ((0 : BitVec (8 * k)) >>> 1) ^^^ (-((0 : BitVec (8 * k)) &&& 1)) = 0 := by simp
  rw [hvalue]
  rfl

theorem numericBytes_zero (k : ℕ) : numericBytes false (0 : BitVec (8 * k)) = zeros k := by
  have hbytes : ∀ k, Endian.bytes k 0 = zeros k := fun k => by
    induction k with
    | zero => rfl
    | succ k ih => rw [Endian.bytes, Nat.zero_div, ih]; rfl
  rw [numericBytes, if_neg Bool.false_ne_true]
  exact hbytes k

/-- A number that is read back as a VarInt behind zigzag is zero. -/
theorem eq_zero_of_readZigZag {k : ℕ} (hk : 0 < k) {value : BitVec (8 * k)}
    (hlow : HasLow (numericBytes false value)) {s r : Bytes}
    (h : readZigZagVarNumeric k (numericBytes false value ++ s) = .ok (value, r)) : value = 0 := by
  have hlen := length_numericBytes false value
  obtain ⟨u, hu⟩ := decode_of_hasLow (c := varNumericMaxSize k)
    (by unfold varNumericMaxSize; omega) hlow
  obtain ⟨hle, hroom⟩ := value_of_decode hu
  have hlt := value.isLt
  have hpow : 256 ^ k = 2 ^ (8 * k) := by rw [show 256 = 2 ^ 8 from rfl, ← Nat.pow_mul]
  have hvalue : Endian.value (numericBytes false value) = value.toNat := by
    rw [numericBytes, if_neg Bool.false_ne_true, Endian.value_bytes_of_lt (by rwa [hpow])]
  rw [hvalue] at hle hroom
  rw [hlen, hpow] at hroom
  have hu' : u < 2 ^ (8 * k) := lt_of_le_of_lt hle hlt
  rw [readZigZagVarNumeric, bind_of_eq_ok (readVarNumeric_inside hu s)] at h
  obtain ⟨hzigzag, -⟩ := Prod.mk.inj (Except.ok.inj h)
  have hnat := toNat_unZigZag (by omega) (BitVec.ofNat (8 * k) u)
  rw [hzigzag, BitVec.toNat_ofNat, Nat.mod_eq_of_lt hu'] at hnat
  have hzero : value.toNat = 0 := by
    split at hnat <;> omega
  exact BitVec.eq_of_toNat_eq (by rw [hzero]; rfl)

theorem drifts_readZigZagVarNumeric {k : ℕ} (hk : 2 ≤ k) {value : BitVec (8 * k)}
    (hlow : HasLow (numericBytes false value)) :
    Drifts False (readZigZagVarNumeric k) value (numericBytes false value) := by
  intro L s r hs h
  obtain ⟨k, rfl⟩ : ∃ j, k = j + 1 := ⟨k - 1, by omega⟩
  cases L with
  | zero =>
    obtain rfl := eq_zero_of_readZigZag (by omega) hlow h
    rw [numericBytes_zero] at h
    have hread := (readZigZagVarNumeric_zero (k + 1) (zeros k ++ s)).symm.trans h
    obtain ⟨-, rfl⟩ := Prod.mk.inj (Except.ok.inj hread)
    exact .inr ⟨k, by omega, rfl⟩
  | succ L =>
    have hread := (readZigZagVarNumeric_zero (k + 1) (zeros L ++ (numericBytes false value ++ s))).symm.trans h
    obtain ⟨rfl, rfl⟩ := Prod.mk.inj (Except.ok.inj hread)
    refine .inr ⟨L + (k + 1), by omega, ?_⟩
    rw [numericBytes_zero, ← List.append_assoc, zeros_append]

variable {settings : NBTSettings}

theorem readLength_zero (hnet : settings.isNetwork = true) (s : Bytes) :
    readLength false settings (0 :: s) = .ok (0, s) := by
  rw [readLength, readInt, readNumber, if_neg Bool.false_ne_true, if_pos hnet,
    bind_of_eq_ok (readZigZagVarNumeric_zero 4 s)]
  rfl

theorem drifts_readLength (hnet : settings.isNetwork = true) {n : ℕ} (hn : n < 2 ^ 32)
    (hlow : HasLow (count32 false n)) : Drifts False (readLength false settings) n (count32 false n) := by
  have hread := (drifts_readZigZagVarNumeric (k := 4) (by decide) hlow).map (fun length => length.toNat)
    fun v h => BitVec.eq_of_toNat_eq h
  rw [BitVec.toNat_ofNat, Nat.mod_eq_of_lt hn] at hread
  rw [readLength, readInt, readNumber, if_neg Bool.false_ne_true, if_pos hnet]
  exact hread

/-- A length that ends inside a word. -/
theorem readLength_inside (hnet : settings.isNetwork = true) {w s memory : Bytes} {L length : ℕ}
    (hw : w.length ≤ 5) (hlow : HasLow w)
    (h : readLength false settings (zeros L ++ (w ++ s)) = .ok (length, memory)) :
    ∃ pre, memory = pre ++ s := by
  rw [readLength, readInt, readNumber, if_neg Bool.false_ne_true, if_pos hnet] at h
  obtain ⟨⟨value, memory'⟩, hvalue, h⟩ := bind_eq_ok.mp h
  obtain ⟨-, rfl⟩ := Prod.mk.inj (Except.ok.inj h)
  obtain ⟨⟨uv, memory'⟩, huv, hvalue⟩ := bind_eq_ok.mp hvalue
  obtain ⟨-, rfl⟩ := Prod.mk.inj (Except.ok.inj hvalue)
  cases L with
  | zero =>
    obtain ⟨u, hu⟩ := decode_of_hasLow (c := varNumericMaxSize 4) hw hlow
    have hread := (readVarNumeric_inside hu s).symm.trans huv
    obtain ⟨-, rfl⟩ := Prod.mk.inj (Except.ok.inj hread)
    exact ⟨_, rfl⟩
  | succ L =>
    have hread := (readVarNumeric_zero 4 (zeros L ++ (w ++ s))).symm.trans huv
    obtain ⟨-, rfl⟩ := Prod.mk.inj (Except.ok.inj hread)
    exact ⟨zeros L ++ w, (List.append_assoc _ _ _).symm⟩

theorem count16_eq {n : ℕ} (h : n ≤ 65535) :
    ∃ lo hi, count16 false n = [lo, hi] ∧ n = lo.toNat + 256 * hi.toNat := by
  have hvalue : Endian.value (count16 false n) = n := by
    rw [count16, numericBytes, if_neg Bool.false_ne_true, BitVec.toNat_ofNat,
      Nat.mod_eq_of_lt (show n < 2 ^ 16 by omega), Endian.value_bytes_of_lt (show n < 256 ^ 2 by omega)]
  refine ⟨_, _, rfl, ?_⟩
  conv_lhs => rw [← hvalue]
  rfl

theorem toSize_ofNat_toNat (n : ℕ) (h : n ≤ 65535) : toSize (BitVec.ofNat (8 * 4) n) = n :=
  toSize_ofNat (by omega)

/-- The length of a tag or a string is its own VarInt only below 128. -/
theorem drifts_readString {bytes : Bytes} (h : bytes.length ≤ 65535)
    (hlow : HasLow (count16 false bytes.length)) : Drifts False readString bytes (text false bytes) := by
  intro L s r hs hrun
  obtain ⟨lo, hi, hcount, hlen⟩ := count16_eq h
  rw [hcount] at hlow
  rw [text, hcount] at hrun
  cases L with
  | zero =>
    by_cases hlo : lo.toNat < 128
    · have hdec : Base128.decode (varNumericMaxSize 4) [lo] = some lo.toNat := if_pos hlo
      have hspan : Base128.span (varNumericMaxSize 4) [lo] = 1 := if_pos hlo
      have hread := readVarNumeric_inside (k := 4) hdec (hi :: (bytes ++ s))
      rw [hspan] at hread
      have hrun : readBytes (toSize (BitVec.ofNat (8 * 4) lo.toNat)) (hi :: (bytes ++ s)) =
          .ok (bytes, r) := (bind_of_eq_ok hread).symm.trans hrun
      rw [toSize_ofNat_toNat _ (by omega), readBytes, if_neg (by unfold maxSize; omega)] at hrun
      obtain ⟨htake, rfl⟩ := Prod.mk.inj (Except.ok.inj hrun)
      have hle := congrArg List.length htake
      rw [List.length_take] at hle
      obtain rfl : hi = 0 := UInt8.toNat_inj.mp (show hi.toNat = 0 by omega)
      have hlen' : lo.toNat = bytes.length := by omega
      rw [hlen'] at htake ⊢
      have hzeros := eq_zeros_of_take (L := 1) le_rfl htake
      refine .inr ⟨1, le_rfl, ?_⟩
      have hshift : (0 : UInt8) :: (bytes ++ s) = zeros bytes.length ++ (zeros 1 ++ s) := by
        conv_lhs => rw [hzeros]
        rw [← List.append_assoc, zeros_append]
        rfl
      rw [hshift]
      exact List.drop_left' (length_zeros _)
    · have hhi : hi.toNat < 128 := by
        obtain ⟨c, hc, hc'⟩ := hlow
        simp only [List.mem_cons, List.not_mem_nil, or_false] at hc
        obtain rfl | rfl := hc
        · exact absurd hc' hlo
        · exact hc'
      have hdec : Base128.decode (varNumericMaxSize 4) [lo, hi] =
          some (lo.toNat % 128 + 128 * hi.toNat) := by
        rw [show varNumericMaxSize 4 = 5 from rfl, Base128.decode, if_neg hlo, Base128.decode, if_pos hhi]
        rfl
      have hread := readVarNumeric_inside (k := 4) hdec (bytes ++ s)
      rw [readString] at hrun
      have hrun := (bind_of_eq_ok hread).symm.trans hrun
      rw [toSize_ofNat_toNat _ (by omega), readBytes, if_neg (by unfold maxSize; omega)] at hrun
      have hle := congrArg List.length (Prod.mk.inj (Except.ok.inj hrun)).1
      rw [List.length_take] at hle
      omega
  | succ L =>
    have hzero := readVarNumeric_zero 4 (zeros L ++ ([lo, hi] ++ bytes ++ s))
    rw [readString, zeros_succ_append, bind_of_eq_ok hzero] at hrun
    obtain ⟨hnil, rfl⟩ := Prod.mk.inj (Except.ok.inj hrun)
    obtain rfl : [] = bytes := hnil
    refine .inr ⟨L + 2, by omega, ?_⟩
    rw [List.length_nil] at hlen
    obtain rfl : lo = 0 := UInt8.toNat_inj.mp (show lo.toNat = 0 by omega)
    obtain rfl : hi = 0 := UInt8.toNat_inj.mp (show hi.toNat = 0 by omega)
    have hmore : ([0, 0] : Bytes) = zeros 2 := rfl
    rw [hmore, List.append_nil, ← List.append_assoc, zeros_append]
    rfl

/-! ### Elements that fall behind -/

/-- A count and as many bytes. -/
theorem drifts_readByteArray (hnet : settings.isNetwork = true) {bytes : Bytes}
    (hlow : HasLow (count32 false bytes.length)) (hn : bytes.length < 2 ^ 32) :
    Drifts False (do
        let length ← readLength false settings
        readBytes length)
      bytes (count32 false bytes.length ++ bytes) := by
  intro L s r hs h
  obtain ⟨⟨length, memory⟩, hlength, h⟩ := bind_eq_ok.mp h
  rw [List.append_assoc] at hlength
  -- the length read is the number of bytes, since there are more behind them
  obtain ⟨pre, rfl⟩ := readLength_inside hnet (by simp [count32]) hlow hlength
  have h : readBytes length (pre ++ (bytes ++ s)) = .ok (bytes, r) := h
  have hmax : ¬ maxSize < length := by
    intro hlarge
    rw [readBytes, if_pos hlarge] at h
    cases h
  have htake := h
  rw [readBytes, if_neg hmax] at htake
  have hlen := congrArg List.length (Prod.mk.inj (Except.ok.inj htake)).1
  have hpos := List.length_pos_iff.mpr hs
  rw [List.length_take, List.length_append, List.length_append] at hlen
  obtain rfl : length = bytes.length := by omega
  exact ((drifts_readLength hnet hn hlow).append hs (drifts_readBytes (by omega)) hlength h).imp
    (fun h => ⟨h.1, h.2.1.1, h.2.2⟩) id

/-- A count and as many numbers. -/
theorem drifts_readNumbers (hnet : settings.isNetwork = true) {k : ℕ} (hk : k ≤ maxSize)
    {values : List (BitVec (8 * k))} (hlow : HasLow (count32 false values.length))
    (hn : values.length < 2 ^ 32) :
    Drifts False (do
        let length ← readLength false settings
        replicate (readNumeric false k) length)
      values (count32 false values.length ++ values.flatMap fun v => numericBytes false v) := by
  intro L s r hs h
  obtain ⟨⟨length, memory⟩, hlength, h⟩ := bind_eq_ok.mp h
  rw [List.append_assoc] at hlength
  obtain rfl : values.length = length := length_of_replicate h
  have hall : Drifts (∀ v ∈ values, True) (replicate (readNumeric false k) values.length) values
      (values.flatMap fun v => numericBytes false v) :=
    Drifts.replicate fun v _ => drifts_readNumeric hk v
  exact ((drifts_readLength hnet hn hlow).append hs hall hlength h).imp
    (fun h => ⟨h.1, h.2.1.1, h.2.2⟩) id

end Flat

/-- Every fixed-width number of the plain format in which the network format has a VarInt contains a
byte without the high bit. -/
def Scalar.Ordinary : Scalar → Prop
  | .int value => HasLow (numericBytes false (k := 4) value)
  | .long value => HasLow (numericBytes false (k := 8) value)
  | .byteArray value => HasLow (count32 false value.length)
  | .string value => HasLow (count16 false value.length)
  | .intArray value => HasLow (count32 false value.length)
  | .longArray value => HasLow (count32 false value.length)
  | _ => True

inductive Ordinary : Tree → Prop
  | scalar {tag : Bytes} {value : Scalar} (htag : HasLow (count16 false tag.length))
      (hvalue : value.Ordinary) : Ordinary (.scalar tag value)
  | list {tag : Bytes} {children : List Tree} (htag : HasLow (count16 false tag.length))
      (hlength : HasLow (count32 false children.length))
      (hchildren : ∀ t ∈ children, Ordinary t) : Ordinary (.list tag children)
  | compound {tag : Bytes} {children : List Tree} (htag : HasLow (count16 false tag.length))
      (hchildren : ∀ t ∈ children, Ordinary t) : Ordinary (.compound tag children)

/-- The children of the root. -/
def Tree.children : Tree → List Tree
  | .scalar _ _ => []
  | .list _ children => children
  | .compound _ children => children

theorem Tree.WellFormed.length_tag {t : Tree} (h : t.WellFormed) : t.tag.length ≤ 65535 := by
  cases h <;> assumption

theorem Ordinary.tag {t : Tree} (h : Ordinary t) : HasLow (count16 false t.tag.length) := by
  cases h <;> assumption

namespace Flat

variable {settings : NBTSettings}

theorem drifts_parseScalar (hnet : settings.isNetwork = true) (tag : Bytes) {value : Scalar}
    (h : value.WellFormed) (ho : value.Ordinary) (hne : value.type ≠ .endTag) :
    Drifts (Rigid (.scalar tag value)) (parseScalar false settings value.type) value
      (value.payload false) := by
  cases value with
  | endTag => exact absurd rfl hne
  | byte value => exact (drifts_readByte value).map _ fun _ h => Scalar.byte.inj h
  | short value =>
    exact (drifts_readNumeric (k := 2) (by decide) value).map _ fun _ h => Scalar.short.inj h
  | int value =>
    have hread : Drifts False (readInt false settings) value (numericBytes false (k := 4) value) := by
      rw [readInt, readNumber, if_neg Bool.false_ne_true, if_pos hnet]
      exact drifts_readZigZagVarNumeric (by decide) ho
    exact (hread.map _ fun _ h => Scalar.int.inj h).mono False.elim
  | long value =>
    have hread : Drifts False (readLong false settings) value (numericBytes false (k := 8) value) := by
      rw [readLong, readNumber, if_neg Bool.false_ne_true, if_pos hnet]
      exact drifts_readZigZagVarNumeric (by decide) ho
    exact (hread.map _ fun _ h => Scalar.long.inj h).mono False.elim
  | float value =>
    exact (drifts_readNumeric (k := 4) (by decide) value).map _ fun _ h => Scalar.float.inj h
  | double value =>
    exact (drifts_readNumeric (k := 8) (by decide) value).map _ fun _ h => Scalar.double.inj h
  | byteArray value =>
    have hread := (drifts_readByteArray hnet ho h).map _ fun _ h => Scalar.byteArray.inj h
    rw [bind_assoc] at hread
    exact hread.mono False.elim
  | string value =>
    have hread : Drifts False (readStringValue false settings) value (text false value) := by
      rw [readStringValue, if_neg Bool.false_ne_true, if_neg (by simp [hnet])]
      exact drifts_readString h ho
    exact (hread.map _ fun _ h => Scalar.string.inj h).mono False.elim
  | intArray value =>
    have hread := (drifts_readNumbers hnet (k := 4) (by decide) ho h).map _ fun _ h =>
      Scalar.intArray.inj h
    rw [bind_assoc] at hread
    exact hread.mono False.elim
  | longArray value =>
    have hread := (drifts_readNumbers hnet (k := 8) (by decide) ho h).map _ fun _ h =>
      Scalar.longArray.inj h
    rw [bind_assoc] at hread
    exact hread.mono False.elim
  | other code => exact .of_pure trivial _

variable {A : Allocation}

/-- At a zero byte the loop over the children ends, in front of the writer behind the byte. -/
theorem parseEntries_zero {n : ℕ} {memory r : Bytes} {ts : List Tree}
    (h : parseEntries A n settings (0 :: memory) = .ok (ts, r)) :
    ts = [] ∧ (r = memory ∨ r = 0 :: memory) := by
  cases n with
  | zero => cases h
  | succ n =>
    rw [parseEntries] at h
    obtain ⟨⟨c, memory'⟩, hpeek, h⟩ := bind_eq_ok.mp h
    unfold peek at hpeek
    split at hpeek
    next =>
      obtain ⟨rfl, rfl⟩ := Prod.mk.inj (Except.ok.inj hpeek)
      obtain ⟨rfl, rfl⟩ := Prod.mk.inj (Except.ok.inj h)
      exact ⟨rfl, .inl rfl⟩
    next =>
      split at hpeek
      next => cases hpeek
      next =>
        obtain ⟨rfl, rfl⟩ := Prod.mk.inj (Except.ok.inj hpeek)
        obtain ⟨rfl, rfl⟩ := Prod.mk.inj (Except.ok.inj h)
        exact ⟨rfl, .inr rfl⟩

theorem parseBody_tag {parse : NBTSettings → Parser Tree}
    {parseEntries : NBTSettings → Parser (List Tree)} {type : NBTElementType} {tag memory r : Bytes}
    {t : Tree} (h : parseBody A parse parseEntries settings type tag memory = .ok (t, r)) :
    t.tag = tag := by
  have hscalar : (do
      let value ← parseScalar A.isBigEndian settings type
      pure (Tree.scalar tag value)) memory = .ok (t, r) → t.tag = tag := by
    intro h
    obtain ⟨⟨value, memory₁⟩, -, h⟩ := bind_eq_ok.mp h
    obtain ⟨rfl, -⟩ := Prod.mk.inj (Except.ok.inj h)
    rfl
  cases type with
  | list =>
    obtain ⟨⟨code, memory₁⟩, -, h⟩ := bind_eq_ok.mp h
    obtain ⟨⟨length, memory₂⟩, -, h⟩ := bind_eq_ok.mp h
    obtain ⟨⟨children, memory₃⟩, -, h⟩ := bind_eq_ok.mp h
    obtain ⟨rfl, -⟩ := Prod.mk.inj (Except.ok.inj h)
    rfl
  | compound =>
    obtain ⟨⟨children, memory₁⟩, -, h⟩ := bind_eq_ok.mp h
    obtain ⟨rfl, -⟩ := Prod.mk.inj (Except.ok.inj h)
    rfl
  | _ => exact hscalar h

/-- Behind zeros the loop over the children ends at once. -/
theorem parseEntries_behind {n L : ℕ} (hL : 1 ≤ L) {ts : List Tree} {s r : Bytes}
    (h : parseEntries A n settings (zeros L ++ (Tree.entries false ts ++ ([0] ++ s))) = .ok (ts, r)) :
    ∃ L', 1 ≤ L' ∧ r = zeros L' ++ s := by
  obtain ⟨L, rfl⟩ : ∃ k, L = k + 1 := ⟨L - 1, by omega⟩
  obtain ⟨rfl, rfl | rfl⟩ := parseEntries_zero h
  · exact ⟨L + 1, by omega, zeros_append_cons L s⟩
  · exact ⟨L + 2, by omega, congrArg (0 :: ·) (zeros_append_cons L s)⟩

/-- The payload of an element falls behind, whatever the bound on the recursion. -/
def Falls (A : Allocation) (t : Tree) : Prop :=
  ∀ n settings, settings.isNetwork = true →
    Drifts (Rigid t) (parseBody A (parse A n) (parseEntries A n) settings t.type t.tag) t
      (t.payload false)

/-- The type of a child, and then the reader of its tag. -/
theorem parseHead_entry (hA : A.isBigEndian = false) (hnet : settings.isNetwork = true)
    (harr : settings.isInArray = false) {type type' : NBTElementType} (hne : type ≠ .endTag)
    (hvalid : type.Valid) {memory r tag : Bytes}
    (h : parseHead A.isBigEndian settings (type.toByte :: memory) = .ok ((type', tag), r)) :
    type' = type ∧ readString memory = .ok (tag, r) := by
  have hcode : readByte (type.toByte :: memory) = .ok (type.toByte, memory) := rfl
  rw [parseHead, harr, if_neg Bool.false_ne_true, bind_of_eq_ok hcode, ofByte_toByte hvalid,
    if_neg hne] at h
  obtain ⟨⟨tag', memory'⟩, htag, h⟩ := bind_eq_ok.mp h
  obtain ⟨heq, rfl⟩ := Prod.mk.inj (Except.ok.inj h)
  obtain ⟨rfl, rfl⟩ := Prod.mk.inj heq
  rw [readTag, hnet, if_neg (by decide), hA, if_neg Bool.false_ne_true] at htag
  exact ⟨rfl, htag⟩

theorem drifts_parseEntries (hA : A.isBigEndian = false) (hnet : settings.isNetwork = true)
    (harr : settings.isInArray = false) {ts : List Tree} (htype : ∀ t ∈ ts, t.type ≠ .endTag)
    (hvalid : ∀ t ∈ ts, t.type.Valid) (htag : ∀ t ∈ ts, t.tag.length ≤ 65535)
    (hlow : ∀ t ∈ ts, HasLow (count16 false t.tag.length)) (hfalls : ∀ t ∈ ts, Falls A t) (n : ℕ) :
    Drifts (ts = []) (parseEntries A n settings) ts (Tree.entries false ts ++ [0]) := by
  intro L s r hs h
  rw [List.append_assoc] at h
  cases L with
  | succ L => exact .inr (parseEntries_behind (Nat.le_add_left 1 L) h)
  | zero =>
    cases ts with
    | nil =>
      obtain ⟨-, rfl | rfl⟩ := parseEntries_zero h
      · exact .inl ⟨rfl, rfl, rfl⟩
      · exact .inr ⟨1, le_rfl, rfl⟩
    | cons t ts =>
      rw [List.forall_mem_cons] at htype hvalid htag hlow hfalls
      cases n with
      | zero => cases h
      | succ n =>
        obtain ⟨-, hnil, -⟩ | ⟨-, hnil, -⟩ | ⟨child, memory₁, children, -, hchild, hchildren, heq⟩ :=
          parseEntries_cases h
        · cases hnil
        · cases hnil
        · obtain ⟨rfl, rfl⟩ := List.cons.inj heq
          have hchild : parse A n settings (t.type.toByte :: (text false t.tag ++ (t.payload false ++
              (Tree.entries false ts ++ ([0] ++ s))))) = .ok (t, memory₁) := by
            simpa [Tree.entries, zeros] using hchild
          refine .inr ?_
          cases n with
          | zero => cases hchild
          | succ n =>
            rw [parse] at hchild
            obtain ⟨⟨⟨type, tag⟩, memory₂⟩, hhead, hbody⟩ := bind_eq_ok.mp hchild
            obtain ⟨rfl, htext⟩ := parseHead_entry hA hnet harr htype.1 hvalid.1 hhead
            have hbody : parseBody A (parse A n) (parseEntries A n) settings t.type tag memory₂ =
              .ok (t, memory₁) := hbody
            obtain rfl := parseBody_tag hbody
            have hs' : Tree.entries false ts ++ ([0] ++ s) ≠ [] := by simp
            have hfirst := (drifts_readString htag.1 hlow.1).append hs' (hfalls.1 n settings hnet)
              (L := 0) htext hbody
            obtain ⟨-, ⟨hfalse, -⟩, -⟩ | ⟨L, hL, rfl⟩ := hfirst
            · exact hfalse.elim
            · exact parseEntries_behind hL hchildren

theorem entrySettings_network (hA : A.isBigEndian = false) (hnet : settings.isNetwork = true) :
    (entrySettings A.isBigEndian settings).isNetwork = true := by
  rw [entrySettings, hA, hnet]
  rfl

/-- The only length of 32 bits that reads back as a VarInt. -/
theorem eq_zero_of_readLength (hnet : settings.isNetwork = true) {n : ℕ} (hn : n < 2 ^ 32)
    (hlow : HasLow (count32 false n)) {s r : Bytes}
    (h : readLength false settings (count32 false n ++ s) = .ok (n, r)) : n = 0 := by
  rw [readLength, readInt, readNumber, if_neg Bool.false_ne_true, if_pos hnet] at h
  obtain ⟨⟨value, memory⟩, hvalue, h⟩ := bind_eq_ok.mp h
  obtain ⟨hnat, rfl⟩ := Prod.mk.inj (Except.ok.inj h)
  have hof : (BitVec.ofNat 32 n).toNat = n := Nat.mod_eq_of_lt hn
  obtain rfl : value = BitVec.ofNat 32 n := BitVec.eq_of_toNat_eq (by rw [hof]; exact hnat)
  have hzero : BitVec.ofNat 32 n = 0 := eq_zero_of_readZigZag (k := 4) (by decide) hlow hvalue
  rw [← hof, hzero]
  rfl

/-- A list among the children falls behind: read as an empty list it must be one. -/
theorem falls_list (hA : A.isBigEndian = false) {tag : Bytes} {children : List Tree}
    (hlength : children.length < 2 ^ 32) (hvalid : (Tree.elementType children).Valid)
    (htype : ∀ t ∈ children, t.type = Tree.elementType children ∧ t.type ≠ .endTag ∧ t.tag = [])
    (hlow : HasLow (count32 false children.length)) : Falls A (.list tag children) := by
  intro n settings hnet L s r hs h
  refine .inr ?_
  obtain ⟨⟨code, memory₁⟩, hcode, h⟩ := bind_eq_ok.mp h
  obtain ⟨⟨length, memory₂⟩, hcount, h⟩ := bind_eq_ok.mp h
  obtain ⟨⟨children', memory₃⟩, helements, h⟩ := bind_eq_ok.mp h
  obtain ⟨heq, rfl⟩ := Prod.mk.inj (Except.ok.inj h)
  obtain rfl : children = children' := (Tree.list.inj heq).2.symm
  have hnumber := length_of_replicate helements
  rw [hA] at hcount
  have hnil : children = [] := by
    cases L with
    | succ L =>
      obtain ⟨rfl, -⟩ := Prod.mk.inj (Except.ok.inj hcode)
      exact List.length_eq_zero_iff.mp hnumber
    | zero =>
      obtain ⟨rfl, rfl⟩ := Prod.mk.inj (Except.ok.inj hcode)
      rw [ofByte_toByte hvalid] at hnumber
      by_contra hne
      obtain ⟨t, ts, rfl⟩ := List.exists_cons_of_ne_nil hne
      rw [if_neg (show Tree.elementType (t :: ts) ≠ .endTag from (htype t List.mem_cons_self).2.1)] at hnumber
      subst hnumber
      have hcount : readLength false settings (count32 false (t :: ts).length ++
          (Tree.payloads false (t :: ts) ++ s)) = .ok ((t :: ts).length, memory₂) := by
        rw [← List.append_assoc]
        exact hcount
      exact absurd (eq_zero_of_readLength hnet hlength hlow hcount) (by simp)
  subst hnil
  have hpayload : zeros L ++ (Tree.payload false (.list tag []) ++ s) = zeros (L + 5) ++ s := by
    rw [← List.append_assoc]
    exact congrArg (· ++ s) (zeros_append L 5)
  rw [hpayload] at hcode
  obtain ⟨rfl, rfl⟩ := Prod.mk.inj (Except.ok.inj hcode)
  have hzero := readLength_zero hnet (zeros (L + 3) ++ s)
  obtain ⟨-, rfl⟩ := Prod.mk.inj (Except.ok.inj (hzero.symm.trans hcount))
  obtain ⟨-, rfl⟩ := Prod.mk.inj (Except.ok.inj helements)
  exact ⟨L + 3, by omega, rfl⟩

theorem falls_of_wellFormed (hA : A.isBigEndian = false) {t : Tree} (ht : t.WellFormed)
    (ho : Ordinary t) (hne : t.type ≠ .endTag) : Falls A t := by
  induction ht with
  | @scalar tag value htag hvalue =>
    obtain ⟨-, ho⟩ := ho
    intro n settings hnet
    have hscalar : Drifts (Rigid (.scalar tag value)) (do
        let value ← parseScalar A.isBigEndian settings value.type
        pure (Tree.scalar tag value)) (.scalar tag value) (value.payload false) := by
      rw [hA]
      exact (drifts_parseScalar hnet tag hvalue ho hne).map _ fun _ h => (Tree.scalar.inj h).2
    cases value <;> exact hscalar
  | @list tag children htag hlength htype hchildren ih =>
    obtain - | ⟨-, hlow, -⟩ | - := ho
    exact falls_list hA hlength (elementType_valid hchildren) htype hlow
  | @compound tag children htag htype hchildren ih =>
    obtain - | - | ⟨-, ho⟩ := ho
    intro n settings hnet
    have hentries := drifts_parseEntries hA (entrySettings_network hA hnet) rfl htype
      (fun t h => (hchildren t h).valid) (fun t h => (hchildren t h).length_tag)
      (fun t h => (ho t h).tag) (fun t h => ih t h (ho t h) (htype t h)) n
    refine (hentries.map (Tree.compound tag) fun _ h => (Tree.compound.inj h).2).mono ?_
    rintro rfl
    trivial

/-- An element of a list at the root. -/
theorem drifts_element (hA : A.isBigEndian = false) (hstrict : A.strict = false)
    (hnet : settings.isNetwork = true) {t : Tree} (hfalls : Falls A t) (htag : t.tag = []) (n : ℕ) :
    Drifts (Rigid t) (do
        check A t.type
        parse A n (elementSettings A.isBigEndian settings t.type))
      t (t.payload false) := by
  intro L s r hs h
  rw [bind_of_eq_ok (check_of_lenient hstrict _ _)] at h
  cases n with
  | zero => cases h
  | succ n =>
    have hsettings : (elementSettings A.isBigEndian settings t.type).isNetwork = true := by
      rw [elementSettings, hA, hnet]
      rfl
    have hbody := hfalls n _ hsettings
    rw [htag] at hbody
    exact hbody L s r hs h

/-- What is left when the parsed tree is the written one. -/
theorem parse_networkBytes (hA : A.isBigEndian = false) (hstrict : A.strict = false) {t : Tree}
    (ht : t.WellFormed) (ho : ∀ child ∈ t.children, Ordinary child) {n : ℕ} {s r : Bytes} (hs : s ≠ [])
    (h : parse A n networkSettings (t.networkBytes ++ s) = .ok (t, r)) :
    (Plain t ∧ r = s) ∨ ∃ L, 1 ≤ L ∧ r = zeros L ++ s := by
  have hhead : ∀ type tag, type.Valid → tag.length ≤ 65535 → (type = .endTag → tag = []) → ∀ s,
      parseHead A.isBigEndian networkSettings (networkHead type tag ++ s) = .ok ((type, tag), s) := by
    rw [hA]
    exact fun type tag => parseHead_append
  cases n with
  | zero => cases h
  | succ n =>
    rw [parse] at h
    cases ht with
    | @scalar tag value htag hvalue =>
      rw [Tree.networkBytes, List.append_assoc] at h
      have htagless : Plain (.scalar tag value) := by
        intro hend
        cases value <;> cases hend
        obtain ⟨heq, -⟩ := Prod.mk.inj (Except.ok.inj h)
        exact (Tree.scalar.inj heq).1.symm
      rw [bind_of_eq_ok (hhead _ _ hvalue.valid htag htagless _)] at h
      obtain ⟨-, rfl⟩ := Prod.mk.inj (Except.ok.inj ((parseBody_scalar hA tag hvalue s).symm.trans h))
      exact .inl ⟨htagless, rfl⟩
    | @list tag children htag hlength htype hchildren =>
      rw [Tree.networkBytes, List.append_assoc,
        bind_of_eq_ok (hhead .list _ trivial htag (by rintro ⟨⟩) _)] at h
      have hcount : ∀ s, readLength A.isBigEndian networkSettings (zigZagLength children.length ++ s) =
          .ok (children.length, s) := by
        rw [hA]
        exact readLength_append rfl hlength
      simp only at h
      rw [parseBody, List.cons_append, List.append_assoc, bind_of_eq_ok (readByte_cons _ _),
        bind_of_eq_ok (hcount _), ofByte_toByte (elementType_valid hchildren),
        number_of_elements fun t h => (htype t h).2.1] at h
      obtain ⟨⟨children', memory⟩, helements, h⟩ := bind_eq_ok.mp h
      obtain ⟨heq, rfl⟩ := Prod.mk.inj (Except.ok.inj h)
      obtain rfl : children = children' := (Tree.list.inj heq).2.symm
      have hdrifts : Drifts (∀ t ∈ children, Rigid t) (replicate (do
            check A (Tree.elementType children)
            parse A n (elementSettings A.isBigEndian networkSettings (Tree.elementType children)))
          children.length) children (children.flatMap (Tree.payload false)) := by
        refine Drifts.replicate fun t ht => ?_
        obtain ⟨hsame, hne, hnil⟩ := htype t ht
        rw [← hsame]
        exact drifts_element hA hstrict rfl (falls_of_wellFormed hA (hchildren t ht) (ho t ht) hne) hnil n
      rw [payloads_eq_flatMap] at helements
      obtain ⟨-, hrigid, hr⟩ | hdrift := hdrifts 0 s _ hs helements
      · exact .inl ⟨hrigid, hr⟩
      · exact .inr hdrift
    | @compound tag children htag htype hchildren =>
      rw [Tree.networkBytes, List.append_assoc,
        bind_of_eq_ok (hhead .compound _ trivial htag (by rintro ⟨⟩) _)] at h
      obtain ⟨⟨children', memory⟩, hentries, h⟩ := bind_eq_ok.mp h
      obtain ⟨heq, rfl⟩ := Prod.mk.inj (Except.ok.inj h)
      obtain rfl : children = children' := (Tree.compound.inj heq).2.symm
      have hdrifts := drifts_parseEntries hA
        (entrySettings_network hA (show networkSettings.isNetwork = true from rfl)) rfl htype
        (fun t h => (hchildren t h).valid) (fun t h => (hchildren t h).length_tag)
        (fun t h => (ho t h).tag)
        (fun t h => falls_of_wellFormed hA (hchildren t h) (ho t h) (htype t h)) n
      obtain ⟨-, hnil, hr⟩ | hdrift := hdrifts 0 s _ hs hentries
      · exact .inl ⟨hnil, hr⟩
      · exact .inr hdrift

end Flat

/-! ### Round trips of the network format -/

variable {element : NBTElement} {buffer : ByteBuffer}

theorem plain_of_returns (ht : (tree element).WellFormed)
    (ho : ∀ child ∈ (tree element).children, Ordinary child) (h : Stored false buffer [])
    {suffix : Bytes} (hreturns : ReturnsLittleEndian element buffer suffix) : Plain (tree element) := by
  obtain ⟨bound, hbound⟩ := hreturns
  obtain ⟨element', buffer', hrun, htree, -, hposition⟩ := hbound bound le_rfl
  obtain ⟨buffer₁, h₁, hs₁⟩ := writeNBTElement_network ht buffer [] h
  obtain ⟨⟨b, e⟩, h₂, hs₂⟩ := (writable_stored false).writeBytes suffix buffer₁ _ hs₁
  obtain ⟨hholds, rfl⟩ : Holds b _ ∧ e = false := hs₂
  rw [bind_of_eq_ok h₁, bind_of_eq_ok h₂] at hrun
  obtain ⟨hok, herror⟩ := (decode_simulates (.inl hholds.regular) false false bound).1
    networkSettings _ _ (passed_start hholds.shape false)
  rw [hholds.ahead_eq, List.nil_append, List.append_assoc] at hok herror
  cases hparse : Flat.parse (allocation b false false) bound networkSettings
      ((tree element).networkBytes ++ (suffix ++ zeros (blockSize - b.writeOffset))) with
  | error f => cases hrun.symm.trans (herror f (.inl rfl) hparse)
  | ok p =>
    obtain ⟨element'', buffer'', hdecode, hp, hpassed⟩ := hok p.1 p.2 hparse
    cases hrun.symm.trans hdecode
    have hoff := hholds.writeOffset_lt
    have hne : suffix ++ zeros (blockSize - b.writeOffset) ≠ [] := by
      intro hnil
      have := congrArg List.length hnil
      simp only [List.length_append, length_zeros, List.length_nil] at this
      omega
    obtain ⟨t, r⟩ := p
    obtain rfl : tree element = t := by rw [← htree]; exact hp
    obtain ⟨hplain, -⟩ | ⟨L, hL, hr⟩ := Flat.parse_networkBytes (A := allocation b false false) rfl rfl
      ht ho hne hparse
    · exact hplain
    · -- zeros are left in front of the suffix, which the reader's position rules out
      have hleft := length_passed_le hholds.regular hpassed (by omega)
      rw [show r = _ from hr] at hleft
      simp only [List.length_append, length_zeros] at hleft
      omega

/-- In the little-endian network format plain roots come back; where every fixed-width number below
the root has a byte without the high bit, no other root does. -/
theorem returns_littleEndian (element : NBTElement) (ht : (tree element).WellFormed)
    (buffer : ByteBuffer) (h : Stored false buffer []) (suffix : Bytes) :
    (Plain (tree element) → ReturnsLittleEndian element buffer suffix) ∧
    ((∀ child ∈ (tree element).children, Ordinary child) →
      ReturnsLittleEndian element buffer suffix → Plain (tree element)) :=
  ⟨fun hplain => returns_of_plain ht hplain h suffix, fun ho => plain_of_returns ht ho h⟩

/-- A list of bytes in front of another byte. -/
theorem returns_littleEndian_bytes :
    (Plain (tree (.list [97] [.byte [] 1, .byte [] 2])) →
      ReturnsLittleEndian (.list [97] [.byte [] 1, .byte [] 2]) ⟨.new, false⟩ [7]) ∧
    ((∀ child ∈ (tree (.list [97] [.byte [] 1, .byte [] 2])).children, Ordinary child) →
      ReturnsLittleEndian (.list [97] [.byte [] 1, .byte [] 2]) ⟨.new, false⟩ [7] →
      Plain (tree (.list [97] [.byte [] 1, .byte [] 2]))) :=
  returns_littleEndian _ (Tree.wellFormed_of_fits _ rfl) _ ⟨holds_new, rfl⟩ [7]

/-- A compound with a tagged byte. -/
theorem not_returns_littleEndian : (tree (.compound [] [.byte [97] 1])).WellFormed ∧
    Stored false ⟨.new, false⟩ [] ∧
    ¬ ReturnsLittleEndian (.compound [] [.byte [97] 1]) ⟨.new, false⟩ [] := by
  have ht : (tree (.compound [] [.byte [97] 1])).WellFormed := Tree.wellFormed_of_fits _ rfl
  have hstored : Stored false ⟨.new, false⟩ [] := ⟨holds_new, rfl⟩
  refine ⟨ht, hstored, fun hreturns => ?_⟩
  have ho : ∀ child ∈ (tree (.compound [] [.byte [97] 1])).children, Ordinary child := by
    intro child hchild
    obtain rfl := List.mem_singleton.mp hchild
    exact .scalar ⟨1, by decide, by decide⟩ trivial
  exact absurd (plain_of_returns ht ho hstored hreturns) (by simp [Plain])

end Zinc.Nbt
