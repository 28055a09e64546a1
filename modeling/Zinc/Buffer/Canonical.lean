import Zinc.Buffer.Access

/-! VarInts that are as their writer writes them. The reader accepts digits of zero at
the end and bits beyond the width, so the value does not tell how many bytes were read;
a caller that computes their number from the value is right exactly for those encodings
that have neither. -/

namespace Zinc.Buffer

open Throw ByteBuffer

variable {e : Bool} {view : ByteBuffer → Bytes → Prop}

/-! ### What is logged -/

/-- The loop of `readVarNumeric` with nothing in place of what it returns after an error
message. -/
def checkedVarNumericLoop (isSigned : Bool) {w : ℕ} : ℕ → ℕ → BitVec w → Action (Option (BitVec w))
  | 0, _, _ => pure none -- "Malformed VarInt"
  | n + 1, shift, result => do
    let byte ← readByte
    let result := result ||| (byte &&& 0x7F).toBitVec.setWidth w <<< shift
    if byte &&& 0x80 = 0 then pure (some (fillSign isSigned result))
    else if w ≤ shift + 7 then pure none -- "VarInt overflow"
    else checkedVarNumericLoop isSigned n (shift + 7) result

/-- `readVarNumeric`, with nothing where it has logged an error. -/
def checkedVarNumeric (k : ℕ) (isSigned : Bool) : Action (Option (BitVec (8 * k))) :=
  checkedVarNumericLoop isSigned (varNumericMaxSize k) 0 0

/-- The reader returns what it has checked, or 0. -/
theorem readVarNumericLoop_eq (isSigned : Bool) {w : ℕ} (n shift : ℕ) (result : BitVec w)
    (buffer : ByteBuffer) : readVarNumericLoop isSigned n shift result buffer =
      (checkedVarNumericLoop isSigned n shift result >>= fun value => pure (value.getD 0)) buffer := by
  induction n generalizing shift result buffer with
  | zero => rfl
  | succ n ih =>
    rw [readVarNumericLoop, checkedVarNumericLoop, bind_apply, bind_apply, bind_apply]
    cases readByte buffer with
    | error f => rfl
    | ok p =>
      obtain ⟨byte, buffer₁⟩ := p
      simp only [ok_bind]
      split
      · rfl
      · split
        · rfl
        · exact ih ..

theorem readVarNumeric_eq (k : ℕ) (isSigned : Bool) (buffer : ByteBuffer) :
    readVarNumeric k isSigned buffer =
      (checkedVarNumeric k isSigned >>= fun value => pure (value.getD 0)) buffer :=
  readVarNumericLoop_eq isSigned _ 0 0 buffer

/-- Nothing is logged only if a byte ends the number. -/
theorem decode_ne_none_of_checked (hv : Readable e view) (hend : Ends view) (isSigned : Bool)
    {w n shift : ℕ} {result value : BitVec w} {buffer buffer' : ByteBuffer} {a : Bytes}
    (h : view buffer a)
    (hread : checkedVarNumericLoop isSigned n shift result buffer = .ok (some value, buffer')) :
    Base128.decode n a ≠ none := by
  induction n generalizing shift result buffer a with
  | zero => cases hread
  | succ n ih =>
    rw [checkedVarNumericLoop] at hread
    obtain ⟨⟨byte, buffer₁⟩, hbyte, hread⟩ := bind_eq_ok.mp hread
    cases a with
    | nil =>
      rw [hend h] at hbyte
      cases hbyte
    | cons c a =>
      obtain ⟨buffer₂, hbyte', h'⟩ := hv.readByte c buffer a h
      rw [hbyte'] at hbyte
      obtain ⟨rfl, rfl⟩ := Prod.mk.inj (Except.ok.inj hbyte)
      rw [Base128.decode]
      simp only [and_highBit_eq_zero] at hread
      by_cases hc : c.toNat < 128
      · rw [if_pos hc]
        exact Option.some_ne_none _
      · rw [if_neg hc] at hread ⊢
        split at hread
        · cases hread
        · rw [ne_eq, Option.map_eq_none_iff]
          exact ih h' hread

/-! ### Canonical encodings -/

/-- The bytes of a content that hold the VarInt at its front; there is zeroed memory
behind the content. -/
def varNumericAt (k : ℕ) (bs : Bytes) : Bytes :=
  (memory bs).take (Base128.span (varNumericMaxSize k) (memory bs))

/-- No digit of zero at the end and no bit beyond the width. -/
def Canonical (k : ℕ) (w : Bytes) : Prop :=
  Base128.Shortest w ∧ ∀ d, w[varNumericMaxSize k - 1]? = some d →
    d.toNat < 2 ^ (8 * k - 7 * (varNumericMaxSize k - 1))

/-- What is written for the value of a decoded number is what was decoded, if and only
if that is canonical. -/
theorem varNumericBytes_eq_iff {k m : ℕ} {a : Bytes} (hk : k = 4 ∨ k = 8)
    (hm : Base128.decode (varNumericMaxSize k) a = some m) :
    varNumericBytes (varNumericMaxSize k) (BitVec.ofNat (8 * k) m) =
        a.take (Base128.span (varNumericMaxSize k) a) ↔
      Canonical k (a.take (Base128.span (varNumericMaxSize k) a)) := by
  have hpos : 0 < varNumericMaxSize k := Nat.succ_pos _
  have hwidth : (128 : ℕ) ^ (varNumericMaxSize k - 1) * 2 ^ (8 * k - 7 * (varNumericMaxSize k - 1)) =
      2 ^ (8 * k) := by
    obtain rfl | rfl := hk <;> rfl
  have hlt := Base128.decode_lt_iff (j := varNumericMaxSize k - 1) (by omega)
    (Nat.two_pow_pos (8 * k - 7 * (varNumericMaxSize k - 1))) hm
  rw [hwidth] at hlt
  rw [Canonical, ← hlt, ← Base128.encode_eq_take_iff hm, varNumericBytes_eq (by omega),
    BitVec.toNat_ofNat]
  constructor
  · intro heq
    -- both numbers are what the same bytes decode to
    have hbound := (Nat.mod_lt m (Nat.two_pow_pos (8 * k))).trans_le
      (show 2 ^ (8 * k) ≤ 128 ^ varNumericMaxSize k by obtain rfl | rfl := hk <;> decide)
    have hdec := (Base128.decode_encode_append hpos hbound (a.drop (Base128.span (varNumericMaxSize k) a))).1
    rw [heq, List.take_append_drop, hm] at hdec
    have hmod := Option.some.inj hdec
    exact ⟨by rw [hmod]; exact heq, by rw [hmod]; exact Nat.mod_lt _ (Nat.two_pow_pos _)⟩
  · rintro ⟨heq, hm⟩
    rw [Nat.mod_eq_of_lt hm, heq]

/-- The number of bytes that a VarInt took is the length of its value, which is written in
the same bytes, if and only if these are canonical. -/
theorem readVarNumeric_canonical_iff {k : ℕ} (hk : k = 4 ∨ k = 8) (bs : Bytes)
    {value : BitVec (8 * k)} {buffer' : ByteBuffer}
    (hread : checkedVarNumeric k true (ofBytes bs) = .ok (some value, buffer')) :
    (buffer'.getReaderPointer = getVarNumericLength value ∧
      varNumericBytes (varNumericMaxSize k) value = (memory bs).take buffer'.getReaderPointer) ↔
      Canonical k (varNumericAt k bs) := by
  have hfresh := (writeBytes_new bs).2
  have hstart := hfresh.passed
  obtain ⟨m, hm⟩ := Option.ne_none_iff_exists'.mp
    (decode_ne_none_of_checked (readable_passed _ true) (ends_passed _ true) true hstart hread)
  obtain ⟨buffer₁, hsame, hpassed⟩ :=
    (readable_passed _ true).readVarNumeric true (by obtain rfl | rfl := hk <;> decide) hstart hm
  rw [readVarNumeric_eq, bind_of_eq_ok hread] at hsame
  obtain ⟨rfl, rfl⟩ := Prod.mk.inj (Except.ok.inj hsame)
  have hspan : Base128.span (varNumericMaxSize k) (memory bs) < (memory bs).length := by
    have hle := Base128.span_le (varNumericMaxSize k) (memory bs)
    have hblock := length_memory bs
    have hmax : varNumericMaxSize k < blockSize := by obtain rfl | rfl := hk <;> decide
    omega
  have hpointer : buffer'.getReaderPointer = Base128.span (varNumericMaxSize k) (memory bs) := by
    have hne : (memory bs).drop (Base128.span (varNumericMaxSize k) (memory bs)) ≠ [] := by
      apply List.ne_nil_of_length_pos
      rw [List.length_drop]
      omega
    have := (hfresh.pointer_of_passed hpassed).2 hne
    rw [List.length_drop] at this
    omega
  rw [hpointer, varNumericAt, ← varNumericBytes_eq_iff hk hm]
  refine and_iff_right_of_imp fun heq => ?_
  have hpos : 0 < varNumericMaxSize k := Nat.succ_pos _
  have hlen := congrArg List.length heq
  rw [varNumericBytes_eq (by omega), Base128.length_encode hpos (toNat_lt_maxSize _),
    List.length_take_of_le hspan.le] at hlen
  rw [getVarNumericLength_eq]
  exact hlen.symm

/-- The bytes of 150, and what follows them. -/
theorem readVarNumeric_canonical_two : ∃ buffer',
    checkedVarNumeric 4 true (ofBytes [150, 1, 7]) = .ok (some 150, buffer') ∧
    ((buffer'.getReaderPointer = getVarNumericLength (k := 4) 150 ∧
      varNumericBytes (varNumericMaxSize 4) (150 : BitVec 32) =
        (memory [150, 1, 7]).take buffer'.getReaderPointer) ↔
      Canonical 4 (varNumericAt 4 [150, 1, 7])) := by
  have hvalue : (checkedVarNumeric 4 true (ofBytes [150, 1, 7])).map Prod.fst = .ok (some 150) := by
    decide +kernel
  cases hread : checkedVarNumeric 4 true (ofBytes [150, 1, 7]) with
  | error f =>
    rw [hread] at hvalue
    cases hvalue
  | ok p =>
    obtain ⟨value, buffer'⟩ := p
    rw [hread] at hvalue
    obtain rfl := Except.ok.inj hvalue
    exact ⟨buffer', rfl, readVarNumeric_canonical_iff (.inl rfl) [150, 1, 7] hread⟩

/-- A zero in two bytes is read without a message, and its length is one. -/
theorem not_readVarNumeric_canonical : ¬ ∀ (k : ℕ), k = 4 ∨ k = 8 → ∀ (bs : Bytes)
    (value : BitVec (8 * k)) (buffer' : ByteBuffer),
    checkedVarNumeric k true (ofBytes bs) = .ok (some value, buffer') →
    buffer'.getReaderPointer = getVarNumericLength value ∧
      varNumericBytes (varNumericMaxSize k) value = (memory bs).take buffer'.getReaderPointer := by
  intro h
  have hread : (checkedVarNumeric 4 true (ofBytes [128, 0])).map
      (fun p => (p.1, p.2.getReaderPointer)) = .ok (some 0, 2) := by decide +kernel
  cases hchecked : checkedVarNumeric 4 true (ofBytes [128, 0]) with
  | error f =>
    rw [hchecked] at hread
    cases hread
  | ok p =>
    obtain ⟨value, buffer'⟩ := p
    rw [hchecked] at hread
    obtain ⟨rfl, hpointer⟩ := Prod.mk.inj (Except.ok.inj hread)
    have hlength := (h 4 (.inl rfl) [128, 0] 0 buffer' hchecked).1
    rw [hpointer] at hlength
    exact absurd hlength (by decide)

end Zinc.Buffer
