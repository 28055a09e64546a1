import Zinc.Network.Sizes

/-! Which contents of the input `ZincConnection::read` takes for a whole frame.
The declared length is compared with all that is buffered, the header included,
and a partial header is completed by the zeros of the buffer's last block. The
length of a VarInt inside the frame is computed from its value, so a frame is
read up to its end only if that VarInt ends in the frame and is canonical. -/

namespace Zinc.Network

open Throw Traced Buffer Buffer.ByteBuffer

/-! ### Headers -/

/-- An `int` as `writeVarNumeric<int>` writes it. -/
def intBytes (value : BitVec 32) : Bytes := varNumericBytes (varNumericMaxSize 4) value

/-- The header of a frame with `length` bytes. -/
def header (length : ℕ) : Bytes := intBytes (BitVec.ofNat 32 length)

theorem intBytes_eq (value : BitVec 32) : intBytes value = Base128.encode 5 value.toNat :=
  varNumericBytes_eq (by decide) value

theorem toNat_lt_pow (value : BitVec 32) : value.toNat < 128 ^ 5 :=
  lt_of_lt_of_le value.isLt (by decide)

theorem length_intBytes (value : BitVec 32) :
    (intBytes value).length = Base128.size value.toNat := by
  rw [intBytes_eq, Base128.length_encode (by decide) (toNat_lt_pow value)]

theorem varInt_intBytes (value : BitVec 32) (a : Bytes) :
    varInt (intBytes value ++ a) = value ∧ afterVarInt (intBytes value ++ a) = a := by
  obtain ⟨hdec, hspan⟩ := Base128.decode_encode_append (c := 5) (by decide) (toNat_lt_pow value) a
  rw [← intBytes_eq] at hdec hspan
  obtain ⟨hval, hafter⟩ := varInt_of_decode hdec
  rw [hspan, ← length_intBytes, List.drop_left] at hafter
  rw [BitVec.ofNat_toNat, BitVec.setWidth_eq] at hval
  exact ⟨hval, hafter⟩

/-- The zeros behind a content. -/
def padding (content : Bytes) : Bytes := zeros (blockSize - content.length % blockSize)

theorem padding_eq_cons (content : Bytes) : ∃ a, padding content = 0 :: a := by
  have := Nat.mod_lt content.length InternalByteBuffer.blockSize_pos
  obtain ⟨k, hk⟩ : ∃ k, blockSize - content.length % blockSize = k + 1 :=
    ⟨blockSize - content.length % blockSize - 1, by omega⟩
  exact ⟨zeros k, by rw [padding, hk]; rfl⟩

theorem memory_eq (content : Bytes) : memory content = content ++ padding content := rfl

/-- A content that begins with a whole header. -/
theorem readPlain_header (libs : Libraries) (connection : ZincConnection) {length : ℕ}
    (h : length < 2 ^ 31) (body : Bytes) :
    readPlain libs (header length ++ body) connection =
      if (header length ++ body).length < length then pure (.ofId (-1), connection)
      else (do
        let q ← frameBody libs connection.isCompressed length
          (body ++ padding (header length ++ body))
        pure (packetOf q.1 q.2,
          { connection with
            input := connection.input.drop ((header length).length + length)
            shouldContinue := false })) := by
  obtain ⟨hval, hafter⟩ := varInt_intBytes (BitVec.ofNat 32 length)
    (body ++ padding (header length ++ body))
  have hmem : memory (header length ++ body) =
      intBytes (BitVec.ofNat 32 length) ++ (body ++ padding (header length ++ body)) := by
    rw [memory_eq, List.append_assoc, header]
  have hsize : Base128.size (BitVec.ofNat 32 length).toNat = (header length).length := by
    rw [header, length_intBytes]
  by_cases hlen : (header length ++ body).length < length
  · rw [if_pos hlen, readPlain_of_lt]
    rwa [hmem, hval, toSize_ofNat h]
  · rw [if_neg hlen, readPlain_of_le (by rw [hmem, hval, toSize_ofNat h]; omega), hmem, hval, hafter,
      toSize_ofNat h, hsize]

/-! ### The end of a frame -/

theorem size_toNat_le (value : BitVec 32) : Base128.size value.toNat ≤ 5 :=
  (Base128.size_le_iff (by decide) _).mpr (toNat_lt_pow value)

theorem result_idAndData {length counted : ℕ} (hlen : length < 2 ^ 31) (hcounted : counted ≤ 1)
    (a : Bytes) :
    (idAndData length counted a).result =
      if Base128.size (varInt a).toNat + counted ≤ length then
        .ok (varInt a, (afterVarInt a).take (length - (Base128.size (varInt a).toNat + counted)))
      else .error .lengthError := by
  have hsize := size_toNat_le (varInt a)
  rw [idAndData, subSize, result_bind, result_call, ok_bind, result_bind,
    result_slice_wrapSub hlen (by omega)]
  split
  next => rw [ok_bind, pure_eq_mk]
  next => rw [error_bind]

/-- The VarInt in front of `a` ends in `a`, and it is followed by as many bytes as
are left when its length and `counted` are subtracted from the length of a frame
that begins `consumed` bytes in front of `a`. -/
def Ends (consumed counted : ℕ) (a : Bytes) : Prop :=
  ∃ n, Base128.decode 5 a = some n ∧ Base128.size (n % 2 ^ 32) + counted = Base128.span 5 a + consumed

variable {length consumed counted : ℕ} {a : Bytes}

theorem ends_add : Ends (consumed + 1) (counted + 1) a ↔ Ends consumed counted a := by
  simp only [Ends, ← Nat.add_assoc, Nat.add_right_cancel_iff]

theorem toNat_varInt {n : ℕ} (h : Base128.decode 5 a = some n) : (varInt a).toNat = n % 2 ^ 32 := by
  rw [(varInt_of_decode h).1, BitVec.toNat_ofNat]

/-- A VarInt that ends in `a` does not depend on what follows `a`. -/
theorem varInt_append {n : ℕ} (hdec : Base128.decode 5 a = some n) (b : Bytes) :
    varInt (a ++ b) = varInt a ∧ afterVarInt (a ++ b) = a.drop (Base128.span 5 a) ++ b := by
  obtain ⟨hdec', hspan⟩ := Base128.decode_append hdec b
  obtain ⟨hval, hafter⟩ := varInt_of_decode hdec'
  rw [hval, hafter, (varInt_of_decode hdec).1, hspan,
    List.drop_append_of_le_length (Base128.span_le_length 5 a)]
  exact ⟨rfl, rfl⟩

/-- Such a VarInt hides what stands behind the frame. -/
theorem result_of_ends (hlen : a.length + consumed = length) (hmax : length < 2 ^ 31)
    (hcounted : counted ≤ 1) (h : Ends consumed counted a) (b : Bytes) :
    (idAndData length counted (a ++ b)).result =
      .ok (varInt a, a.drop (Base128.span 5 a)) := by
  obtain ⟨n, hdec, hends⟩ := h
  obtain ⟨hval, hafter⟩ := varInt_append hdec b
  have hle := Base128.span_le_length 5 a
  rw [result_idAndData hmax hcounted, hval, hafter, toNat_varInt hdec, if_pos (by omega),
    List.take_left']
  rw [List.length_drop]
  omega

theorem take_append_cons_inj {α : Type*} {xs ys zs : List α} {x y : α} {n : ℕ} (hn : xs.length < n)
    (h : (xs ++ x :: ys).take n = (xs ++ y :: zs).take n) : x = y := by
  have hget := congrArg (fun l => l[xs.length]?) h
  simpa [List.getElem?_take, hn] using hget

/-- A VarInt that ends with the first byte behind `a`, a byte 0 or 1. -/
theorem varInt_of_short (hmore : ∀ x ∈ a, 128 ≤ x.toNat) (hshort : a.length < 5) {d : UInt8}
    (hd : d.toNat ≤ 1) (b : Bytes) :
    (varInt (a ++ d :: b)).toNat = Base128.value a + 128 ^ a.length * d.toNat ∧
      afterVarInt (a ++ d :: b) = b := by
  obtain ⟨hdec, hspan⟩ := Base128.decode_append_cons hmore hshort (show d.toNat < 128 by omega) b
  obtain ⟨hval, hafter⟩ := varInt_of_decode hdec
  have hvalue := Base128.value_lt a
  have hpow : 128 ^ a.length ≤ 128 ^ 4 := Nat.pow_le_pow_right (by decide) (by omega)
  have hmul := Nat.mul_le_mul_left (128 ^ a.length) hd
  constructor
  · rw [hval, BitVec.toNat_ofNat, Nat.mod_eq_of_lt (by omega)]
  · rw [hafter, hspan, List.append_cons, List.drop_left' (by simp)]

/-- A VarInt that does not end has the value 0, but all its bytes are consumed. -/
theorem varInt_of_overflow (hdec : Base128.decode 5 a = none) (h : 5 ≤ a.length) (b : Bytes) :
    varInt (a ++ b) = 0 ∧ afterVarInt (a ++ b) = a.drop 5 ++ b := by
  have hdec' : Base128.decode 5 (a ++ b) = none := by
    rw [Base128.decode_eq_none_iff, List.take_append_of_le_length h]
    exact Base128.decode_eq_none_iff.mp hdec
  rw [varInt, afterVarInt, hdec', if_pos rfl, List.drop_append_of_le_length h]
  exact ⟨rfl, rfl⟩

/-- Otherwise a first byte behind the frame can be told from another one. -/
theorem ends_of_result (hlen : a.length + consumed = length) (hmax : length < 2 ^ 31)
    (hle : counted ≤ consumed) (hcounted : counted ≤ 1) {b c : Bytes} {q : BitVec 32 × Bytes}
    (h0 : (idAndData length counted (a ++ 0 :: b)).result = .ok q)
    (h1 : (idAndData length counted (a ++ 1 :: c)).result = .ok q) : Ends consumed counted a := by
  have hdata : ∀ {d : UInt8} {b : Bytes},
      (idAndData length counted (a ++ d :: b)).result = .ok q →
      varInt (a ++ d :: b) = q.1 ∧ Base128.size q.1.toNat + counted ≤ length ∧
        (afterVarInt (a ++ d :: b)).take (length - (Base128.size q.1.toNat + counted)) = q.2 := by
    intro d b h
    rw [result_idAndData hmax hcounted] at h
    split at h
    next hsize =>
      obtain rfl := Except.ok.inj h
      exact ⟨rfl, hsize, rfl⟩
    next => simp at h
  obtain ⟨hid0, hsize, htake0⟩ := hdata h0
  obtain ⟨hid1, -, htake1⟩ := hdata h1
  have htake := htake0.trans htake1.symm
  cases hdec : Base128.decode 5 a with
  | some n =>
    refine ⟨n, hdec, ?_⟩
    obtain ⟨hval0, hafter0⟩ := varInt_append hdec (0 :: b)
    obtain ⟨-, hafter1⟩ := varInt_append hdec (1 :: c)
    have hspan := Base128.span_le_length 5 a
    have hid : q.1.toNat = n % 2 ^ 32 := by
      rw [← hid0, hval0, toNat_varInt hdec]
    have hsizespan : Base128.size (n % 2 ^ 32) ≤ Base128.span 5 a :=
      (Base128.size_mod_le n _).trans (Base128.size_le_span hdec)
    by_contra hne
    rw [hafter0, hafter1] at htake
    have hlt : (a.drop (Base128.span 5 a)).length <
        length - (Base128.size q.1.toNat + counted) := by
      rw [List.length_drop, hid]
      rw [hid] at hsize
      omega
    exact absurd (take_append_cons_inj hlt htake) (by decide)
  | none =>
    have hmore := Base128.decode_eq_none_iff.mp hdec
    by_cases hshort : a.length < 5
    · rw [List.take_of_length_le (by omega)] at hmore
      obtain ⟨hval0, -⟩ := varInt_of_short hmore hshort (d := 0) (by decide) b
      obtain ⟨hval1, -⟩ := varInt_of_short hmore hshort (d := 1) (by decide) c
      rw [hid0] at hval0
      rw [hid1, hval0] at hval1
      have hpos := Nat.pow_pos (n := a.length) (show 0 < 128 by decide)
      simp at hval1
    · have hafter := varInt_of_overflow hdec (Nat.not_lt.mp hshort)
      have hid : q.1 = 0 := hid0.symm.trans (hafter _).1
      have hone : Base128.size (0 : BitVec 32).toNat = 1 := Base128.size_of_lt (by decide)
      rw [(hafter _).2, (hafter _).2, hid, hone] at htake
      rw [hid, hone] at hsize
      exact absurd (take_append_cons_inj (by rw [List.length_drop]; omega) htake) (by decide)

/-! ### Compressed frames -/

theorem result_frameBody_compressed {libs : Libraries} (hmax : length < 2 ^ 31)
    (hne : varInt a ≠ 0) :
    (frameBody libs true length a).result =
      if Base128.size (varInt a).toNat ≤ length then (do
        let uncompressed ← uncompress libs
          ((afterVarInt a).take (length - Base128.size (varInt a).toNat)) (toSize (varInt a))
        (idAndData (toSize (varInt a)) 0 (memory uncompressed)).result)
      else .error .lengthError := by
  have hsize := size_toNat_le (varInt a)
  rw [frameBody, if_pos rfl, if_pos (toSize_eq_zero.not.mpr hne), subSize, result_bind, result_call,
    ok_bind, result_bind, result_slice_wrapSub hmax (by omega)]
  split
  next => rw [ok_bind, result_bind, result_call]
  next => rw [error_bind]

theorem frameBody_uncompressed {libs : Libraries} (hzero : varInt a = 0) :
    frameBody libs true length a = idAndData length 1 (afterVarInt a) := by
  rw [frameBody, if_pos rfl, if_neg (by rw [hzero]; decide)]

/-- The id and the data of uncompressed bytes. -/
theorem result_of_uncompress {libs : Libraries} {compressed uncompressed : Bytes} {size : ℕ}
    (hsize : 0 < size) (hmax : size < 2 ^ 31)
    (h : uncompress libs compressed size = .ok uncompressed) :
    (idAndData size 0 (memory uncompressed)).result =
      .ok (varInt (memory uncompressed), (afterVarInt (memory uncompressed)).take
        (size - Base128.size (varInt (memory uncompressed)).toNat)) := by
  have hroom := hasRoom_iff.mp (uncompress_hasRoom hsize h)
  rw [result_idAndData hmax (by omega), Nat.add_zero, if_pos hroom]

/-- zlib accepts the bytes and fills the announced size, and nothing else is required of it. -/
theorem uncompress_eq {libs : Libraries} {compressed out : Bytes} {size : ℕ} (hmax : size ≤ maxSize)
    (h : libs.uncompress2 compressed size = some out) :
    uncompress libs compressed size = .ok ((out ++ zeros size).take size) := by
  rw [uncompress, if_neg (Nat.not_lt.mpr hmax), h]

theorem exists_uncompress (libs : Libraries) (compressed : Bytes) {size : ℕ} (hmax : size ≤ maxSize) :
    ∃ uncompressed, uncompress libs compressed size = .ok uncompressed := by
  rw [uncompress, if_neg (Nat.not_lt.mpr hmax)]
  split <;> exact ⟨_, rfl⟩

/-! ### Whole frames -/

/-- Every VarInt of a frame ends in it and is canonical, and the announced size of
compressed data is not negative. -/
def FrameFits (isCompressed : Bool) (body : Bytes) : Prop :=
  if isCompressed then
    ∃ n, Base128.decode 5 body = some n ∧
      if n % 2 ^ 32 = 0 then
        Base128.span 5 body = 1 ∧ Ends 0 0 (body.drop 1)
      else Base128.size (n % 2 ^ 32) = Base128.span 5 body ∧ n % 2 ^ 32 < 2 ^ 31
  else Ends 0 0 body

/-- A frame that fits is read up to its end, whatever follows it. -/
theorem result_frameBody_of_fits (libs : Libraries) {isCompressed : Bool} {body : Bytes}
    (hmax : body.length < 2 ^ 31) (h : FrameFits isCompressed body) :
    ∃ q, ∀ b, (frameBody libs isCompressed body.length (body ++ b)).result = .ok q := by
  unfold FrameFits at h
  cases isCompressed with
  | false => exact ⟨_, result_of_ends (by omega) hmax (by omega) h⟩
  | true =>
    obtain ⟨n, hdec, hn⟩ := h
    have hspan := Base128.span_le_length 5 body
    have hbody := varInt_append hdec
    have hval := toNat_varInt hdec
    by_cases hzero : n % 2 ^ 32 = 0
    · rw [if_pos hzero] at hn
      obtain ⟨hone, hends⟩ := hn
      have hz : varInt body = 0 := BitVec.eq_of_toNat_eq (hval.trans hzero)
      refine ⟨(varInt (body.drop 1), (body.drop 1).drop (Base128.span 5 (body.drop 1))), fun b => ?_⟩
      rw [frameBody_uncompressed ((hbody b).1.trans hz), (hbody b).2, hone]
      exact result_of_ends (by rw [List.length_drop]; omega) hmax le_rfl (ends_add.mpr hends) b
    · rw [if_neg hzero] at hn
      obtain ⟨hsize, hlt⟩ := hn
      have hne : varInt body ≠ 0 := fun hz => hzero (by rw [← hval, hz]; rfl)
      have hint := toSize_of_lt (show (varInt body).toNat < 2 ^ 31 by omega)
      obtain ⟨u, hu⟩ := exists_uncompress libs (body.drop (Base128.span 5 body))
        (le_maxSize (show toSize (varInt body) < 2 ^ 31 by omega))
      have hresult := result_of_uncompress (by omega) (by omega) hu
      refine ⟨_, fun b => Eq.trans ?_ hresult⟩
      obtain ⟨hvar, hafter⟩ := hbody b
      rw [result_frameBody_compressed hmax (by rwa [hvar]), hvar, hafter, hval, hsize, if_pos hspan,
        List.take_left' (by rw [List.length_drop]), hu, ok_bind]

/-- Two bytes behind the compressed data of a frame give different data to zlib. -/
theorem exists_libraries {c c' : Bytes} (hne : c ≠ c') {size : ℕ} (hsize : 0 < size)
    (hmax : size < 2 ^ 31) : ∃ libs : Libraries, ∀ q,
      (uncompress libs c size >>= fun u => (idAndData size 0 (memory u)).result) = .ok q →
      (uncompress libs c' size >>= fun u => (idAndData size 0 (memory u)).result) = .ok q → False := by
  have hle : size ≤ maxSize := le_maxSize (by omega)
  obtain ⟨k, rfl⟩ : ∃ k, size = k + 1 := ⟨size - 1, by omega⟩
  obtain ⟨libs, hlibs⟩ : ∃ libs : Libraries, ∀ bs n,
      libs.uncompress2 bs n = if bs = c then some [1] else some [0] :=
    ⟨{ copying with uncompress2 := fun bs _ => if bs = c then some [1] else some [0] },
      fun _ _ => rfl⟩
  have hid : ∀ {bs q} (d : UInt8), d.toNat < 128 → libs.uncompress2 bs (k + 1) = some [d] →
      (uncompress libs bs (k + 1) >>= fun u => (idAndData (k + 1) 0 (memory u)).result) = .ok q →
      q.1 = BitVec.ofNat 32 d.toNat := by
    intro bs q d hd hbs h
    have hu := uncompress_eq hle hbs
    rw [hu, ok_bind, result_of_uncompress hsize hmax hu] at h
    rw [← Except.ok.inj h]
    exact (varInt_cons hd _).1
  refine ⟨libs, fun q h h' => ?_⟩
  have h1 := hid 1 (by decide) (by rw [hlibs, if_pos rfl]) h
  have h0 := hid 0 (by decide) (by rw [hlibs, if_neg hne.symm]) h'
  exact absurd (h1.symm.trans h0) (by decide)

section

variable {body b c : Bytes} {libs : Libraries} {q : BitVec 32 × Bytes} {n : ℕ}

/-- The announced size of compressed data ends in a frame whose content does not
depend on the first byte behind it. -/
theorem decode_ne_none_of_result (hmax : body.length < 2 ^ 31)
    (h0 : (frameBody libs true body.length (body ++ 0 :: b)).result = .ok q)
    (h1 : (frameBody libs true body.length (body ++ 1 :: c)).result = .ok q) :
    Base128.decode 5 body ≠ none := by
  intro hdec
  by_cases hshort : body.length < 5
  · -- behind a byte 1 the size is longer than the frame
    have hmore := Base128.decode_eq_none_iff.mp hdec
    rw [List.take_of_length_le (by omega)] at hmore
    obtain ⟨hval, -⟩ := varInt_of_short hmore hshort (d := 1) (by decide) c
    have hone : 128 ^ body.length * (1 : UInt8).toNat = 128 ^ body.length := Nat.mul_one _
    have hpow := Nat.pow_pos (n := body.length) (show 0 < 128 by decide)
    have hne : varInt (body ++ 1 :: c) ≠ 0 := by
      intro hz
      rw [hz, hone] at hval
      change 0 = _ at hval
      omega
    rw [result_frameBody_compressed hmax hne] at h1
    split at h1
    next hsize =>
      have hpos := Base128.size_pos (varInt (body ++ 1 :: c)).toNat
      have hlt := (Base128.size_le_iff (show 0 < body.length by omega) _).mp hsize
      omega
    next => simp at h1
  · have hoverflow := varInt_of_overflow hdec (Nat.not_lt.mp hshort)
    rw [frameBody_uncompressed (hoverflow _).1, (hoverflow _).2] at h0 h1
    obtain ⟨n, hdec', hends⟩ := ends_of_result
      (show (body.drop 5).length + 5 = body.length by rw [List.length_drop]; omega) hmax
      (by omega) le_rfl h0 h1
    have hsize := (Base128.size_mod_le n (2 ^ 32)).trans (Base128.size_le_span hdec')
    omega

theorem ends_of_uncompressed (hmax : body.length < 2 ^ 31) (hdec : Base128.decode 5 body = some n)
    (hzero : n % 2 ^ 32 = 0)
    (h0 : (frameBody libs true body.length (body ++ 0 :: b)).result = .ok q)
    (h1 : (frameBody libs true body.length (body ++ 1 :: c)).result = .ok q) :
    Base128.span 5 body = 1 ∧ Ends 0 0 (body.drop 1) := by
  have hspan := Base128.span_le_length 5 body
  have hsize := (Base128.size_pos _).trans_le (Base128.size_le_span hdec)
  have hz : varInt body = 0 := BitVec.eq_of_toNat_eq ((toNat_varInt hdec).trans hzero)
  have hall := varInt_append hdec
  rw [frameBody_uncompressed ((hall _).1.trans hz), (hall _).2] at h0 h1
  obtain ⟨m, hdec', hends⟩ := ends_of_result
    (show (body.drop (Base128.span 5 body)).length + Base128.span 5 body = body.length by
      rw [List.length_drop]; omega) hmax (by omega) le_rfl h0 h1
  have hsize' := (Base128.size_mod_le m (2 ^ 32)).trans (Base128.size_le_span hdec')
  have hone : Base128.span 5 body = 1 := by omega
  rw [hone] at hdec' hends
  exact ⟨hone, m, hdec', by omega⟩

theorem fits_of_compressed (hmax : body.length < 2 ^ 31) (hdec : Base128.decode 5 body = some n)
    (hzero : n % 2 ^ 32 ≠ 0)
    (h : ∀ libs : Libraries, ∃ q,
      (frameBody libs true body.length (body ++ 0 :: b)).result = .ok q ∧
      (frameBody libs true body.length (body ++ 1 :: c)).result = .ok q) :
    Base128.size (n % 2 ^ 32) = Base128.span 5 body ∧ n % 2 ^ 32 < 2 ^ 31 := by
  have hspan := Base128.span_le_length 5 body
  have hval := toNat_varInt hdec
  have hsize := (Base128.size_mod_le n (2 ^ 32)).trans (Base128.size_le_span hdec)
  have hne : varInt body ≠ 0 := fun hz => hzero (by rw [← hval, hz]; rfl)
  have hresult : ∀ (libs : Libraries) (d : Bytes),
      (frameBody libs true body.length (body ++ d)).result =
        (uncompress libs ((body.drop (Base128.span 5 body) ++ d).take
          (body.length - Base128.size (n % 2 ^ 32))) (toSize (varInt body)) >>=
        fun u => (idAndData (toSize (varInt body)) 0 (memory u)).result) := by
    intro libs d
    obtain ⟨hv, hafter⟩ := varInt_append hdec d
    rw [result_frameBody_compressed hmax (by rwa [hv]), hv, hafter, hval, if_pos (by omega)]
  have hmaxsize : toSize (varInt body) ≤ maxSize := by
    by_contra hlarge
    obtain ⟨q, h0, -⟩ := h copying
    rw [hresult, uncompress, if_pos (Nat.not_le.mp hlarge), error_bind] at h0
    simp at h0
  obtain ⟨hint, hlt⟩ := toSize_of_le_maxSize hmaxsize
  rw [← hval]
  refine ⟨?_, hlt⟩
  by_contra hne'
  rw [hval] at hne'
  -- the bytes for zlib end behind the frame
  have htake : (body.drop (Base128.span 5 body) ++ 0 :: b).take
        (body.length - Base128.size (n % 2 ^ 32)) ≠
      (body.drop (Base128.span 5 body) ++ 1 :: c).take
        (body.length - Base128.size (n % 2 ^ 32)) := by
    intro heq
    have hlen : (body.drop (Base128.span 5 body)).length <
        body.length - Base128.size (n % 2 ^ 32) := by
      rw [List.length_drop]
      omega
    exact absurd (take_append_cons_inj hlen heq) (by decide)
  obtain ⟨libs, hlibs⟩ := exists_libraries htake (show 0 < toSize (varInt body) by omega) (by omega)
  obtain ⟨q, h0, h1⟩ := h libs
  exact hlibs q ((hresult libs _).symm.trans h0) ((hresult libs _).symm.trans h1)

/-- A frame whose content does not depend on the first byte behind it fits. -/
theorem fits_of_result {isCompressed : Bool} (hmax : body.length < 2 ^ 31)
    (h : ∀ libs : Libraries, ∃ q,
      (frameBody libs isCompressed body.length (body ++ 0 :: b)).result = .ok q ∧
      (frameBody libs isCompressed body.length (body ++ 1 :: c)).result = .ok q) :
    FrameFits isCompressed body := by
  obtain ⟨q, h0, h1⟩ := h copying
  unfold FrameFits
  cases isCompressed with
  | false => exact ends_of_result rfl hmax le_rfl (by omega) h0 h1
  | true =>
    obtain ⟨n, hdec⟩ := Option.ne_none_iff_exists'.mp (decode_ne_none_of_result hmax h0 h1)
    refine ⟨n, hdec, ?_⟩
    split
    next hzero => exact ends_of_uncompressed hmax hdec hzero h0 h1
    next hzero => exact fits_of_compressed hmax hdec hzero h

end

/-! ### Partial frames -/

/-- The call asks for more data and changes nothing. -/
def Waits (libs : Libraries) (connection : ZincConnection) : Prop :=
  (ZincConnection.read libs connection).result = .ok (.ofId (-1), connection)

/-- A proper prefix of a frame with `length` bytes. -/
def PartialFrame (length : ℕ) (input : Bytes) : Prop :=
  ∃ body, body.length = length ∧ input <+: header length ++ body ∧ input ≠ header length ++ body

/-- The length that `read` sees is larger than the whole input: the declared one
behind a whole header, the digits so far behind a partial one. -/
def SeesMore (length : ℕ) (input : Bytes) : Prop :=
  input.length < if input.length < (header length).length then Base128.value input else length

instance (length : ℕ) (input : Bytes) : Decidable (SeesMore length input) :=
  inferInstanceAs (Decidable (_ < _))

theorem result_frameBody_zero (libs : Libraries) (isCompressed : Bool) (a : Bytes) :
    (frameBody libs isCompressed 0 a).result = .error .lengthError := by
  have hid : ∀ {counted}, counted ≤ 1 → ∀ a, (idAndData 0 counted a).result = .error .lengthError := by
    intro counted hcounted a
    have := Base128.size_pos (varInt a).toNat
    rw [result_idAndData (by decide) hcounted, if_neg (by omega)]
  cases isCompressed with
  | false => exact hid (by decide) a
  | true =>
    by_cases hz : varInt a = 0
    · rw [frameBody_uncompressed hz, hid le_rfl]
    · have := Base128.size_pos (varInt a).toNat
      rw [result_frameBody_compressed (by decide) hz, if_neg (by omega)]

variable {connection : ZincConnection}

theorem read_of_not_encrypted (libs : Libraries) (h : connection.isEncrypted = false)
    (hlen : connection.input.length ≤ maxSize) :
    ZincConnection.read libs connection = readPlain libs connection.input connection := by
  rw [read_eq, plain_of_not_encrypted libs h hlen, lift_ok_bind]

/-- A call that does not wait drains something, or throws. -/
theorem waits_iff_lt (libs : Libraries) (h : connection.isEncrypted = false)
    (hlen : connection.input.length ≤ maxSize) :
    Waits libs connection ↔
      connection.input.length < toSize (varInt (memory connection.input)) := by
  rw [Waits, read_of_not_encrypted libs h hlen]
  by_cases hlt : connection.input.length < toSize (varInt (memory connection.input))
  · rw [readPlain_of_lt hlt]
    exact iff_of_true rfl hlt
  · refine iff_of_false (fun hwait => ?_) hlt
    have hpos := Base128.size_pos (varInt (memory connection.input)).toNat
    rw [readPlain_of_le (Nat.not_lt.mp hlt), result_bind] at hwait
    obtain ⟨q, hq, hpair⟩ := bind_eq_ok.mp hwait
    have hdrop := congrArg (fun p => p.2.input.length) (Except.ok.inj hpair)
    simp only [List.length_drop] at hdrop
    have hzero : toSize (varInt (memory connection.input)) = 0 := by omega
    rw [hzero, result_frameBody_zero] at hq
    simp at hq

/-- The length that `read` sees in a partial frame. -/
theorem toSize_of_incomplete {length : ℕ} {input : Bytes} (hmax : length < 2 ^ 31)
    (hpart : PartialFrame length input) :
    toSize (varInt (memory input)) =
      if input.length < (header length).length then Base128.value input else length := by
  obtain ⟨body, -, hprefix, -⟩ := hpart
  have hheader := List.prefix_append (header length) body
  split
  next hlt =>
    have hlen := length_intBytes (BitVec.ofNat 32 length)
    have hfive := size_toNat_le (BitVec.ofNat 32 length)
    have htake : input = (header length).take input.length :=
      List.prefix_iff_eq_take.mp (List.prefix_of_prefix_length_le hprefix hheader (by omega))
    have hmore : ∀ x ∈ input, 128 ≤ x.toNat := by
      rw [htake, header, intBytes_eq]
      apply Base128.more_of_prefix_encode (toNat_lt_pow _)
      rwa [← intBytes_eq]
    obtain ⟨a, ha⟩ := padding_eq_cons input
    have hshort : input.length < 5 := by
      rw [header] at hlt
      omega
    obtain ⟨hval, -⟩ := varInt_of_short hmore hshort (d := 0) (by decide) a
    have hvalue := Base128.value_lt input
    have hpow : 128 ^ input.length ≤ 128 ^ 4 := Nat.pow_le_pow_right (by decide) (by omega)
    have hzero : Base128.value input + 128 ^ input.length * (0 : UInt8).toNat =
        Base128.value input := Nat.add_zero _
    rw [hzero] at hval
    rw [memory_eq, ha, toSize_of_lt (by omega), hval]
  next hge =>
    obtain ⟨y, rfl⟩ := List.prefix_of_prefix_length_le hheader hprefix (by omega)
    rw [memory_eq, header, List.append_assoc, (varInt_intBytes _ _).1, toSize_ofNat hmax]

/-- The partial frames that `read` waits on. -/
theorem waits_iff (libs : Libraries) (h : connection.isEncrypted = false) {length : ℕ}
    (hmax : length < 2 ^ 31) (hpart : PartialFrame length connection.input) :
    Waits libs connection ↔ SeesMore length connection.input := by
  have hlen : connection.input.length ≤ maxSize := by
    obtain ⟨body, hbody, hprefix, -⟩ := hpart
    have hle := hprefix.length_le
    have hsize := size_toNat_le (BitVec.ofNat 32 length)
    rw [List.length_append, header, length_intBytes] at hle
    unfold maxSize
    omega
  rw [waits_iff_lt libs h hlen, toSize_of_incomplete hmax hpart, SeesMore]

/-! ### Frames in the input -/

/-- The call takes the frame with a given content from the front of the input, and
what it returns does not depend on the bytes behind the frame. -/
def ReadsFrame (libs : Libraries) (connection : ZincConnection) (body : Bytes) : Prop :=
  ∃ packet, ∀ rest, (header body.length ++ body ++ rest).length ≤ maxSize →
    (ZincConnection.read libs
      { connection with input := header body.length ++ body ++ rest }).result =
      .ok (packet, { connection with input := rest, shouldContinue := false })

theorem packetOf_inj {q q' : BitVec 32 × Bytes} (h : packetOf q.1 q.2 = packetOf q'.1 q'.2) :
    q = q' := by
  have hid := congrArg ZincPacket.id h
  have hdata := congrArg (fun p => p.data.getBytes) h
  simp only [packetOf, (writeBytes_new _).2.getBytes] at hdata
  exact Prod.ext hid hdata

theorem read_frame (libs : Libraries) (h : connection.isEncrypted = false) {body rest : Bytes}
    (hmax : body.length < 2 ^ 31) (hinput : connection.input = header body.length ++ body ++ rest)
    (hlen : connection.input.length ≤ maxSize) :
    (ZincConnection.read libs connection).result = (do
      let q ← (frameBody libs connection.isCompressed body.length
        (body ++ (rest ++ padding connection.input))).result
      .ok (packetOf q.1 q.2, { connection with input := rest, shouldContinue := false })) := by
  have happ : connection.input = header body.length ++ (body ++ rest) := by
    rw [hinput, List.append_assoc]
  have hdrop : connection.input.drop ((header body.length).length + body.length) = rest := by
    rw [hinput, ← List.length_append, List.drop_left]
  rw [read_of_not_encrypted libs h hlen]
  have hheader := readPlain_header libs connection hmax (body ++ rest)
  rw [← happ, hdrop, if_neg (by rw [happ]; simp only [List.length_append]; omega)] at hheader
  rw [hheader, result_bind, List.append_assoc]
  rfl

/-- The frames that `read` takes whole. -/
theorem readsFrame_iff (h : connection.isEncrypted = false) {body : Bytes}
    (hmax : body.length < 2 ^ 31) :
    (∀ libs, ReadsFrame libs connection body) ↔ FrameFits connection.isCompressed body := by
  have hheader : (header body.length).length ≤ 5 := by
    rw [header, length_intBytes]
    exact size_toNat_le _
  constructor
  · intro hreads
    have hlen : ∀ d : UInt8, (header body.length ++ body ++ [d]).length ≤ maxSize := by
      intro d
      simp only [List.length_append, List.length_singleton]
      unfold maxSize
      omega
    have hresult : ∀ (d : UInt8) libs packet,
        (ZincConnection.read libs
          { connection with input := header body.length ++ body ++ [d] }).result =
            .ok (packet, { connection with input := [d], shouldContinue := false }) →
        ∃ q, (frameBody libs connection.isCompressed body.length (body ++ d ::
          padding (header body.length ++ body ++ [d]))).result = .ok q ∧ packetOf q.1 q.2 = packet := by
      intro d libs packet hread
      rw [@read_frame { connection with input := header body.length ++ body ++ [d] } libs h body [d]
        hmax rfl (hlen d)] at hread
      obtain ⟨q, hq, hpair⟩ := bind_eq_ok.mp hread
      exact ⟨q, hq, (Prod.mk.inj (Except.ok.inj hpair)).1⟩
    refine fits_of_result (b := padding (header body.length ++ body ++ [0]))
      (c := padding (header body.length ++ body ++ [1])) hmax fun libs => ?_
    obtain ⟨packet, hpacket⟩ := hreads libs
    obtain ⟨q, hq, rfl⟩ := hresult 0 libs packet (hpacket [0] (hlen 0))
    obtain ⟨q', hq', hsame⟩ := hresult 1 libs _ (hpacket [1] (hlen 1))
    rw [packetOf_inj hsame] at hq'
    exact ⟨q, hq, hq'⟩
  · intro hfits libs
    obtain ⟨q, hq⟩ := result_frameBody_of_fits libs hmax hfits
    refine ⟨packetOf q.1 q.2, fun rest hlen => ?_⟩
    rw [@read_frame { connection with input := header body.length ++ body ++ rest } libs h body rest
      hmax rfl hlen, hq]
    rfl

/-- When `read` tells partial frames from whole ones. -/
theorem frame_complete_iff (h : connection.isEncrypted = false) {length : ℕ} (hmax : length < 2 ^ 31) :
    (∀ libs input, PartialFrame length input →
      (Waits libs { connection with input } ↔ SeesMore length input)) ∧
    ∀ body, body.length = length →
      ((∀ libs, ReadsFrame libs connection body) ↔ FrameFits connection.isCompressed body) := by
  constructor
  · intro libs input hpart
    exact @waits_iff { connection with input } libs h length hmax hpart
  · rintro body rfl
    exact readsFrame_iff h hmax

theorem frame_complete_iff_two :
    (∀ libs input, PartialFrame 2 input →
      (Waits libs { waiting [] with input } ↔ SeesMore 2 input)) ∧
    ∀ body, body.length = 2 →
      ((∀ libs, ReadsFrame libs (waiting []) body) ↔ FrameFits false body) :=
  @frame_complete_iff (waiting []) rfl 2 (by decide)

/-- A frame of two bytes is taken for whole when its first byte has arrived, since the
header is counted as well. -/
theorem not_frame_complete : ¬ ∀ libs (connection : ZincConnection),
    connection.isEncrypted = false → ∀ length, 1 ≤ length → length < 2 ^ 31 →
      (∀ input, PartialFrame length input → Waits libs { connection with input }) ∧
      ∀ body, body.length = length → ReadsFrame libs connection body := by
  intro h
  have hpart : PartialFrame 2 [2, 0] := ⟨[0, 7], rfl, by decide, by decide⟩
  have hwaits := (h copying (waiting []) rfl 2 (by decide) (by decide)).1 [2, 0] hpart
  have hsees : SeesMore 2 [2, 0] :=
    (@waits_iff { waiting [] with input := [2, 0] } copying rfl 2 (by decide) hpart).mp hwaits
  exact absurd hsees (by decide)

end Zinc.Network
