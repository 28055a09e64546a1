import Zinc.Base.Fields
import Zinc.Base.Taken
import Zinc.Buffer.Prefixed
import Zinc.Buffer.Sequence

/-! Round trips. A value is restored when, written with any suffix behind it and read again, it
comes back with a property and the suffix is what is left unread; the property says up to what
the value has to come back. Here are the words of strings and prefixed arrays, what their
readers can return at all, and the methods that write to a buffer of their own. -/

namespace Zinc.Buffer

open Throw ByteBuffer

variable {α β : Type} {e : Bool} {view : ByteBuffer → Bytes → Prop}

/-- Written in front of a suffix, a value is read with a property, and the suffix is left. The
bound is the one on the recursion of a reader; it is part of the model only. -/
def Restores (isBigEndian : Bool) (write : Action Unit) (read : ℕ → Action β) (P : β → Prop) :
    Prop :=
  ∀ buffer suffix, Stored isBigEndian buffer [] → ∃ bound, ∀ n ≥ bound, ∃ value buffer',
    (do write; writeBytes suffix; read n) buffer = .ok (value, buffer') ∧ P value ∧
      Stored isBigEndian buffer' suffix

/-! ### Words -/

/-- An `int` as `writeVarNumeric<int>` writes it. -/
def varIntBytes (value : BitVec 32) : Bytes := varNumericBytes (varNumericMaxSize 4) value

def stringBytes (value : Bytes) : Bytes := varIntBytes (toInt value.length) ++ value

/-- The words of the elements behind their number. -/
def prefixedBytes (enc : α → Bytes) (values : List α) : Bytes :=
  varIntBytes (toInt values.length) ++ values.flatMap enc

/-- The words of an optional value. -/
def optionalBytes (enc : α → Bytes) : Option α → Bytes
  | none => [0]
  | some value => 1 :: enc value

/-- A `bool` that is written as a `char`. -/
def boolByte (value : Bool) : UInt8 := if value then 1 else 0

theorem boolByte_ne_zero (value : Bool) : decide (boolByte value ≠ 0) = value := by
  cases value <;> decide

/-- A number of elements survives the casts to `int` and back. -/
def Counted (n : ℕ) : Prop := toSize (toInt n) = n

theorem counted_of_lt {n : ℕ} (h : n < 2 ^ 31) : Counted n := toSize_ofNat h

theorem toInt_toSize (value : BitVec 32) : toInt (toSize value) = value := by
  rw [toInt, toSize, BitVec.ofNat_toNat]
  exact Fields.setWidth_signExtend (by decide) value

/-- A length that was read as an `int` is one. -/
theorem counted_toSize (value : BitVec 32) : Counted (toSize value) := by
  rw [Counted, toInt_toSize]

/-- How often a loop runs that counts up to an `int`. -/
def rounds (length : BitVec 32) : ℕ := length.toInt.toNat

theorem rounds_lt (length : BitVec 32) : rounds length < 2 ^ 31 := by
  unfold rounds
  have := BitVec.toInt_lt (x := length)
  omega

theorem rounds_toInt {n : ℕ} (h : n < 2 ^ 31) : rounds (toInt n) = n := by
  have hn : (toInt n).toNat = n := Nat.mod_eq_of_lt (by omega)
  rw [rounds, toInt_eq_toNat (by omega), hn, Int.toNat_natCast]

/-! ### Writing -/

theorem Writable.writeVarInt (hv : Writable e view) (value : BitVec 32) :
    Produces view (ByteBuffer.writeVarInt value) (varIntBytes value) :=
  hv.writeVarNumeric (k := 4) value

theorem Writable.writeString (hv : Writable e view) (value : Bytes) :
    Produces view (ByteBuffer.writeString value) (stringBytes value) :=
  hv.writeVarBytes value

theorem Writable.writeIdentifier (hv : Writable e view) (value : Identifier) :
    Produces view (ByteBuffer.writeIdentifier value) (stringBytes value.toString) :=
  hv.writeVarBytes value.toString

theorem Writable.writePrefixedArray (hv : Writable e view) {func : α → Action Unit}
    {enc : α → Bytes} {values : List α} (h : ∀ a ∈ values, Produces view (func a) (enc a)) :
    Produces view (ByteBuffer.writePrefixedArray values func) (prefixedBytes enc values) :=
  (hv.writeVarInt _).bind (Produces.forEach enc values h)

theorem Writable.writePrefixedOptional (hv : Writable e view) {func : α → Action Unit}
    {enc : α → Bytes} {value : Option α} (h : ∀ a ∈ value, Produces view (func a) (enc a)) :
    Produces view (ByteBuffer.writePrefixedOptional value func) (optionalBytes enc value) := by
  cases value with
  | none => exact (hv.writeByte 0).bind Produces.pure
  | some a => exact (hv.writeByte 1).bind (h a rfl)

/-! ### Reading what was written -/

theorem Readable.readVarInt (hv : Readable e view) (value : BitVec 32) :
    Consumes view ByteBuffer.readVarInt (varIntBytes value) value :=
  hv.readVarNumeric_varNumericBytes true (k := 4) (by decide) value

theorem Readable.readString (hv : Readable e view) {value : Bytes} (h : value.length < 2 ^ 31) :
    Consumes view ByteBuffer.readString (stringBytes value) value :=
  hv.readVarBytes h

/-- A text with a colon is split at the first one. -/
theorem Identifier.toString_ofString {value : Bytes} (h : 58 ∈ value) :
    ∃ identifier, Identifier.ofString value = .ok identifier ∧ identifier.toString = value := by
  unfold Identifier.ofString
  cases hpos : value.findIdx? (· = 58) with
  | none =>
    have hnone := List.findIdx?_eq_none_iff.mp hpos 58 h
    exact absurd hnone (by decide)
  | some pos =>
    obtain ⟨hlt, hcolon, -⟩ := List.findIdx?_eq_some_iff_getElem.mp hpos
    refine ⟨_, rfl, ?_⟩
    rw [Identifier.toString]
    change value.take pos ++ 58 :: value.drop (pos + 1) = value
    rw [← of_decide_eq_true hcolon, List.getElem_cons_drop, List.take_append_drop]

/-- An identifier comes back with the same text, which is what `operator==` compares. -/
theorem Readable.readIdentifier (hv : Readable e view) {value : Identifier}
    (h : value.toString.length < 2 ^ 31) : ∃ value', value'.toString = value.toString ∧
      Consumes view ByteBuffer.readIdentifier (stringBytes value.toString) value' := by
  have hcolon : 58 ∈ value.toString := by simp [Identifier.toString]
  obtain ⟨value', hparsed, htext⟩ := Identifier.toString_ofString hcolon
  refine ⟨value', htext, fun buffer rest hbuffer => ?_⟩
  obtain ⟨buffer', hread, hrest⟩ := hv.readString h buffer rest hbuffer
  refine ⟨buffer', ?_, hrest⟩
  rw [ByteBuffer.readIdentifier, bind_of_eq_ok hread, hparsed, ok_bind]
  rfl

theorem Readable.readPrefixedArray_map (hv : Readable e view) {γ : Type} {func : Action α}
    {enc : γ → Bytes} {dec : γ → α} {values : List γ} (hcount : Counted values.length)
    (h : ∀ a ∈ values, Consumes view func (enc a) (dec a)) :
    Consumes view (ByteBuffer.readPrefixedArray func) (prefixedBytes enc values)
      (values.map dec) := by
  apply (hv.readVarInt _).bind
  rw [show toSize (toInt values.length) = values.length from hcount]
  exact Consumes.replicate_map enc dec values h

theorem Readable.readPrefixedOptional (hv : Readable e view) {func : Action α} {enc : α → Bytes}
    {value : Option α} (h : ∀ a ∈ value, Consumes view func (enc a) a) :
    Consumes view (ByteBuffer.readPrefixedOptional func) (optionalBytes enc value) value := by
  cases value with
  | none => exact (hv.readByte 0).bind (w := []) (Consumes.pure none)
  | some a => exact (hv.readByte 1).bind ((h a rfl).bind_pure some)

/-! ### What readers return -/

theorem length_of_readLoop {fuel r : ℕ} {result out : Bytes} {b b' : InternalByteBuffer}
    (h : InternalByteBuffer.readLoop fuel r result b = .ok (out, b')) :
    out.length ≤ result.length + r := by
  induction fuel generalizing r result b with
  | zero =>
    cases r with
    | zero =>
      cases h
      exact le_rfl
    | succ r => cases h
  | succ fuel ih =>
    cases r with
    | zero =>
      cases h
      exact le_rfl
    | succ r =>
      cases hblock : b.blocks[b.readBlock]? with
      | none =>
        simp only [InternalByteBuffer.readLoop, hblock, Except.ok.injEq, Prod.mk.injEq] at h
        rw [← h.1]
        exact Nat.le_add_right _ _
      | some block =>
        simp only [InternalByteBuffer.readLoop, hblock] at h
        have hle := ih h
        rw [List.length_append, List.length_take] at hle
        omega

/-- A read that returns asked for no more than a vector holds. -/
theorem length_of_readBytes {length : ℕ} {bytes : Bytes} {buffer buffer' : ByteBuffer}
    (h : readBytes length buffer = .ok (bytes, buffer')) :
    length ≤ maxSize ∧ bytes.length ≤ length := by
  obtain ⟨⟨bytes', b⟩, hread, h⟩ := bind_eq_ok.mp h
  obtain ⟨rfl, -⟩ := Prod.mk.inj (Except.ok.inj h)
  unfold InternalByteBuffer.read at hread
  split at hread
  · cases hread
  next hsize =>
    have hle := length_of_readLoop hread
    rw [List.length_nil, Nat.zero_add] at hle
    exact ⟨not_lt.mp hsize, hle⟩

/-- No string is longer than what an `int` can announce. -/
theorem yields_readString : Yields (fun value : Bytes => value.length < 2 ^ 31) readString := by
  refine Yields.of_bind fun length buffer => ?_
  rintro ⟨value, buffer'⟩ h
  obtain ⟨hsize, hle⟩ := length_of_readBytes h
  by_cases hlength : length.toNat < 2 ^ 31
  · rw [toSize_of_lt hlength] at hle
    exact lt_of_le_of_lt hle hlength
  · exact absurd hsize (not_le.mpr (maxSize_lt_toSize (not_lt.mp hlength)))

/-- An identifier that was made of a text has the text. -/
theorem Identifier.toString_of_ofString {value : Bytes} {identifier : Identifier}
    (h : Identifier.ofString value = .ok identifier) : identifier.toString = value := by
  have hcolon : 58 ∈ value := by
    by_contra hnone
    have hpos : value.findIdx? (· = 58) = none :=
      List.findIdx?_eq_none_iff.mpr fun c hc => decide_eq_false (ne_of_mem_of_not_mem hc hnone)
    rw [Identifier.ofString, hpos] at h
    cases h
  obtain ⟨identifier', hparsed, htext⟩ := Identifier.toString_ofString hcolon
  cases hparsed.symm.trans h
  exact htext

theorem yields_readIdentifier :
    Yields (fun value : Identifier => value.toString.length < 2 ^ 31) readIdentifier := by
  refine yields_readString.bind fun text htext buffer => ?_
  rintro ⟨value, buffer'⟩ h
  obtain ⟨identifier, hparsed, h⟩ := bind_eq_ok.mp h
  obtain ⟨rfl, -⟩ := Prod.mk.inj (Except.ok.inj h)
  rw [Identifier.toString_of_ofString hparsed]
  exact htext

theorem yields_readPrefixedArray {P : α → Prop} {func : Action α} (h : Yields P func) :
    Yields (fun values => Counted values.length ∧ ∀ a ∈ values, P a)
      (readPrefixedArray func) := by
  refine Yields.of_bind fun length => ?_
  intro buffer p hp
  obtain ⟨hlength, hall⟩ := h.replicate (toSize length) buffer p hp
  rw [hlength]
  exact ⟨counted_toSize length, hall⟩

/-! ### Buffers of their own -/

namespace ByteBuffer

/-- The methods `toBytes`: the bytes of a new buffer after something is written to it. -/
def bytesOf (write : Action Unit) : Except Fault Bytes := do
  let ((), buffer) ← write .new
  return buffer.getBytes

end ByteBuffer

theorem bytesOf_eq {write : Action Unit} {w : Bytes} (h : Produces (Fresh true) write w) :
    bytesOf write = .ok w := by
  obtain ⟨buffer, hwrite, hfresh⟩ := h .new [] fresh_new
  rw [bytesOf, hwrite, ok_bind]
  exact congrArg Except.ok hfresh.getBytes

/-- A buffer that the bytes of another one are written to. -/
theorem Writable.writeBytesOf (hv : Writable e view) {write : Action Unit} {w : Bytes}
    (h : Produces (Fresh true) write w) :
    Produces view (fun buffer => bytesOf write >>= fun bytes => writeByteArray bytes buffer) w := by
  rw [bytesOf_eq h]
  exact hv.writeBytes w

/-- What a buffer of a byte order reads from the bytes of a number in a new buffer. -/
def crossed (isBigEndian : Bool) {k : ℕ} (value : BitVec (8 * k)) : BitVec (8 * k) :=
  numericOfBytes isBigEndian k (numericBytes true value)

theorem crossed_true {k : ℕ} (value : BitVec (8 * k)) : crossed true value = value :=
  numericOfBytes_numericBytes true value

/-- A number is made of any bytes of its length. -/
theorem Readable.readNumericOfBytes (hv : Readable e view) {k : ℕ} (hk : k ≤ maxSize)
    {bytes : Bytes} (h : bytes.length = k) :
    Consumes view (ByteBuffer.readNumeric k) bytes (numericOfBytes e k bytes) := by
  have hread := hv.readNumeric hk (numericOfBytes e k bytes)
  rwa [numericBytes_numericOfBytes e h] at hread

theorem Readable.readCrossed (hv : Readable e view) {k : ℕ} (hk : k ≤ maxSize)
    (value : BitVec (8 * k)) :
    Consumes view (ByteBuffer.readNumeric k) (numericBytes true value) (crossed e value) :=
  hv.readNumericOfBytes hk (length_numericBytes true value)

/-! ### Rules -/

theorem Stored.unique {buffer : ByteBuffer} {bs bs' : Bytes} (h : Stored e buffer bs)
    (h' : Stored e buffer bs') : bs = bs' :=
  h.1.getBytes.symm.trans h'.1.getBytes

variable {write : Action Unit} {read : ℕ → Action β} {P : β → Prop} {w v : Bytes} {a : β}
  {m : ℕ}

/-- The run behind a word that is read up to some rest of it. -/
theorem run_of_consumes (hwrite : Produces (Stored e) write (w ++ v)) {n : ℕ}
    (hread : Consumes (Stored e) (read n) w a) {buffer : ByteBuffer} (h : Stored e buffer [])
    (suffix : Bytes) : ∃ buffer',
      (do write; writeBytes suffix; read n) buffer = .ok (a, buffer') ∧
        Stored e buffer' (v ++ suffix) := by
  obtain ⟨buffer₁, h₁, hs₁⟩ := hwrite buffer [] h
  obtain ⟨buffer₂, h₂, hs₂⟩ := (writable_stored e).writeBytes suffix buffer₁ _ hs₁
  rw [List.nil_append, List.append_assoc] at hs₂
  obtain ⟨buffer₃, h₃, hs₃⟩ := hread buffer₂ _ hs₂
  exact ⟨buffer₃, by rw [bind_of_eq_ok h₁, bind_of_eq_ok h₂, h₃], hs₃⟩

theorem stored_new (e : Bool) : Stored e ⟨.new, e⟩ [] := ⟨InternalByteBuffer.holds_new, rfl⟩

/-- A writer has one word. -/
theorem unique_of_produces (h : Produces (Stored e) write w) (h' : Produces (Stored e) write v) :
    w = v := by
  obtain ⟨buffer, hrun, hs⟩ := h _ [] (stored_new e)
  obtain ⟨buffer', hrun', hs'⟩ := h' _ [] (stored_new e)
  obtain ⟨-, rfl⟩ := Prod.mk.inj (Except.ok.inj (hrun.symm.trans hrun'))
  exact hs.unique hs'

/-- A word is read in one way. -/
theorem unique_of_consumes {read : Action β} {w : Bytes} {a b : β}
    (h : Consumes (Stored e) read w a) (h' : Consumes (Stored e) read w b) : a = b := by
  obtain ⟨buffer, -, hs⟩ := (writable_stored e).writeBytes w _ [] (stored_new e)
  rw [List.nil_append] at hs
  obtain ⟨buffer₁, hrun, -⟩ := h buffer [] (by rwa [List.append_nil])
  obtain ⟨buffer₂, hrun', -⟩ := h' buffer [] (by rwa [List.append_nil])
  exact (Prod.mk.inj (Except.ok.inj (hrun.symm.trans hrun'))).1

/-- What is read of the word that was written decides whether a value is restored. -/
theorem restores_iff (hwrite : Produces (Stored e) write (w ++ v))
    (hread : ∀ n ≥ m, Consumes (Stored e) (read n) w a) :
    Restores e write read P ↔ v = [] ∧ P a := by
  constructor
  · intro h
    obtain ⟨bound, hbound⟩ := h _ [] (stored_new e)
    obtain ⟨value', buffer', hrun, hP, hs⟩ := hbound (max m bound) (le_max_right _ _)
    obtain ⟨buffer'', hrun', hs'⟩ :=
      run_of_consumes hwrite (hread (max m bound) (le_max_left _ _)) (stored_new e) []
    obtain ⟨rfl, rfl⟩ := Prod.mk.inj (Except.ok.inj (hrun.symm.trans hrun'))
    exact ⟨by simpa using hs'.unique hs, hP⟩
  · rintro ⟨rfl, hP⟩ buffer suffix h
    refine ⟨m, fun n hn => ?_⟩
    obtain ⟨buffer', hrun, hs⟩ := run_of_consumes hwrite (hread n hn) h suffix
    exact ⟨a, buffer', hrun, hP, hs⟩

theorem restores_of_consumes (hwrite : Produces (Stored e) write w)
    (hread : ∀ n ≥ m, Consumes (Stored e) (read n) w a) (hP : P a) :
    Restores e write read P :=
  (restores_iff (v := []) (by rwa [List.append_nil]) hread).mpr ⟨rfl, hP⟩

/-- A value that is restored has what every result of the reader has. -/
theorem Restores.exists_yields {Q : β → Prop} (h : Restores e write read P)
    (hread : ∀ n, Yields Q (read n)) : ∃ value, P value ∧ Q value := by
  obtain ⟨bound, hbound⟩ := h _ [] (stored_new e)
  obtain ⟨value, buffer', hrun, hP, -⟩ := hbound bound le_rfl
  rw [bind_apply] at hrun
  obtain ⟨⟨_, buffer₁⟩, -, hrun⟩ := bind_eq_ok.mp hrun
  rw [bind_apply] at hrun
  obtain ⟨⟨_, buffer₂⟩, -, hrun⟩ := bind_eq_ok.mp hrun
  exact ⟨value, hP, hread bound buffer₂ _ hrun⟩

end Zinc.Buffer
