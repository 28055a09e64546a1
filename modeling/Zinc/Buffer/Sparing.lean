import Zinc.Base.Base128
import Zinc.Base.Taken
import Zinc.Buffer.Access
import Zinc.Buffer.RoundTrip

/-! What readers take at most. A byte stops a VarInt when it announces no other digit. A VarInt
that was read has taken at most one stop, the one its word has; the other bytes that a reader
takes are found in its result. So whatever a reader ran on, it has taken no more stops than the
word of its result has. A value that comes back from behind its word cannot have left any
stop in it. -/

namespace Zinc.Buffer

open Throw ByteBuffer InternalByteBuffer Base128

variable {α β : Type} {e : Bool} {b : InternalByteBuffer}

/-! ### Words -/

theorem stops_varIntBytes (value : BitVec 32) : stops (varIntBytes value) = 1 := by
  have hlt := toNat_lt_maxSize (k := 4) value
  rw [varIntBytes, varNumericBytes_eq (by decide)]
  exact stops_encode (Nat.succ_pos _) hlt

theorem stops_prefixedBytes (enc : α → Bytes) (values : List α) :
    stops (prefixedBytes enc values) = 1 + stops (values.flatMap enc) := by
  rw [prefixedBytes, stops_append, stops_varIntBytes]

/-- The order of the bytes has no effect. -/
theorem stops_numericBytes (e : Bool) {k : ℕ} (value : BitVec (8 * k)) :
    stops (numericBytes e value) = stops (numericBytes true value) := by
  cases e <;> simp [numericBytes]

/-- A word has no more stops than another one, and if it has as many, then `R` holds. -/
def Within (R : Prop) (u v : Bytes) : Prop := stops u ≤ stops v ∧ (stops v ≤ stops u → R)

theorem Within.refl {R : Prop} (h : R) (u : Bytes) : Within R u u := ⟨le_rfl, fun _ => h⟩

theorem Within.mono {R S : Prop} {u v : Bytes} (h : Within R u v) (hRS : R → S) : Within S u v :=
  ⟨h.1, fun hle => hRS (h.2 hle)⟩

theorem Within.append {R S : Prop} {u v u' v' : Bytes} (h : Within R u v) (h' : Within S u' v') :
    Within (R ∧ S) (u ++ u') (v ++ v') := by
  obtain ⟨hle, hR⟩ := h
  obtain ⟨hle', hS⟩ := h'
  unfold Within
  rw [stops_append, stops_append]
  exact ⟨by omega, fun hsum => ⟨hR (by omega), hS (by omega)⟩⟩

theorem Within.flatMap {R : α → Prop} {enc enc' : α → Bytes} {values : List α}
    (h : ∀ a ∈ values, Within (R a) (enc a) (enc' a)) :
    Within (∀ a ∈ values, R a) (values.flatMap enc) (values.flatMap enc') := by
  induction values with
  | nil => exact Within.refl (fun a ha => absurd ha List.not_mem_nil) []
  | cons a values ih =>
    rw [List.forall_mem_cons] at h
    rw [List.flatMap_cons, List.flatMap_cons, List.forall_mem_cons]
    exact h.1.append (ih h.2)

theorem Within.prefixedBytes {R : α → Prop} {enc enc' : α → Bytes} {values : List α}
    (h : ∀ a ∈ values, Within (R a) (enc a) (enc' a)) :
    Within (∀ a ∈ values, R a) (prefixedBytes enc values) (prefixedBytes enc' values) :=
  ((Within.refl trivial _).append (Within.flatMap h)).mono And.right

/-! ### Primitive readers -/

theorem takes_readBytes (n : ℕ) :
    Takes (Passed b e) (readBytes n) fun u bytes => bytes = u ∧ u.length = n := by
  intro buffer w bytes buffer' h hrun
  obtain ⟨hn, -⟩ := length_of_readBytes hrun
  obtain ⟨buffer'', hread, hpassed⟩ := h.readBytes hn
  obtain ⟨rfl, rfl⟩ := Prod.mk.inj (Except.ok.inj (hrun.symm.trans hread))
  refine ⟨w.take n, w.drop n, (List.take_append_drop n w).symm, hpassed, fun hrest => ⟨rfl, ?_⟩⟩
  rw [ne_eq, List.drop_eq_nil_iff, not_le] at hrest
  exact List.length_take_of_le hrest.le

/-- A VarInt takes one stop, or none if it overflows. -/
theorem takes_readVarInt : Takes (Passed b e) readVarInt fun u _ => stops u ≤ 1 := by
  intro buffer w value buffer' h hrun
  have hv := readable_passed b e
  have hk : 4 * 8 % 7 ≠ 0 := by decide
  have hrun' : readVarNumeric 4 true buffer = .ok (value, buffer') := hrun
  cases hdec : Base128.decode (varNumericMaxSize 4) w with
  | some m =>
    obtain ⟨buffer'', hread, hpassed⟩ := hv.readVarNumeric true hk h hdec
    obtain ⟨-, rfl⟩ := Prod.mk.inj (Except.ok.inj (hrun'.symm.trans hread))
    exact ⟨_, _, (List.take_append_drop _ w).symm, hpassed, fun _ => (stops_take_span hdec).le⟩
  | none =>
    have hmore := decode_eq_none_iff.mp hdec
    by_cases hlength : varNumericMaxSize 4 ≤ w.length
    · obtain ⟨buffer'', hread, hpassed⟩ := hv.readVarNumeric_overflow true hk h hdec hlength
      obtain ⟨-, rfl⟩ := Prod.mk.inj (Except.ok.inj (hrun'.symm.trans hread))
      exact ⟨_, _, (List.take_append_drop _ w).symm, hpassed,
        fun _ => (stops_eq_zero hmore).trans_le (Nat.zero_le 1)⟩
    · rw [List.take_of_length_le (by omega)] at hmore
      have hfault := (hv.readVarNumeric_undefined_iff (ends_passed b e) true hk h).mpr
        ⟨not_le.mp hlength, hmore⟩
      rw [hfault] at hrun'
      cases hrun'

/-! ### Sparing readers -/

/-- A reader takes no more stops than the word of its result has, and leaves some of them to what
was read before. -/
def Spares (b : InternalByteBuffer) (e : Bool) (k : ℕ) (x : Action α) (enc : α → Bytes) : Prop :=
  Takes (Passed b e) x fun u a => stops u + k ≤ stops (enc a)

variable {k : ℕ} {enc : α → Bytes}

theorem Spares.pure {a : α} (h : k ≤ stops (enc a)) : Spares b e k (Pure.pure a) enc := by
  refine (Takes.pure a).mono fun u c hu => ?_
  obtain ⟨rfl, rfl⟩ := hu
  rwa [stops_nil, Nat.zero_add]

/-- What the first reader took is left to it. -/
theorem Spares.bind {x : Action β} {enc' : β → Bytes} {f : β → Action α}
    (hx : Spares b e 0 x enc') (hf : ∀ a, Spares b e (k + stops (enc' a)) (f a) enc) :
    Spares b e k (x >>= f) enc :=
  Takes.bind hx hf fun u a v c hu hv => by
    rw [stops_append]
    omega

/-- A last computation that only changes the result. -/
theorem Spares.map {x : Action β} {enc' : β → Bytes} (f : β → α) (hx : Spares b e 0 x enc')
    (h : ∀ a, k + stops (enc' a) ≤ stops (enc (f a))) :
    Spares b e k (x >>= fun a => Pure.pure (f a)) enc :=
  hx.bind fun a => Spares.pure (h a)

theorem spares_readVarInt : Spares b e 0 readVarInt varIntBytes :=
  takes_readVarInt.mono fun u value hu => by
    rw [stops_varIntBytes]
    exact hu

theorem spares_readString : Spares b e 0 readString stringBytes :=
  spares_readVarInt.bind fun length => (takes_readBytes _).mono fun u bytes hu => by
    rw [stringBytes, stops_append, stops_varIntBytes, stops_varIntBytes, hu.1]
    omega

theorem spares_readIdentifier :
    Spares b e 0 readIdentifier fun identifier => stringBytes identifier.toString := by
  refine spares_readString.bind fun text buffer w identifier buffer' h hrun => ?_
  obtain ⟨identifier', hparsed, hrun⟩ := bind_eq_ok.mp hrun
  obtain ⟨rfl, rfl⟩ := Prod.mk.inj (Except.ok.inj hrun)
  refine ⟨[], w, rfl, h, fun _ => ?_⟩
  change stops [] + (0 + stops (stringBytes text)) ≤ stops (stringBytes identifier'.toString)
  rw [Identifier.toString_of_ofString hparsed, stops_nil, Nat.zero_add, Nat.zero_add]

theorem spares_readNumeric (n : ℕ) :
    Spares b e 0 (readNumeric n) (numericBytes true) := by
  intro buffer w value buffer' h hrun
  obtain ⟨⟨bytes, buffer''⟩, hread, hrun⟩ := bind_eq_ok.mp hrun
  obtain ⟨rfl, rfl⟩ := Prod.mk.inj (Except.ok.inj hrun)
  obtain ⟨u, rest, rfl, hpassed, hu⟩ := takes_readBytes n buffer w bytes buffer'' h hread
  refine ⟨u, rest, rfl, hpassed, fun hrest => ?_⟩
  obtain ⟨rfl, hlength⟩ := hu hrest
  rw [hpassed.endian, ← stops_numericBytes e, numericBytes_numericOfBytes e hlength]
  exact le_rfl

theorem Spares.readArray {func : Action α} (h : Spares b e 0 func enc) (n : ℕ) :
    Spares b e 0 (readArray func n) (List.flatMap enc) := by
  induction n with
  | zero => exact Spares.pure (Nat.zero_le _)
  | succ n ih =>
    refine h.bind fun a => ih.map _ fun as => ?_
    rw [List.flatMap_cons, stops_append, Nat.zero_add]

theorem Spares.readPrefixedArray {func : Action α} (h : Spares b e 0 func enc) :
    Spares b e 0 (readPrefixedArray func) (prefixedBytes enc) :=
  spares_readVarInt.bind fun length => (h.readArray _).mono fun u values hu => by
    rw [stops_prefixedBytes, stops_varIntBytes]
    omega

/-! ### Values that come back -/

variable {write : Action Unit} {read : ℕ → Action β} {P : β → Prop} {w : Bytes}

/-- A value that comes back was made of the word that was written. -/
theorem Restores.exists_takes {Q : Bytes → β → Prop} (h : Restores e write read P)
    (hwrite : Produces (Stored e) write w) (hread : ∀ b n, Takes (Passed b e) (read n) Q) :
    ∃ a, P a ∧ Q w a := by
  obtain ⟨bound, hbound⟩ := h _ [] (stored_new e)
  obtain ⟨value, buffer', hrun, hP, hs⟩ := hbound bound le_rfl
  obtain ⟨buffer, hbuffer, hstored⟩ := hwrite _ [] (stored_new e)
  obtain ⟨buffer₁, hbuffer₁, hstored₁⟩ := (writable_stored e).writeBytes [] buffer _ hstored
  rw [List.nil_append, List.append_nil] at hstored₁
  rw [bind_of_eq_ok hbuffer, bind_of_eq_ok hbuffer₁] at hrun
  have hstart : Passed buffer₁.internalBuffer e buffer₁ (ahead buffer₁.internalBuffer) := by
    have hpassed := passed_start hstored₁.1.shape e
    rwa [← hstored₁.2] at hpassed ⊢
  obtain ⟨u, rest, hahead, hpassed, hQ⟩ := hread _ bound buffer₁ _ value buffer' hstart hrun
  obtain ⟨n, hadv, -⟩ := hpassed.advances
  have hoffset := hstored₁.1.writeOffset_lt
  -- the memory behind the writer is what the reader leaves
  have hrest : rest = zeros (blockSize - buffer₁.internalBuffer.writeOffset) := by
    rw [← hpassed.ahead_eq, hs.1.ahead_eq, hadv.writeOffset_eq, List.nil_append]
  rw [hstored₁.1.ahead_eq, hrest] at hahead
  obtain rfl := List.append_cancel_right hahead
  refine ⟨value, hP, hQ fun hnil => ?_⟩
  have hlength := congrArg List.length (hrest.symm.trans hnil)
  rw [length_zeros, List.length_nil] at hlength
  omega

end Zinc.Buffer
