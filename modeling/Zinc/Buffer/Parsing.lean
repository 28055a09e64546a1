import Zinc.Buffer.RoundTrip

/-! The constructor of `Identifier` from a text, step by step. It sizes both parts by the position
of the first colon and copies into them; lengths are computed in `size_t`, iterators move by
`long`. Without a colon the first size is `npos` and `resize` throws, so the wrapped length and
the iterators made of `npos` are never used. -/

namespace Zinc.Buffer

open Throw ByteBuffer

namespace Identifier

/-! ### The steps -/

/-- `std::string::npos`. -/
def npos : ℕ := 2 ^ 64 - 1

def colon : UInt8 := 58

/-- `find(':')`. -/
def find (value : Bytes) : ℕ := (value.findIdx? (· = colon)).getD npos

/-- `resize` of an empty string. -/
def resize (size : ℕ) : Except Fault Bytes :=
  if maxSize < size then .error .lengthError else .ok (zeros size)

/-- Subtraction in `size_t`. -/
def subSize (a b : ℕ) : ℕ := (a + (2 ^ 64 - b % 2 ^ 64)) % 2 ^ 64

/-- `zinc_safe_cast<size_t, long>`. -/
def toLong (n : ℕ) : ℤ := (n : ℤ).bmod (2 ^ 64)

/-- `std::copy` of a range of `value` to the begin of `target`, given by distances from
`value.begin()`. A range that leaves either string is undefined. -/
def copy (value : Bytes) (first last : ℤ) (target : Bytes) : Except Fault Bytes :=
  if 0 ≤ first ∧ first ≤ last ∧ last ≤ value.length ∧ last - first ≤ target.length then
    .ok ((value.drop first.toNat).take (last - first).toNat ++ target.drop (last - first).toNat)
  else .error .undefined

/-- `Identifier(const std::string&)`, as its statements run. -/
def parse (value : Bytes) : Except Fault Identifier := do
  let pos := find value
  let namespaceV ← resize pos
  let object ← resize (subSize value.length (1 + pos))
  let namespaceV ← copy value 0 (toLong pos) namespaceV
  let object ← copy value (toLong pos + 1) value.length object
  return ⟨namespaceV, object⟩

/-- `operator==`. -/
def equals (a b : Identifier) : Bool := a.toString == b.toString

/-! ### What they do -/

theorem resize_of_le {size : ℕ} (h : size ≤ maxSize) : resize size = .ok (zeros size) :=
  if_neg (not_lt.mpr h)

theorem subSize_of_le {a b : ℕ} (h : b ≤ a) (ha : a < 2 ^ 64) : subSize a b = a - b := by
  unfold subSize
  omega

theorem toLong_of_le {n : ℕ} (h : n ≤ maxSize) : toLong n = n := by
  unfold toLong
  unfold maxSize at h
  exact Int.bmod_eq_of_le (by omega) (by omega)

/-- A range inside the text that fills its target. -/
theorem copy_eq {value : Bytes} {first last : ℕ} (hfirst : first ≤ last)
    (hlast : last ≤ value.length) :
    copy value first last (zeros (last - first)) = .ok ((value.drop first).take (last - first)) := by
  have hbounds : (0 : ℤ) ≤ first ∧ (first : ℤ) ≤ last ∧ (last : ℤ) ≤ value.length ∧
      (last : ℤ) - first ≤ (zeros (last - first)).length := by
    rw [length_zeros]
    omega
  have hcount : ((last : ℤ) - first).toNat = last - first := by omega
  have htarget : (zeros (last - first)).drop (last - first) = [] :=
    List.drop_of_length_le (length_zeros _).le
  rw [copy, if_pos hbounds, hcount, Int.toNat_natCast, htarget, List.append_nil]

theorem find_eq_none_iff {value : Bytes} : value.findIdx? (· = colon) = none ↔ colon ∉ value := by
  rw [List.findIdx?_eq_none_iff]
  constructor
  · intro h hmem
    exact of_decide_eq_false (h colon hmem) rfl
  · intro h c hc
    exact decide_eq_false (ne_of_mem_of_not_mem hc h)

/-- Without a colon the first `resize` throws. -/
theorem parse_of_notMem {value : Bytes} (h : colon ∉ value) : parse value = .error .lengthError := by
  rw [parse, find, find_eq_none_iff.mpr h]
  rfl

/-- On every string that exists the steps split the text at the first colon. -/
theorem parse_eq {value : Bytes} (h : value.length ≤ maxSize) :
    parse value = Identifier.ofString value := by
  have hmax : maxSize < 2 ^ 63 := by decide
  cases hpos : value.findIdx? (· = colon) with
  | none =>
    have hof : Identifier.ofString value = .error .lengthError := by
      rw [Identifier.ofString, show value.findIdx? (· = 58) = none from hpos]
    rw [parse_of_notMem (find_eq_none_iff.mp hpos), hof]
  | some pos =>
    obtain ⟨hlt, -, -⟩ := List.findIdx?_eq_some_iff_getElem.mp hpos
    have hof : Identifier.ofString value = .ok ⟨value.take pos, value.drop (pos + 1)⟩ := by
      rw [Identifier.ofString, show value.findIdx? (· = 58) = some pos from hpos]
    have hfind : find value = pos := by rw [find, hpos, Option.getD_some]
    have hnamespace : copy value 0 pos (zeros pos) = .ok (value.take pos) :=
      copy_eq (Nat.zero_le pos) hlt.le
    have hobject : copy value (pos + 1) value.length (zeros (value.length - (1 + pos))) =
        .ok (value.drop (pos + 1)) := by
      have hcopy := copy_eq (show pos + 1 ≤ value.length from hlt) le_rfl
      rw [← List.length_drop, List.take_length, List.length_drop] at hcopy
      rw [Nat.add_comm 1 pos]
      exact hcopy
    rw [hof, parse, hfind, resize_of_le (by omega), ok_bind, subSize_of_le (by omega) (by omega),
      resize_of_le (by omega), ok_bind, toLong_of_le (by omega), hnamespace, ok_bind, hobject,
      ok_bind, pure_eq]

/-- The texts that make an identifier. -/
theorem exists_parse_iff {value : Bytes} (h : value.length ≤ maxSize) :
    (∃ identifier, parse value = .ok identifier) ↔ colon ∈ value := by
  rw [parse_eq h]
  constructor
  · rintro ⟨identifier, hparsed⟩
    rw [← toString_of_ofString hparsed]
    exact List.mem_append_right _ List.mem_cons_self
  · intro hcolon
    obtain ⟨identifier, hparsed, -⟩ := toString_ofString hcolon
    exact ⟨identifier, hparsed⟩

end Identifier

/-! ### A buffer that holds the text -/

variable {e : Bool}

/-- What `readIdentifier` does is what the constructor does with the string. -/
theorem readIdentifier_stored {value rest : Bytes} {buffer : ByteBuffer} (h : value.length < 2 ^ 31)
    (hbuffer : Stored e buffer (stringBytes value ++ rest)) :
    ∃ buffer', readIdentifier buffer =
      (Identifier.parse value).map fun identifier => (identifier, buffer') := by
  obtain ⟨buffer', hread, -⟩ := (readable_stored e).readString h buffer rest hbuffer
  refine ⟨buffer', ?_⟩
  rw [readIdentifier, bind_of_eq_ok hread, Identifier.parse_eq (le_maxSize h)]
  cases Identifier.ofString value <;> rfl

/-- A text is parsed, by the constructor and from a buffer, exactly when it has a colon, and the
identifier then has the text. The constructor never copies outside the text, and the text of
an identifier always makes an equal one. -/
theorem identifier_parsed_iff (e : Bool) (value rest : Bytes) (buffer : ByteBuffer)
    (h : value.length < 2 ^ 31) (hbuffer : Stored e buffer (stringBytes value ++ rest)) :
    ((∃ identifier buffer', Identifier.parse value = .ok identifier ∧
        readIdentifier buffer = .ok (identifier, buffer') ∧
        (Identifier.colon ∈ value → identifier.toString = value)) ↔ Identifier.colon ∈ value) ∧
      Identifier.parse value ≠ .error .undefined ∧
      ∀ x : Identifier, x.toString.length ≤ maxSize →
        ∃ y, Identifier.parse x.toString = .ok y ∧ y.equals x = true := by
  obtain ⟨buffer', hread⟩ := readIdentifier_stored h hbuffer
  have hiff := Identifier.exists_parse_iff (le_maxSize h)
  refine ⟨⟨?_, ?_⟩, ?_, ?_⟩
  · rintro ⟨identifier, -, hparsed, -⟩
    exact hiff.mp ⟨identifier, hparsed⟩
  · intro hcolon
    obtain ⟨identifier, hparsed⟩ := hiff.mpr hcolon
    refine ⟨identifier, buffer', hparsed, ?_, fun _ => ?_⟩
    · rw [hread, hparsed]
      rfl
    · rw [Identifier.parse_eq (le_maxSize h)] at hparsed
      exact Identifier.toString_of_ofString hparsed
  · by_cases hcolon : Identifier.colon ∈ value
    · obtain ⟨identifier, hparsed⟩ := hiff.mpr hcolon
      rw [hparsed]
      exact nofun
    · rw [Identifier.parse_of_notMem hcolon]
      exact nofun
  · intro x hx
    have hcolon : (58 : UInt8) ∈ x.toString := List.mem_append_right _ List.mem_cons_self
    obtain ⟨y, hparsed, htext⟩ := Identifier.toString_ofString hcolon
    refine ⟨y, (Identifier.parse_eq hx).trans hparsed, ?_⟩
    rw [Identifier.equals, htext, beq_self_eq_true]

theorem identifier_parsed_brand : ∃ buffer', Stored true buffer' (stringBytes (utf8 "a:b") ++ []) ∧
    Identifier.colon ∈ utf8 "a:b" ∧
    ∃ identifier rest, Identifier.parse (utf8 "a:b") = .ok identifier ∧
      readIdentifier buffer' = .ok (identifier, rest) := by
  have hbuffer : Stored true (ofBytes (stringBytes (utf8 "a:b"))) (stringBytes (utf8 "a:b") ++ []) :=
    (writeBytes_new _).2.1
  have hcolon : Identifier.colon ∈ utf8 "a:b" := by decide
  have hparsed := (identifier_parsed_iff true _ [] _ (by decide) hbuffer).1.mpr hcolon
  obtain ⟨identifier, rest, hparse, hread, -⟩ := hparsed
  exact ⟨_, hbuffer, hcolon, identifier, rest, hparse, hread⟩

/-- The channel `brand` has no colon. -/
theorem identifier_brand_throws :
    Stored true (ofBytes (stringBytes (utf8 "brand"))) (stringBytes (utf8 "brand")) ∧
      Identifier.parse (utf8 "brand") = .error .lengthError ∧
      readIdentifier (ofBytes (stringBytes (utf8 "brand"))) = .error .lengthError := by
  have hnone : Identifier.colon ∉ utf8 "brand" := by decide
  have hlen : (utf8 "brand").length < 2 ^ 31 := by decide
  have hbuffer := (writeBytes_new (stringBytes (utf8 "brand"))).2.1
  have hheld := hbuffer
  rw [← List.append_nil (stringBytes _)] at hheld
  obtain ⟨buffer', hread⟩ := readIdentifier_stored hlen hheld
  rw [Identifier.parse_of_notMem hnone] at hread
  exact ⟨hbuffer, Identifier.parse_of_notMem hnone, hread⟩

end Zinc.Buffer
