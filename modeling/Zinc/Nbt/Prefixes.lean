import Zinc.Base.Layout
import Zinc.Buffer.Sequence
import Zinc.Nbt.Flat
import Zinc.Nbt.RoundTrip

/-! The lengths in front of tags, strings, arrays and lists. What an element is encoded to
has a layout that names the form of every length; 16 bits hold the length of a tag or a
string outside the little-endian network format, 32 bits every other one. Below 2^31 only
the 16 bits can be too few: the lengths say what follows them, and lead over the encoding,
if and only if no such tag or string is longer than 65535 bytes. -/

namespace Zinc.Nbt

open Throw Buffer Buffer.ByteBuffer NBTElementType NBTElement

/-! ### Forms of lengths -/

inductive LengthForm where
  | short
  | int
  | varInt
  | zigZag
  deriving DecidableEq

namespace LengthForm

/-- The bytes that a size is written as. -/
def write (e : Bool) : LengthForm → ℕ → Bytes
  | short, n => count16 e n
  | int, n => count32 e n
  | varInt, n => varNumericBytes (varNumericMaxSize 4) (toInt n)
  | zigZag, n => varNumericBytes (varNumericMaxSize 4) (ByteBuffer.zigZag (toInt n))

/-- The reader of a length. -/
def parse (e : Bool) : LengthForm → Flat.Parser ℕ
  | short => do
    let length ← Flat.readNumeric e 2
    pure length.toNat
  | int => do
    let length ← Flat.readNumeric e 4
    pure length.toNat
  | varInt => do
    let length ← Flat.readVarNumeric 4
    pure (toSize length)
  | zigZag => do
    let length ← Flat.readZigZagVarNumeric 4
    pure length.toNat

def read (e : Bool) (form : LengthForm) (bytes : Bytes) : Option (ℕ × Bytes) :=
  (form.parse e bytes).toOption

end LengthForm

namespace Flat

theorem readNumeric_append (e : Bool) {k : ℕ} (hk : k ≤ maxSize) (value : BitVec (8 * k)) (s : Bytes) :
    readNumeric e k (numericBytes e value ++ s) = .ok (value, s) := by
  have hbytes : readBytes k (numericBytes e value ++ s) = .ok (numericBytes e value, s) := by
    have hlen := length_numericBytes e value
    rw [readBytes, if_neg (by omega), List.take_append_of_le_length hlen.ge,
      List.drop_append_of_le_length hlen.ge, List.take_of_length_le hlen.le,
      List.drop_of_length_le hlen.le, List.nil_append]
  rw [readNumeric, bind_of_eq_ok hbytes, numericOfBytes_numericBytes]
  rfl

theorem readVarNumeric_append {k : ℕ} (hk : 0 < k) (value : BitVec (8 * k)) (s : Bytes) :
    readVarNumeric k (varNumericBytes (varNumericMaxSize k) value ++ s) = .ok (value, s) := by
  have hlt := toNat_lt_maxSize value
  have hpos : 0 < varNumericMaxSize k := Nat.succ_pos _
  obtain ⟨hdec, hspan⟩ := Base128.decode_encode_append hpos hlt s
  rw [varNumericBytes_eq (by omega), readVarNumeric, hdec]
  simp only
  rw [hspan, ← Base128.length_encode hpos hlt, List.drop_left, BitVec.ofNat_toNat,
    BitVec.setWidth_eq]

theorem readZigZagVarNumeric_append {k : ℕ} (hk : 0 < k) (value : BitVec (8 * k)) (s : Bytes) :
    readZigZagVarNumeric k (varNumericBytes (varNumericMaxSize k) (zigZag value) ++ s) =
      .ok (value, s) := by
  rw [readZigZagVarNumeric, bind_of_eq_ok (readVarNumeric_append hk _ s), zigZag_inv]
  rfl

end Flat

namespace LengthForm

variable {e : Bool}

theorem parse_short (n : ℕ) (s : Bytes) :
    short.parse e (short.write e n ++ s) = .ok (n % 2 ^ 16, s) := by
  have hread := Flat.readNumeric_append e (k := 2) (by decide) (BitVec.ofNat 16 n) s
  rw [write, parse]
  exact bind_of_eq_ok hread

theorem parse_int {n : ℕ} (hn : n < 2 ^ 32) (s : Bytes) :
    int.parse e (int.write e n ++ s) = .ok (n, s) := by
  have hread := Flat.readNumeric_append e (k := 4) (by decide) (BitVec.ofNat 32 n) s
  have hnat : (BitVec.ofNat 32 n).toNat = n := Nat.mod_eq_of_lt hn
  rw [write, parse]
  refine (bind_of_eq_ok hread).trans ?_
  rw [hnat]
  rfl

theorem parse_varInt {n : ℕ} (hn : n < 2 ^ 31) (s : Bytes) :
    varInt.parse e (varInt.write e n ++ s) = .ok (n, s) := by
  have hread := Flat.readVarNumeric_append (k := 4) (by decide) (toInt n) s
  rw [write, parse]
  refine (bind_of_eq_ok hread).trans ?_
  rw [toInt, toSize_ofNat hn]
  rfl

theorem parse_zigZag {n : ℕ} (hn : n < 2 ^ 32) (s : Bytes) :
    zigZag.parse e (zigZag.write e n ++ s) = .ok (n, s) := by
  have hnat : (toInt n).toNat = n := Nat.mod_eq_of_lt hn
  have hread := Flat.readZigZagVarNumeric_append (k := 4) (by decide) (toInt n) s
  rw [write, parse]
  refine (bind_of_eq_ok hread).trans ?_
  rw [hnat]
  rfl

theorem read_of_parse {form : LengthForm} {bytes s : Bytes} {n : ℕ}
    (h : form.parse e bytes = .ok (n, s)) : read e form bytes = some (n, s) := by
  rw [read, h]
  rfl

/-- Below 2^31 a length is read back unless its 16 bits are too few. -/
theorem truthful_iff (form : LengthForm) {n : ℕ} (hn : n < 2 ^ 31) :
    Layout.Truthful (write e) (read e) form n ↔ (form = short → n ≤ 65535) := by
  cases form with
  | short =>
    constructor
    · intro h _
      have hmod := (read_of_parse (parse_short n [])).symm.trans (h [])
      simp only [Option.some.injEq, Prod.mk.injEq, and_true] at hmod
      omega
    · intro h s
      have hle := h rfl
      rw [read_of_parse (parse_short n s), Nat.mod_eq_of_lt (by omega)]
  | int => exact iff_of_true (fun s => read_of_parse (parse_int (by omega) s)) (by rintro ⟨⟩)
  | varInt => exact iff_of_true (fun s => read_of_parse (parse_varInt hn s)) (by rintro ⟨⟩)
  | zigZag => exact iff_of_true (fun s => read_of_parse (parse_zigZag (by omega) s)) (by rintro ⟨⟩)

end LengthForm

/-! ### Layouts of encodings -/

abbrev Encoding := Layout LengthForm UInt8

namespace Encoding

/-- The bytes of an encoding in a byte order. -/
def bytes (e : Bool) (encoding : Encoding) : Bytes := encoding.word (LengthForm.write e)

/-- Every length reads back as the number of bytes or elements behind it. -/
def Truthful (e : Bool) (encoding : Encoding) : Prop :=
  encoding.All (Layout.Truthful (LengthForm.write e) (LengthForm.read e))

/-- The walk over the bytes in front that the lengths lead. -/
def skip (e : Bool) (encoding : Encoding) (s : Bytes) : Option Bytes :=
  Layout.skip (LengthForm.read e) encoding s

end Encoding

section

variable (e : Bool) (settings : NBTSettings)

/-- The form in front of a tag or a string. -/
def textForm : LengthForm := if e || !settings.isNetwork then .short else .varInt

/-- The form in front of an array or a list. -/
def lengthForm : LengthForm := if e || !settings.isNetwork then .int else .zigZag

def numberBytes (k : ℕ) (value : BitVec (8 * k)) : Bytes :=
  if e || !settings.isNetwork then numericBytes e value
  else varNumericBytes (varNumericMaxSize k) (zigZag value)

def tagLayout (tag : Bytes) : Encoding :=
  if e && settings.isNetwork && tag.isEmpty then .plain [] else .sized (textForm e settings) tag

def headLayout (type : NBTElementType) (tag : Bytes) : Encoding :=
  if settings.isInArray then .plain []
  else if type = .endTag then .plain [type.toByte]
  else .seq (.plain [type.toByte]) (tagLayout e settings tag)

def scalarLayout (type : NBTElementType) (element : NBTElement) : Encoding :=
  match type with
  | .byte => .plain [element.byteValue]
  | .short => .plain (numericBytes e (k := 2) element.shortValue)
  | .int => .plain (numberBytes e settings 4 element.intValue)
  | .long => .plain (numberBytes e settings 8 element.longValue)
  | .float => .plain (numericBytes e (k := 4) element.floatValue)
  | .double => .plain (numericBytes e (k := 8) element.doubleValue)
  | .byteArray => .sized (lengthForm e settings) element.byteArrayValue
  | .intArray =>
    .counted (lengthForm e settings)
      (element.intArrayValue.map fun v => .plain (numericBytes e (k := 4) v))
  | .longArray =>
    .counted (lengthForm e settings)
      (element.longArrayValue.map fun v => .plain (numericBytes e (k := 8) v))
  | .string => .sized (textForm e settings) element.stringValue
  | _ => .plain []

/-- The type of the elements of a list, their number, and the elements. -/
def listLayout (type : NBTElementType) (elements : List Encoding) : Encoding :=
  .seq (.plain [type.toByte]) (.counted (lengthForm e settings) elements)

end

mutual

/-- The layout of what an element is encoded to. -/
def layout (e : Bool) (settings : NBTSettings) : NBTElement → Encoding
  | element@⟨_, tag, ownType, _, _, _, _, _, _, _, _, childElements, _, _⟩ =>
    let type := if settings.type ≠ .endTag then settings.type else ownType
    .seq (headLayout e settings type tag) (match type with
      | .list =>
        match childElements.head? with
        | none => listLayout e settings .endTag []
        | some first =>
          if childElements.any (fun child => first.type ≠ child.type) then
            listLayout e settings .endTag []
          else listLayout e settings first.type (layouts e (arraySettings first.type) childElements)
      | .compound => .seq (.sequence (layouts e .new childElements)) (.plain [0])
      | _ => scalarLayout e settings type element)

def layouts (e : Bool) (settings : NBTSettings) : List NBTElement → List Encoding
  | [] => []
  | element :: elements => layout e settings element :: layouts e settings elements

end

theorem length_layouts (e : Bool) (settings : NBTSettings) (elements : List NBTElement) :
    (layouts e settings elements).length = elements.length := by
  induction elements with
  | nil => rfl
  | cons element elements ih => rw [layouts, List.length_cons, List.length_cons, ih]

/-! ### What is written -/

section

variable {e : Bool} {view : ByteBuffer → Bytes → Prop} (hv : Writable e view) (settings : NBTSettings)

include hv

theorem writeText_produces (bytes : Bytes) : Produces view
    (if e || !settings.isNetwork then writeShortString bytes else writeString bytes)
    (Encoding.bytes e (.sized (textForm e settings) bytes)) := by
  rw [Encoding.bytes, Layout.word_sized, textForm]
  split
  · exact writeShortString_produces hv bytes
  · exact (hv.writeVarNumeric (k := 4) (toInt bytes.length)).bind (hv.writeBytes bytes)

theorem writeTag_layout (tag : Bytes) :
    Produces view (writeTag settings tag) (Encoding.bytes e (tagLayout e settings tag)) := by
  have hwrite := writeText_produces hv settings tag
  unfold tagLayout
  intro buffer bs h
  have hend := hv.endian h
  unfold writeTag
  rw [hend]
  cases e with
  | false =>
    simp only [Bool.false_or, Bool.false_and, Bool.false_eq_true, if_false, if_true] at hwrite ⊢
    cases hnet : settings.isNetwork <;> simp only [hnet] at hwrite ⊢ <;> exact hwrite buffer bs h
  | true =>
    simp only [Bool.true_or, Bool.true_and, if_true, Bool.true_eq_false, if_false] at hwrite ⊢
    by_cases hskip : tag = [] ∧ settings.isNetwork = true
    · obtain ⟨rfl, hnet⟩ := hskip
      rw [hnet, if_neg (by simp)]
      exact ⟨buffer, rfl, by simpa [Encoding.bytes, Layout.word] using h⟩
    · rw [if_pos hskip, if_neg (by simpa [and_comm] using hskip)]
      exact hwrite buffer bs h

theorem writeNumber_layout {k : ℕ} (value : BitVec (8 * k)) :
    Produces view (writeNumber k settings value) (numberBytes e settings k value) := by
  intro buffer bs h
  have hnumeric := hv.writeNumeric value buffer bs h
  have hzigzag := hv.writeVarNumeric (zigZag value) buffer bs h
  rw [writeNumber, numberBytes, hv.endian h]
  cases e <;> cases hnet : settings.isNetwork <;> first | exact hnumeric | exact hzigzag

theorem writeLength_layout (n : ℕ) :
    Produces view (writeLength settings n) ((lengthForm e settings).write e n) := by
  have hwrite := writeNumber_layout hv settings (k := 4) (BitVec.ofNat 32 n)
  rw [writeLength, writeInt]
  unfold lengthForm
  unfold numberBytes at hwrite
  by_cases hform : (e || !settings.isNetwork) = true
  · rw [if_pos hform] at hwrite ⊢
    exact hwrite
  · rw [if_neg hform] at hwrite ⊢
    exact hwrite

theorem writeStringValue_layout (value : Bytes) : Produces view (writeStringValue settings value)
    (Encoding.bytes e (.sized (textForm e settings) value)) := by
  intro buffer bs h
  have hwrite := writeText_produces hv settings value buffer bs h
  rw [writeStringValue, hv.endian h]
  cases e <;> cases hnet : settings.isNetwork <;> simp only [hnet] at hwrite ⊢ <;> exact hwrite

theorem writeSized_layout (bytes : Bytes) :
    Produces view (do
        writeLength settings bytes.length
        writeBytes bytes)
      (Encoding.bytes e (.sized (lengthForm e settings) bytes)) := by
  rw [Encoding.bytes, Layout.word_sized]
  exact (writeLength_layout hv settings _).bind (hv.writeBytes bytes)

theorem writeNumbers_layout {k : ℕ} (values : List (BitVec (8 * k))) :
    Produces view (do
        writeLength settings values.length
        writeArray values fun v => writeNumeric v)
      (Encoding.bytes e (.counted (lengthForm e settings)
        (values.map fun v => .plain (numericBytes e v)))) := by
  rw [Encoding.bytes, Layout.word, List.length_map, Layout.words_plain]
  exact (writeLength_layout hv settings _).bind
    (Produces.forEach _ values fun v _ => hv.writeNumeric v)

theorem encodeHead_layout (type : NBTElementType) (tag : Bytes) :
    Produces view (encodeHead settings type tag)
      (Encoding.bytes e (headLayout e settings type tag)) := by
  unfold encodeHead headLayout
  split
  · exact Produces.pure
  · split
    · exact hv.writeByte _
    · exact (hv.writeByte _).bind (writeTag_layout hv settings tag)

theorem encodeScalar_layout (type : NBTElementType) (element : NBTElement) :
    Produces view (encodeScalar settings type element)
      (Encoding.bytes e (scalarLayout e settings type element)) := by
  cases type with
  | byte => exact hv.writeByte _
  | short => exact hv.writeNumeric (k := 2) _
  | int => exact writeNumber_layout hv settings (k := 4) _
  | long => exact writeNumber_layout hv settings (k := 8) _
  | float => exact hv.writeNumeric (k := 4) _
  | double => exact hv.writeNumeric (k := 8) _
  | byteArray => exact writeSized_layout hv settings _
  | string => exact writeStringValue_layout hv settings _
  | intArray => exact writeNumbers_layout hv settings (k := 4) _
  | longArray => exact writeNumbers_layout hv settings (k := 8) _
  | _ => exact Produces.pure

/-- A list without elements on the wire. -/
theorem writeEmpty_layout : Produces view (do
      writeByte 0
      writeLength settings 0)
    (Encoding.bytes e (listLayout e settings .endTag [])) := by
  have hlength := writeLength_layout hv settings 0
  rw [← List.append_nil (LengthForm.write e _ 0)] at hlength
  exact (hv.writeByte 0).bind hlength

end

mutual

/-- An element is encoded to the bytes of its layout. -/
theorem encodeWith_layout {e : Bool} {view : ByteBuffer → Bytes → Prop} (hv : Writable e view) :
    (element : NBTElement) → ∀ settings, Produces view (encodeWith settings element)
      (Encoding.bytes e (layout e settings element))
  | element@⟨_, tag, ownType, _, _, _, _, _, _, _, _, childElements, _, _⟩, settings => by
    rw [encodeWith, layout]
    generalize (if settings.type ≠ .endTag then settings.type else ownType) = type
    refine (encodeHead_layout hv settings type tag).bind ?_
    cases type with
    | list =>
      simp only
      cases hfirst : childElements.head? with
      | none => exact writeEmpty_layout hv settings
      | some first =>
        simp only
        split
        · exact writeEmpty_layout hv settings
        · have hlength := writeLength_layout hv settings childElements.length
          rw [← length_layouts e (arraySettings first.type) childElements] at hlength ⊢
          refine (hv.writeByte _).bind ?_
          exact hlength.bind (encodeChildren_layout hv childElements (arraySettings first.type))
    | compound =>
      have hchildren := encodeChildren_layout hv childElements .new
      rw [← Layout.word_sequence] at hchildren
      exact hchildren.bind (hv.writeByte 0)
    | _ => exact encodeScalar_layout hv settings _ _

theorem encodeChildren_layout {e : Bool} {view : ByteBuffer → Bytes → Prop} (hv : Writable e view) :
    (elements : List NBTElement) → ∀ settings, Produces view (encodeChildren settings elements)
      (Layout.words (LengthForm.write e) (layouts e settings elements))
  | [], settings => Produces.pure
  | element :: elements, settings => by
    rw [encodeChildren, layouts, Layout.words]
    exact (encodeWith_layout hv element settings).bind (encodeChildren_layout hv elements settings)

end

/-! ### Sizes -/

mutual

/-- The tag, the string, the arrays and the list of every element are below 2^31. -/
def Sized : NBTElement → Prop
  | ⟨_, tag, _, _, _, _, _, _, _, bytes, value, childElements, ints, longs⟩ =>
    (tag.length < 2 ^ 31 ∧ bytes.length < 2 ^ 31 ∧ value.length < 2 ^ 31 ∧ ints.length < 2 ^ 31 ∧
      longs.length < 2 ^ 31 ∧ childElements.length < 2 ^ 31) ∧ AllSized childElements

def AllSized : List NBTElement → Prop
  | [] => True
  | element :: elements => Sized element ∧ AllSized elements

end

/-- A tag or a string, if its length has 16 bits. -/
def shortText (e : Bool) (settings : NBTSettings) (bytes : Bytes) : List Bytes :=
  if e || !settings.isNetwork then [bytes] else []

mutual

/-- The tags and the strings that are written behind a length of 16 bits. -/
def shortTexts (e : Bool) (settings : NBTSettings) : NBTElement → List Bytes
  | ⟨_, tag, ownType, _, _, _, _, _, _, _, value, childElements, _, _⟩ =>
    let type := if settings.type ≠ .endTag then settings.type else ownType
    (if settings.isInArray ∨ type = .endTag then [] else shortText e settings tag) ++ (match type with
      | .list =>
        match childElements.head? with
        | none => []
        | some first =>
          if childElements.any (fun child => first.type ≠ child.type) then []
          else shortTextsOf e (arraySettings first.type) childElements
      | .compound => shortTextsOf e .new childElements
      | .string => shortText e settings value
      | _ => [])

def shortTextsOf (e : Bool) (settings : NBTSettings) : List NBTElement → List Bytes
  | [] => []
  | element :: elements => shortTexts e settings element ++ shortTextsOf e settings elements

end

/-- The 16 bits suffice. -/
def Fits (form : LengthForm) (n : ℕ) : Prop := form = .short → n ≤ 65535

section

variable (e : Bool) (settings : NBTSettings)

theorem all_listLayout (P : LengthForm → ℕ → Prop) (type : NBTElementType) (elements : List Encoding) :
    Layout.All P (listLayout e settings type elements) ↔
      P (lengthForm e settings) elements.length ∧ Layout.AllOf P elements := by
  rw [listLayout, Layout.All, Layout.All, Layout.All]
  exact and_iff_right trivial

theorem fits_lengthForm (n : ℕ) : Fits (lengthForm e settings) n := by
  unfold Fits lengthForm
  split <;> rintro ⟨⟩

theorem fits_text (bytes : Bytes) : Layout.All Fits (.sized (textForm e settings) bytes) ↔
    ∀ text ∈ shortText e settings bytes, text.length ≤ 65535 := by
  rw [Layout.all_sized, Fits, textForm, shortText]
  cases e || !settings.isNetwork <;> simp

theorem fits_tag (tag : Bytes) : Layout.All Fits (tagLayout e settings tag) ↔
    ∀ text ∈ shortText e settings tag, text.length ≤ 65535 := by
  unfold tagLayout
  split
  next h =>
    simp only [Bool.and_eq_true, List.isEmpty_iff] at h
    rw [shortText, h.2]
    exact iff_of_true trivial (by split <;> simp)
  next => exact fits_text e settings tag

theorem fits_head (type : NBTElementType) (tag : Bytes) :
    Layout.All Fits (headLayout e settings type tag) ↔
      ∀ text ∈ (if settings.isInArray ∨ type = .endTag then [] else shortText e settings tag),
        text.length ≤ 65535 := by
  unfold headLayout
  by_cases harr : settings.isInArray = true
  · simp [harr, Layout.All]
  by_cases hend : type = .endTag
  · simp [harr, hend, Layout.All]
  · rw [if_neg harr, if_neg hend, if_neg (not_or.mpr ⟨harr, hend⟩), Layout.All, fits_tag]
    exact and_iff_right trivial

theorem fits_scalar (type : NBTElementType) (element : NBTElement) (hl : type ≠ .list)
    (hc : type ≠ .compound) : Layout.All Fits (scalarLayout e settings type element) ↔
      ∀ text ∈ (if type = .string then shortText e settings element.stringValue else []),
        text.length ≤ 65535 := by
  have hlen := fits_lengthForm e settings
  cases type with
  | list => exact absurd rfl hl
  | compound => exact absurd rfl hc
  | string => exact fits_text e settings element.stringValue
  | byteArray => exact iff_of_true ((Layout.all_sized _ _).mpr (hlen _)) (by simp)
  | intArray => exact iff_of_true ⟨hlen _, Layout.allOf_plain _ _⟩ (by simp)
  | longArray => exact iff_of_true ⟨hlen _, Layout.allOf_plain _ _⟩ (by simp)
  | _ => exact iff_of_true trivial (by simp)

end

mutual

/-- The 16 bits suffice for all lengths exactly if they do for the tags and strings. -/
theorem fits_layout (e : Bool) : (element : NBTElement) → ∀ settings,
    Layout.All Fits (layout e settings element) ↔
      ∀ text ∈ shortTexts e settings element, text.length ≤ 65535
  | element@⟨_, tag, ownType, _, _, _, _, _, _, _, _, childElements, _, _⟩, settings => by
    rw [layout, shortTexts]
    generalize (if settings.type ≠ .endTag then settings.type else ownType) = type
    rw [Layout.All, fits_head, List.forall_mem_append]
    refine and_congr_right fun _ => ?_
    have hempty : Layout.All Fits (listLayout e settings .endTag []) :=
      (all_listLayout e settings _ _ _).mpr ⟨fits_lengthForm e settings _, trivial⟩
    cases type with
    | list =>
      simp only
      cases hfirst : childElements.head? with
      | none => exact iff_of_true hempty (by simp)
      | some first =>
        simp only
        split
        · exact iff_of_true hempty (by simp)
        · rw [all_listLayout, fits_layouts e childElements]
          exact and_iff_right (fits_lengthForm e settings _)
    | compound =>
      have hchildren := fits_layouts e childElements .new
      rw [← Layout.all_sequence] at hchildren
      rw [Layout.All, hchildren]
      exact and_iff_left trivial
    | string => exact fits_scalar e settings .string _ (by decide) (by decide)
    | _ =>
      exact (fits_scalar e settings _ _ (by simp) (by simp)).trans (by simp)

theorem fits_layouts (e : Bool) : (elements : List NBTElement) → ∀ settings,
    Layout.AllOf Fits (layouts e settings elements) ↔
      ∀ text ∈ shortTextsOf e settings elements, text.length ≤ 65535
  | [], settings => by simp [layouts, Layout.AllOf, shortTextsOf]
  | element :: elements, settings => by
    rw [layouts, Layout.AllOf, shortTextsOf, List.forall_mem_append, fits_layout e element,
      fits_layouts e elements]

end

/-- Below 2^31. -/
def Small (_ : LengthForm) (n : ℕ) : Prop := n < 2 ^ 31

section

variable (e : Bool) (settings : NBTSettings)

theorem small_head (type : NBTElementType) {tag : Bytes} (h : tag.length < 2 ^ 31) :
    Layout.All Small (headLayout e settings type tag) := by
  unfold headLayout tagLayout
  split
  · trivial
  · split
    · trivial
    · refine ⟨trivial, ?_⟩
      split
      · trivial
      · exact (Layout.all_sized _ _).mpr h

theorem small_scalar (type : NBTElementType) {element : NBTElement} (h : Sized element) :
    Layout.All Small (scalarLayout e settings type element) := by
  obtain ⟨_, _, _, _, _, _, _, _, _, bytes, value, _, ints, longs⟩ := element
  obtain ⟨-, hbytes, hvalue, hints, hlongs, -⟩ := h.1
  cases type with
  | byteArray => exact (Layout.all_sized _ _).mpr hbytes
  | string => exact (Layout.all_sized _ _).mpr hvalue
  | intArray => exact ⟨by rwa [Small, List.length_map], Layout.allOf_plain _ _⟩
  | longArray => exact ⟨by rwa [Small, List.length_map], Layout.allOf_plain _ _⟩
  | _ => trivial

end

mutual

theorem small_layout (e : Bool) : (element : NBTElement) → Sized element → ∀ settings,
    Layout.All Small (layout e settings element)
  | element@⟨_, tag, ownType, _, _, _, _, _, _, _, _, childElements, _, _⟩, h, settings => by
    rw [layout]
    generalize (if settings.type ≠ .endTag then settings.type else ownType) = type
    refine ⟨small_head e settings type h.1.1, ?_⟩
    have hempty : Layout.All Small (listLayout e settings .endTag []) :=
      (all_listLayout e settings _ _ _).mpr ⟨Nat.two_pow_pos 31, trivial⟩
    cases type with
    | list =>
      simp only
      split
      · exact hempty
      · split
        · exact hempty
        · refine (all_listLayout e settings _ _ _).mpr ⟨?_, small_layouts e childElements h.2 _⟩
          rw [Small, length_layouts]
          exact h.1.2.2.2.2.2
    | compound =>
      exact ⟨(Layout.all_sequence _).mpr (small_layouts e childElements h.2 .new), trivial⟩
    | _ => exact small_scalar e settings _ h

theorem small_layouts (e : Bool) : (elements : List NBTElement) → AllSized elements → ∀ settings,
    Layout.AllOf Small (layouts e settings elements)
  | [], _, _ => trivial
  | element :: elements, h, settings =>
    ⟨small_layout e element h.1 settings, small_layouts e elements h.2 settings⟩

end

/-! ### Truthful lengths -/

/-- What encoding writes is an encoding whose lengths say what follows them and lead over it. -/
structure TruthfulLengths (e : Bool) (settings : NBTSettings) (element : NBTElement) : Prop where
  written : Produces (Stored e) (encodeWith settings element) ((layout e settings element).bytes e)
  truthful : (layout e settings element).Truthful e
  skips : ∀ s, (layout e settings element).skip e ((layout e settings element).bytes e ++ s) = some s

theorem truthful_iff_fits (e : Bool) (settings : NBTSettings) {element : NBTElement}
    (h : Sized element) : (layout e settings element).Truthful e ↔
      ∀ text ∈ shortTexts e settings element, text.length ≤ 65535 := by
  rw [← fits_layout]
  exact Layout.all_congr (fun form n hn => form.truthful_iff hn) _ (small_layout e element h settings)

/-- The lengths are truthful exactly if no tag or string with a length of 16 bits is longer than
65535 bytes. -/
theorem truthfulLengths_iff (element : NBTElement) (h : Sized element) (e : Bool)
    (settings : NBTSettings) : TruthfulLengths e settings element ↔
      ∀ text ∈ shortTexts e settings element, text.length ≤ 65535 := by
  rw [← truthful_iff_fits e settings h]
  constructor
  · exact fun htruthful => htruthful.truthful
  · intro htruthful
    exact ⟨encodeWith_layout (writable_stored e) element settings, htruthful,
      Layout.skip_word _ htruthful⟩

/-- A compound with a list of strings. -/
def strings : NBTElement :=
  .compound [] [.list [97] [.string [] [98], .string [] []]]

theorem truthfulLengths_iff_strings : TruthfulLengths true networkSettings strings ↔
    ∀ text ∈ shortTexts true networkSettings strings, text.length ≤ 65535 :=
  truthfulLengths_iff strings
    (by simp [Sized, AllSized, strings, NBTElement.compound, NBTElement.list, NBTElement.string, blank])
    true networkSettings

/-- A string of 65536 bytes stands behind the length 0. -/
theorem not_truthfulLengths : Sized (.string [] (zeros 65536)) ∧
    ¬ TruthfulLengths true .new (.string [] (zeros 65536)) := by
  have hsized : Sized (.string [] (zeros 65536)) := by
    simp [Sized, AllSized, NBTElement.string, blank]
  refine ⟨hsized, fun h => ?_⟩
  have htext : zeros 65536 ∈ shortTexts true .new (.string [] (zeros 65536)) := by
    simp [shortTexts, NBTElement.string, blank, shortText, NBTSettings.new]
  have hlong := (truthful_iff_fits true .new hsized).mp h.truthful _ htext
  rw [length_zeros] at hlong
  omega

end Zinc.Nbt
