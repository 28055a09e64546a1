import Zinc.Nbt.Prefixes
import Zinc.Nbt.Tagged

/-! The little-endian network format. Only the root is written in it: encoding gives the
children of a list and of a compound settings without the network flag, decoding keeps the
flag for them. What comes back for certain are roots whose children, if there are any, are
written alike in both formats: numbers of a fixed width and compounds without children. -/

namespace Zinc.Nbt

open Throw Buffer Buffer.InternalByteBuffer Buffer.ByteBuffer NBTElementType NBTElement

/-! ### What is written -/

/-- A tag or a string behind a VarInt. -/
def varText (bytes : Bytes) : Bytes := LengthForm.varInt.write false bytes.length ++ bytes

/-- The length of an array or a list. -/
def zigZagLength (n : ℕ) : Bytes := LengthForm.zigZag.write false n

/-- The type and the tag of a root. -/
def networkHead (type : NBTElementType) (tag : Bytes) : Bytes :=
  if type = .endTag then [0] else type.toByte :: varText tag

def Scalar.networkPayload : Scalar → Bytes
  | .int value => varNumericBytes (varNumericMaxSize 4) (zigZag value)
  | .long value => varNumericBytes (varNumericMaxSize 8) (zigZag value)
  | .byteArray value => zigZagLength value.length ++ value
  | .string value => varText value
  | .intArray value => zigZagLength value.length ++ value.flatMap fun v => numericBytes false (k := 4) v
  | .longArray value => zigZagLength value.length ++ value.flatMap fun v => numericBytes false (k := 8) v
  | value => value.payload false

/-- The bytes of a root; its children have the payloads and entries of the plain format. -/
def Tree.networkBytes : Tree → Bytes
  | .scalar tag value => networkHead value.type tag ++ value.networkPayload
  | .list tag children => networkHead .list tag ++
      (Tree.elementType children).toByte :: (zigZagLength children.length ++ Tree.payloads false children)
  | .compound tag children => networkHead .compound tag ++ (Tree.entries false children ++ [0])

theorem bytes_headLayout (type : NBTElementType) (tag : Bytes) :
    Encoding.bytes false (headLayout false networkSettings type tag) = networkHead type tag := by
  rw [headLayout, networkHead, if_neg (by decide)]
  split
  next h => rw [h]; rfl
  next =>
    rw [Encoding.bytes, Layout.word, tagLayout, if_neg (by simp), Layout.word_sized]
    rfl

theorem bytes_scalarLayout {element : NBTElement} (hl : element.type ≠ .list)
    (hc : element.type ≠ .compound) :
    Encoding.bytes false (scalarLayout false networkSettings element.type element) =
      element.scalar.networkPayload := by
  obtain ⟨_, _, type, _, _, _, _, _, _, _, _, _, _, _⟩ := element
  cases type with
  | byteArray => exact Layout.word_sized _ _
  | string => exact Layout.word_sized _ _
  | intArray =>
    change Layout.word _ (.counted _ (List.map _ _)) = _
    rw [Layout.word, Layout.words_plain, List.length_map]
    rfl
  | longArray =>
    change Layout.word _ (.counted _ (List.map _ _)) = _
    rw [Layout.word, Layout.words_plain, List.length_map]
    rfl
  | list => exact absurd rfl hl
  | compound => exact absurd rfl hc
  | _ => rfl

/-- Writing an element to a little-endian buffer. -/
theorem writeNBTElement_network {element : NBTElement} (ht : (tree element).WellFormed) :
    Produces (Stored false) (writeNBTElement element) (tree element).networkBytes := by
  have hv := writable_stored false
  have hhead := encodeHead_layout hv networkSettings element.type element.tag
  rw [bytes_headLayout] at hhead
  rw [writeNBTElement]
  by_cases hl : element.type = .list
  · rw [tree_list hl] at ht
    obtain - | ⟨-, -, htype, hchildren⟩ | - := ht
    rw [tree_list hl, encodeWith_list rfl hl, Tree.networkBytes]
    rw [hl] at hhead
    refine hhead.bind ?_
    have hlength : ∀ n, Produces (Stored false) (writeLength networkSettings n) (zigZagLength n) :=
      writeLength_layout hv networkSettings
    refine encodeList_produces hv hlength (fun t h => (htype t h).1) ?_
    intro child hchild
    have hmem := List.mem_map_of_mem (f := tree) hchild
    exact encodeWith_produces hv (hchildren _ hmem) child _ rfl (placed_array htype hmem)
  · by_cases hc : element.type = .compound
    · rw [tree_compound hc] at ht
      obtain - | - | ⟨-, htype, hchildren⟩ := ht
      rw [tree_compound hc, encodeWith_compound rfl hc, Tree.networkBytes]
      rw [hc] at hhead
      refine hhead.bind ?_
      rw [entries_eq_flatMap htype, List.flatMap_map]
      refine Produces.bind (Produces.forEach _ _ fun child hchild => ?_) (hv.writeByte 0)
      exact encodeWith_produces hv (hchildren _ (List.mem_map_of_mem hchild)) child _ rfl
        (placed_entry _)
    · have hscalar := encodeScalar_layout hv networkSettings element.type element
      rw [bytes_scalarLayout hl hc] at hscalar
      rw [encodeWith_scalar rfl hl hc, tree_scalar hl hc, Tree.networkBytes]
      rw [show element.scalar.type = element.type by rw [← tree_type, tree_scalar hl hc]; rfl]
      exact hhead.bind hscalar

/-! ### What is read of a root -/

namespace Flat

theorem readByte_cons (c : UInt8) (s : Bytes) : readByte (c :: s) = .ok (c, s) := rfl

theorem readVarText_append {bytes : Bytes} (h : bytes.length ≤ 65535) (s : Bytes) :
    readString (varText bytes ++ s) = .ok (bytes, s) := by
  have hread := readVarNumeric_append (k := 4) (by decide) (toInt bytes.length) (bytes ++ s)
  rw [varText, List.append_assoc, readString]
  refine (bind_of_eq_ok hread).trans ?_
  rw [toInt, toSize_ofNat (by omega), readBytes, if_neg (by unfold maxSize; omega), List.take_left,
    List.drop_left]

variable {settings : NBTSettings}

theorem readLength_append (hnet : settings.isNetwork = true) {n : ℕ} (hn : n < 2 ^ 32) (s : Bytes) :
    readLength false settings (zigZagLength n ++ s) = .ok (n, s) := by
  have hparse := LengthForm.parse_zigZag (e := false) hn s
  rw [readLength, readInt, readNumber, if_neg Bool.false_ne_true, if_pos hnet]
  exact hparse

theorem parseHead_append {type : NBTElementType} {tag : Bytes} (hvalid : type.Valid)
    (htag : tag.length ≤ 65535) (hend : type = .endTag → tag = []) (s : Bytes) :
    parseHead false networkSettings (networkHead type tag ++ s) = .ok ((type, tag), s) := by
  rw [parseHead, if_neg (by decide)]
  by_cases htype : type = .endTag
  · rw [networkHead, if_pos htype, htype, hend htype]
    rfl
  · rw [networkHead, if_neg htype, List.cons_append]
    have hread : readTag false networkSettings (varText tag ++ s) = .ok (tag, s) := by
      rw [readTag, if_neg (by decide), if_neg Bool.false_ne_true, readVarText_append htag]
    rw [bind_of_eq_ok (readByte_cons _ _), ofByte_toByte hvalid, if_neg htype, bind_of_eq_ok hread]
    rfl

theorem readNumbers_append {k : ℕ} (hk : k ≤ maxSize) (values : List (BitVec (8 * k))) (s : Bytes) :
    replicate (readNumeric false k) values.length
      ((values.flatMap fun v => numericBytes false v) ++ s) = .ok (values, s) := by
  have hread : Consumes Eq (replicate (readNumeric false k) values.length)
      (values.flatMap fun v => numericBytes false v) values :=
    Consumes.replicate _ values fun v _ memory rest h =>
      ⟨rest, h ▸ readNumeric_append false hk v rest, rfl⟩
  obtain ⟨rest, hrest, rfl⟩ := hread _ s rfl
  exact hrest

theorem parseScalar_append {value : Scalar} (h : value.WellFormed) (s : Bytes) :
    parseScalar false networkSettings value.type (value.networkPayload ++ s) = .ok (value, s) := by
  have hlen : ∀ {n}, n < 2 ^ 32 → ∀ s, readLength false networkSettings (zigZagLength n ++ s) =
      .ok (n, s) := readLength_append rfl
  cases value with
  | endTag => rfl
  | byte value => rfl
  | short value => exact bind_of_eq_ok (readNumeric_append false (k := 2) (by decide) value s)
  | int value => exact bind_of_eq_ok (readZigZagVarNumeric_append (k := 4) (by decide) value s)
  | long value => exact bind_of_eq_ok (readZigZagVarNumeric_append (k := 8) (by decide) value s)
  | float value => exact bind_of_eq_ok (readNumeric_append false (k := 4) (by decide) value s)
  | double value => exact bind_of_eq_ok (readNumeric_append false (k := 8) (by decide) value s)
  | byteArray value =>
    have hmax : ¬ maxSize < value.length := by
      have : value.length < 2 ^ 32 := h
      unfold maxSize
      omega
    have hbytes : readBytes value.length (value ++ s) = .ok (value, s) := by
      rw [readBytes, if_neg hmax, List.take_left, List.drop_left]
    rw [Scalar.networkPayload, List.append_assoc]
    refine (bind_of_eq_ok (hlen h _)).trans ?_
    exact bind_of_eq_ok hbytes
  | string value => exact bind_of_eq_ok (readVarText_append h s)
  | intArray value =>
    rw [Scalar.networkPayload, List.append_assoc]
    refine (bind_of_eq_ok (hlen h _)).trans ?_
    exact bind_of_eq_ok (readNumbers_append (k := 4) (by decide) value s)
  | longArray value =>
    rw [Scalar.networkPayload, List.append_assoc]
    refine (bind_of_eq_ok (hlen h _)).trans ?_
    exact bind_of_eq_ok (readNumbers_append (k := 8) (by decide) value s)
  | other code => rfl

end Flat

/-! ### Children of a fixed width -/

/-- The child has the same bytes with the network flag and without it. -/
def Rigid : Tree → Prop
  | .scalar _ (.byte _) => True
  | .scalar _ (.short _) => True
  | .scalar _ (.float _) => True
  | .scalar _ (.double _) => True
  | .scalar _ (.other _) => True
  | .compound _ [] => True
  | _ => False

/-- A root whose children are all rigid; those of a compound have tags, so there is none. A root of
the type End has no tag. -/
def Plain : Tree → Prop
  | .scalar tag value => value.type = .endTag → tag = []
  | .list _ children => ∀ t ∈ children, Rigid t
  | .compound _ children => children = []

namespace Flat

variable {A : Allocation} {settings : NBTSettings}

/-- The end of a compound in front of the writer. -/
theorem parseEntries_end {s : Bytes} (hs : A.unwritten ≤ s.length) (n : ℕ) :
    parseEntries A (n + 1) settings (0 :: s) = .ok ([], s) := by
  have hpeek : peek A (0 :: s) = .ok (some 0, 0 :: s) := by
    rw [peek, if_pos (by rw [List.length_cons]; omega)]
    rfl
  rw [parseEntries, bind_of_eq_ok hpeek]
  rfl

theorem parse_rigid (hA : A.isBigEndian = false) {t : Tree} (ht : Rigid t) (htag : t.tag = [])
    {s : Bytes} (hs : A.unwritten ≤ s.length) (n : ℕ) :
    parse A (n + 2) (elementSettings A.isBigEndian settings t.type) (t.payload false ++ s) =
      .ok (t, s) := by
  have hhead : ∀ memory, parseHead A.isBigEndian (elementSettings A.isBigEndian settings t.type) memory =
      .ok ((t.type, []), memory) := fun _ => rfl
  have hnumeric : ∀ {k : ℕ} (_ : k ≤ maxSize) (value : BitVec (8 * k)),
      readNumeric A.isBigEndian k (numericBytes false value ++ s) = .ok (value, s) := by
    rw [hA]
    exact fun hk value => readNumeric_append false hk value s
  rw [parse, bind_of_eq_ok (hhead _)]
  simp only
  cases t with
  | scalar tag value =>
    obtain rfl : tag = [] := htag
    cases value with
    | byte value | other code => rfl
    | short value => exact bind_of_eq_ok (bind_of_eq_ok (hnumeric (k := 2) (by decide) value))
    | float value => exact bind_of_eq_ok (bind_of_eq_ok (hnumeric (k := 4) (by decide) value))
    | double value => exact bind_of_eq_ok (bind_of_eq_ok (hnumeric (k := 8) (by decide) value))
    | _ => exact ht.elim
  | list tag children => exact ht.elim
  | compound tag children =>
    obtain rfl : tag = [] := htag
    cases children with
    | nil => exact bind_of_eq_ok (parseEntries_end hs n)
    | cons t ts => exact ht.elim

theorem check_of_lenient (hstrict : A.strict = false) (type : NBTElementType) (memory : Bytes) :
    check A type memory = .ok ((), memory) := by
  rw [check, hstrict, Bool.false_and, if_neg Bool.false_ne_true]

theorem parseElements_rigid (settings : NBTSettings) (hA : A.isBigEndian = false) (hstrict : A.strict = false)
    {type : NBTElementType} {ts : List Tree}
    (hrigid : ∀ t ∈ ts, Rigid t) (htype : ∀ t ∈ ts, t.type = type ∧ t.tag = []) {s : Bytes}
    (hs : A.unwritten ≤ s.length) (n : ℕ) :
    replicate (do
        check A type
        parse A (n + 2) (elementSettings A.isBigEndian settings type)) ts.length
      (Tree.payloads false ts ++ s) = .ok (ts, s) := by
  induction ts with
  | nil => rfl
  | cons t ts ih =>
    rw [List.forall_mem_cons] at hrigid htype
    obtain ⟨⟨rfl, htag⟩, htype⟩ := htype
    have hrest : A.unwritten ≤ (Tree.payloads false ts ++ s).length := by
      rw [List.length_append]
      omega
    have hfirst : (do
        check A t.type
        parse A (n + 2) (elementSettings A.isBigEndian settings t.type))
          (t.payload false ++ (Tree.payloads false ts ++ s)) = .ok (t, Tree.payloads false ts ++ s) := by
      rw [bind_of_eq_ok (check_of_lenient hstrict _ _)]
      exact parse_rigid hA hrigid.1 htag hrest n
    rw [List.length_cons, replicate, Tree.payloads, List.append_assoc, bind_of_eq_ok hfirst,
      bind_of_eq_ok (ih hrigid.2 htype)]
    rfl

theorem parseBody_scalar (hA : A.isBigEndian = false) (tag : Bytes) {value : Scalar}
    (hvalue : value.WellFormed) {parse : NBTSettings → Parser Tree}
    {parseEntries : NBTSettings → Parser (List Tree)} (s : Bytes) :
    parseBody A parse parseEntries networkSettings value.type tag (value.networkPayload ++ s) =
      .ok (.scalar tag value, s) := by
  have hscalar := parseScalar_append hvalue s
  rw [← hA] at hscalar
  have hbody : (do
      let value ← parseScalar A.isBigEndian networkSettings value.type
      pure (Tree.scalar tag value)) (value.networkPayload ++ s) = .ok (Tree.scalar tag value, s) :=
    bind_of_eq_ok hscalar
  cases value <;> exact hbody

/-- As many elements are read as were written. -/
theorem number_of_elements {children : List Tree} (h : ∀ t ∈ children, t.type ≠ .endTag) :
    (if Tree.elementType children = .endTag then 0 else children.length) = children.length := by
  cases children with
  | nil => rfl
  | cons t ts => exact if_neg (h t List.mem_cons_self)

/-- A plain root is parsed from what it is written as. -/
theorem parse_plain (hA : A.isBigEndian = false) (hstrict : A.strict = false) {t : Tree}
    (ht : t.WellFormed) (hplain : Plain t) {s : Bytes} (hs : A.unwritten ≤ s.length) (n : ℕ) :
    parse A (n + 3) networkSettings (t.networkBytes ++ s) = .ok (t, s) := by
  have hhead : ∀ type tag, type.Valid → tag.length ≤ 65535 → (type = .endTag → tag = []) → ∀ s,
      parseHead A.isBigEndian networkSettings (networkHead type tag ++ s) = .ok ((type, tag), s) := by
    rw [hA]
    exact fun type tag => parseHead_append
  rw [parse]
  cases ht with
  | @scalar tag value htag hvalue =>
    rw [Tree.networkBytes, List.append_assoc, bind_of_eq_ok (hhead _ _ hvalue.valid htag hplain _)]
    exact parseBody_scalar hA tag hvalue s
  | @list tag children htag hlength htype hchildren =>
    have hcount : ∀ s, readLength A.isBigEndian networkSettings (zigZagLength children.length ++ s) =
        .ok (children.length, s) := by
      rw [hA]
      exact readLength_append rfl hlength
    have helements := parseElements_rigid networkSettings hA hstrict hplain
      (fun t h => ⟨(htype t h).1, (htype t h).2.2⟩) hs n
    have hnumber := number_of_elements fun t h => (htype t h).2.1
    rw [Tree.networkBytes, List.append_assoc,
      bind_of_eq_ok (hhead .list _ trivial htag (by rintro ⟨⟩) _)]
    simp only
    rw [parseBody, List.cons_append, List.append_assoc, bind_of_eq_ok (readByte_cons _ _),
      bind_of_eq_ok (hcount _), ofByte_toByte (elementType_valid hchildren), hnumber,
      bind_of_eq_ok helements]
    rfl
  | @compound tag children htag htype hchildren =>
    obtain rfl : children = [] := hplain
    rw [Tree.networkBytes, List.append_assoc,
      bind_of_eq_ok (hhead .compound _ trivial htag (by rintro ⟨⟩) _)]
    exact bind_of_eq_ok (parseEntries_end hs _)

end Flat

/-! ### Plain roots come back -/

/-- Written to a little-endian buffer with a suffix behind it and read, the element is the same tree
and the reader stops in front of the suffix. -/
def ReturnsLittleEndian (element : NBTElement) (buffer : ByteBuffer) (suffix : Bytes) : Prop :=
  ∃ bound, ∀ n ≥ bound, ∃ element' buffer',
    (do writeNBTElement element; writeBytes suffix; readNBTElement n) buffer =
      .ok (element', buffer') ∧
    tree element' = tree element ∧
    buffer'.getBytes.drop buffer'.getReaderPointer = suffix ∧
    buffer'.size = buffer'.getReaderPointer + suffix.length

/-- The unread bytes behind which only the memory behind the writer is left. -/
theorem stored_of_passed {b : InternalByteBuffer} {e : Bool} {buffer : ByteBuffer} {suffix : Bytes}
    (hb : Regular b) (h : Passed b e buffer (suffix ++ zeros (blockSize - b.writeOffset))) :
    Stored e buffer suffix := by
  have hwo := passed_writeOffset h
  have hoff := hb.writeOffset_lt
  have hahead := h.ahead_eq
  obtain hregular | hdrained := passed_table (.inl hb) h
  · rw [← hwo] at hahead
    exact ⟨⟨h.shape, hregular.writer, hregular.writeOffset_lt, hahead⟩, h.endian⟩
  · have hlen := congrArg List.length hahead
    rw [InternalByteBuffer.ahead, hdrained.blocks_eq] at hlen
    simp only [List.flatten_nil, List.drop_nil, List.length_nil, List.length_append, length_zeros] at hlen
    omega

variable {element : NBTElement} {buffer : ByteBuffer}

theorem returns_of_plain (ht : (tree element).WellFormed) (hplain : Plain (tree element))
    (h : Stored false buffer []) (suffix : Bytes) : ReturnsLittleEndian element buffer suffix := by
  refine ⟨3, fun n hn => ?_⟩
  obtain ⟨n, rfl⟩ : ∃ k, n = k + 3 := ⟨n - 3, by omega⟩
  obtain ⟨buffer₁, h₁, hs₁⟩ := writeNBTElement_network ht buffer [] h
  obtain ⟨⟨b, e⟩, h₂, hs₂⟩ := (writable_stored false).writeBytes suffix buffer₁ _ hs₁
  obtain ⟨hholds, rfl⟩ : Holds b _ ∧ e = false := hs₂
  obtain ⟨hok, -⟩ := (decode_simulates (.inl hholds.regular) false false (n + 3)).1
    networkSettings _ _ (passed_start hholds.shape false)
  have hparse := Flat.parse_plain (A := allocation b false false) rfl rfl ht hplain
    (s := suffix ++ zeros (blockSize - b.writeOffset))
    (by rw [List.length_append, length_zeros]; exact Nat.le_add_left _ _) n
  rw [← List.append_assoc] at hparse
  rw [hholds.ahead_eq, List.nil_append] at hok
  obtain ⟨element', buffer', hdecode, htree, hpassed⟩ := hok _ _ hparse
  have hstored := stored_of_passed hholds.regular hpassed
  refine ⟨element', buffer', ?_, htree, hstored.1.getBytes, hstored.1.position⟩
  rw [bind_of_eq_ok h₁, bind_of_eq_ok h₂]
  exact hdecode

end Zinc.Nbt
