import Zinc.Base.Simulation
import Zinc.Buffer.Access
import Zinc.Nbt.Flat
import Zinc.Nbt.RoundTrip

/-! Decoding in a buffer follows the parser of the memory ahead. This holds for every
buffer that a run of commands leaves, with blocks recycled or not: the tree of the
decoded element is the parsed one, the memory left is the same, and decoding fails
where the parser fails and in the same way. Of a strict parser it does not share the
checks. At the end, when a reader indexes an empty result. -/

namespace Zinc.Nbt

open Throw Buffer Buffer.InternalByteBuffer Buffer.ByteBuffer NBTElementType NBTElement

variable {b : InternalByteBuffer} {e : Bool} {exact : Fault → Prop}

/-! ### Readers -/

theorem readBytes_simulates (length : ℕ) :
    Simulates (Passed b e) exact Eq (readBytes length) (Flat.readBytes length) := by
  intro buffer memory hview
  unfold Flat.readBytes
  by_cases hlarge : maxSize < length
  · rw [if_pos hlarge]
    refine ⟨by rintro _ _ ⟨⟩, fun f _ hf => ?_⟩
    cases hf
    rw [ByteBuffer.readBytes, InternalByteBuffer.read, if_pos hlarge]
    rfl
  · rw [if_neg hlarge]
    refine ⟨?_, by rintro f - ⟨⟩⟩
    rintro _ _ ⟨⟩
    obtain ⟨buffer', hread, h'⟩ := hview.readBytes (n := length) (by omega)
    exact ⟨_, buffer', hread, rfl, h'⟩

theorem readByte_simulates : Simulates (Passed b e) exact Eq readByte Flat.readByte := by
  intro buffer memory hview
  cases memory with
  | nil =>
    refine ⟨by rintro _ _ ⟨⟩, fun f _ hf => ?_⟩
    cases hf
    exact ends_passed b e hview
  | cons c memory =>
    refine ⟨?_, by rintro f - ⟨⟩⟩
    rintro _ _ ⟨⟩
    obtain ⟨buffer', hread, h'⟩ := (readable_passed b e).readByte c buffer memory hview
    exact ⟨_, buffer', hread, rfl, h'⟩

theorem readNumeric_simulates (k : ℕ) :
    Simulates (Passed b e) exact Eq (readNumeric k) (Flat.readNumeric e k) := by
  have hx : Simulates (Passed b e) exact Eq (do
      let bytes ← readBytes k
      pure (numericOfBytes e k bytes)) (Flat.readNumeric e k) :=
    (readBytes_simulates k).map _ _ fun bytes bytes' h => by rw [h]
  refine hx.congr fun buffer memory hview => ?_
  obtain ⟨internalBuffer, big⟩ := buffer
  obtain rfl : big = e := hview.endian
  rw [readNumeric, bind_apply, readBytes]
  cases internalBuffer.read k <;> rfl

theorem readVarNumeric_simulates (k : ℕ) (hk : k * 8 % 7 ≠ 0) (isSigned : Bool) :
    Simulates (Passed b e) exact Eq (readVarNumeric k isSigned) (Flat.readVarNumeric k) := by
  intro buffer memory hview
  have hv := readable_passed b e
  unfold Flat.readVarNumeric
  cases hdec : Base128.decode (varNumericMaxSize k) memory with
  | some n =>
    refine ⟨?_, by rintro f - ⟨⟩⟩
    rintro _ _ ⟨⟩
    obtain ⟨buffer', hread, h'⟩ := hv.readVarNumeric isSigned hk hview hdec
    exact ⟨_, buffer', hread, rfl, h'⟩
  | none =>
    by_cases hlen : memory.length < varNumericMaxSize k
    · simp only [if_pos hlen]
      refine ⟨by rintro _ _ ⟨⟩, fun f _ hf => ?_⟩
      cases hf
      have hmore := Base128.decode_eq_none_iff.mp hdec
      rw [List.take_of_length_le hlen.le] at hmore
      exact (hv.readVarNumeric_undefined_iff (ends_passed b e) isSigned hk hview).mpr ⟨hlen, hmore⟩
    · simp only [if_neg hlen]
      refine ⟨?_, by rintro f - ⟨⟩⟩
      rintro _ _ ⟨⟩
      obtain ⟨buffer', hread, h'⟩ := hv.readVarNumeric_overflow isSigned hk hview hdec (by omega)
      exact ⟨_, buffer', hread, rfl, h'⟩

theorem readZigZagVarNumeric_simulates (k : ℕ) (hk : k * 8 % 7 ≠ 0) :
    Simulates (Passed b e) exact Eq (readZigZagVarNumeric k) (Flat.readZigZagVarNumeric k) :=
  (readVarNumeric_simulates k hk false).map _ _ fun uv uv' h => by rw [h]

theorem readString_simulates : Simulates (Passed b e) exact Eq readString Flat.readString := by
  refine (readVarNumeric_simulates 4 (by decide) true).bind ?_
  rintro length _ rfl
  exact readBytes_simulates _

theorem readShortString_simulates :
    Simulates (Passed b e) exact Eq readShortString (Flat.readShortString e) := by
  refine (readNumeric_simulates 2).bind ?_
  rintro length _ rfl
  exact readBytes_simulates _

theorem readTag_simulates (settings : NBTSettings) :
    Simulates (Passed b e) exact Eq (readTag settings []) (Flat.readTag e settings) := by
  unfold Flat.readTag
  by_cases hnet : settings.isNetwork = false
  · rw [if_pos hnet]
    refine readShortString_simulates.congr fun buffer memory hview => ?_
    simp [readTag, hnet]
  · rw [if_neg hnet]
    cases e with
    | true =>
      refine (Simulates.pure rfl).congr fun buffer memory hview => ?_
      simp only [readTag, hview.endian, hnet]
      rfl
    | false =>
      refine readString_simulates.congr fun buffer memory hview => ?_
      simp [readTag, hview.endian, hnet]

theorem readNumber_simulates {k : ℕ} (hk : k * 8 % 7 ≠ 0) (settings : NBTSettings) :
    Simulates (Passed b e) exact Eq (readNumber k settings) (Flat.readNumber e k settings) := by
  unfold Flat.readNumber
  cases e with
  | true => exact (readNumeric_simulates k).congr fun buffer memory h => by simp [readNumber, h.endian]
  | false =>
    cases hnet : settings.isNetwork with
    | true =>
      exact (readZigZagVarNumeric_simulates k hk).congr fun buffer memory h => by
        simp [readNumber, h.endian, hnet]
    | false =>
      exact (readNumeric_simulates k).congr fun buffer memory h => by
        simp [readNumber, h.endian, hnet]

theorem readLength_simulates (settings : NBTSettings) :
    Simulates (Passed b e) exact Eq (readLength settings) (Flat.readLength e settings) :=
  (readNumber_simulates (k := 4) (by decide) settings).map _ _ fun length length' h => by rw [h]

theorem readStringValue_simulates (settings : NBTSettings) :
    Simulates (Passed b e) exact Eq (readStringValue settings) (Flat.readStringValue e settings) := by
  unfold Flat.readStringValue
  cases e with
  | true =>
    refine readShortString_simulates.congr fun buffer memory h => ?_
    simp [readStringValue, h.endian]
  | false =>
    cases hnet : settings.isNetwork with
    | true =>
      refine readString_simulates.congr fun buffer memory h => ?_
      simp [readStringValue, h.endian, hnet]
    | false =>
      refine readShortString_simulates.congr fun buffer memory h => ?_
      simp [readStringValue, h.endian, hnet]

/-! ### Heads and scalars -/

theorem readArray_simulates {α : Type} {x : Action α} {y : Flat.Parser α}
    (h : Simulates (Passed b e) exact Eq x y) (n : ℕ) :
    Simulates (Passed b e) exact Eq (readArray x n) (replicate y n) := by
  have hall := h.replicate n
  rwa [List.forall₂_eq_eq_eq] at hall

theorem decodeHead_simulates (settings : NBTSettings) :
    Simulates (Passed b e) exact (fun element p => element = blank settings p.2 p.1)
      (decodeHead (forceType (.new settings))) (Flat.parseHead e settings) := by
  rw [forceType_new]
  unfold decodeHead Flat.parseHead
  rw [blank_settings, blank_tag]
  split
  · exact .pure rfl
  · refine readByte_simulates.bind ?_
    rintro code _ rfl
    split
    · exact .pure rfl
    · refine (readTag_simulates settings).map _ _ ?_
      rintro tag _ rfl
      rfl

theorem decodeScalar_simulates (settings : NBTSettings) (tag : Bytes) {type : NBTElementType}
    (hl : type ≠ .list) (hc : type ≠ .compound) :
    Simulates (Passed b e) exact (fun element value => tree element = .scalar tag value)
      (decodeScalar (blank settings tag type)) (Flat.parseScalar e settings type) := by
  cases type with
  | byte => exact readByte_simulates.map _ _ fun v v' h => by rw [h]; rfl
  | short => exact (readNumeric_simulates 2).map _ _ fun v v' h => by rw [h]; rfl
  | int => exact (readNumber_simulates (k := 4) (by decide) settings).map _ _ fun v v' h => by rw [h]; rfl
  | long => exact (readNumber_simulates (k := 8) (by decide) settings).map _ _ fun v v' h => by rw [h]; rfl
  | float => exact (readNumeric_simulates 4).map _ _ fun v v' h => by rw [h]; rfl
  | double => exact (readNumeric_simulates 8).map _ _ fun v v' h => by rw [h]; rfl
  | byteArray =>
    refine (readLength_simulates settings).bind ?_
    rintro length _ rfl
    exact (readBytes_simulates _).map _ _ fun v v' h => by rw [h]; rfl
  | string => exact (readStringValue_simulates settings).map _ _ fun v v' h => by rw [h]; rfl
  | intArray =>
    refine (readLength_simulates settings).bind ?_
    rintro length _ rfl
    exact (readArray_simulates (readNumeric_simulates 4) length).map _ _ fun v v' h => by rw [h]; rfl
  | longArray =>
    refine (readLength_simulates settings).bind ?_
    rintro length _ rfl
    exact (readArray_simulates (readNumeric_simulates 8) length).map _ _ fun v v' h => by rw [h]; rfl
  | list => exact absurd rfl hl
  | compound => exact absurd rfl hc
  | endTag => exact .pure rfl
  | other code => exact .pure rfl

/-! ### Peeking -/

/-- What a parser sees of a buffer. -/
def allocation (b : InternalByteBuffer) (isBigEndian strict : Bool) : Flat.Allocation where
  isBigEndian := isBigEndian
  unwritten := blockSize - b.writeOffset
  drains := (b.enableBlockRecycle || b.blocks = []) && b.readBlock = 0 && 0 < b.writeOffset
  strict := strict

variable {strict : Bool} {buffer : ByteBuffer} {memory : Bytes}

theorem passed_table (hb : Regular b ∨ Drained b) (h : Passed b e buffer memory) :
    Regular buffer.internalBuffer ∨ Drained buffer.internalBuffer := by
  obtain ⟨n, hadv, -⟩ := h.advances
  obtain hregular | hdrained := hb
  · exact hregular.advance hadv h.frame
  · exact .inr (hdrained.advance hadv h.frame)

theorem passed_writeOffset (h : Passed b e buffer memory) :
    buffer.internalBuffer.writeOffset = b.writeOffset := by
  obtain ⟨n, hadv, -⟩ := h.advances
  exact hadv.writeOffset_eq

/-- With blocks left, memory is ahead unless the reader started behind the front block. -/
theorem not_drains_of_regular (h : Passed b e buffer []) (hregular : Regular buffer.internalBuffer) :
    (allocation b e strict).drains = false := by
  have hwriter := hregular.writer
  by_contra hdrains
  simp only [allocation, Bool.not_eq_false, Bool.and_eq_true, Bool.or_eq_true, decide_eq_true_eq]
    at hdrains
  obtain ⟨⟨hrecycle | hnil, hfront⟩, -⟩ := hdrains
  · have hleft := hregular.toShape.blocks_pos_iff_of_front
      ((h.frame.readBlock_eq hrecycle).trans hfront)
    rw [h.ahead_eq, List.length_nil] at hleft
    omega
  · obtain ⟨n, hadv, -⟩ := h.advances
    obtain ⟨k, hblocks, -⟩ := hadv.dropped
    rw [hblocks, hnil, List.drop_nil, List.length_nil] at hwriter
    cases hwriter

theorem peek_of_regular (h : Passed b e buffer memory) (hregular : Regular buffer.internalBuffer) :
    peek buffer = (Flat.peek (allocation b e strict) memory).map fun p => (p.1, buffer) := by
  have hlen := hregular.toShape.length_ahead
  have hoff := hregular.writeOffset_lt
  have hwo := passed_writeOffset h
  rw [h.ahead_eq, ← hregular.writer, Nat.succ_mul] at hlen
  have hsize : buffer.size = buffer.internalBuffer.writeBlock * blockSize +
      buffer.internalBuffer.writeOffset := rfl
  have hpointer : buffer.getReaderPointer = buffer.internalBuffer.readBlock * blockSize +
      buffer.internalBuffer.readOffset := rfl
  have hunwritten : (allocation b e strict).unwritten = blockSize - b.writeOffset := rfl
  unfold NBTElement.peek Flat.peek
  by_cases hfront : buffer.getReaderPointer < buffer.size
  · rw [if_pos hfront, if_pos (by omega)]
    have hget : buffer.getBytes[buffer.getReaderPointer]? = memory.head? := by
      rw [ByteBuffer.getBytes, hregular.getBytes_eq, List.getElem?_take_of_lt (by omega),
        ← List.head?_drop, ← h.ahead_eq]
      rfl
    rw [hget]
    cases memory with
    | nil =>
      rw [List.length_nil] at hlen
      omega
    | cons c memory => rfl
  · rw [if_neg hfront, if_neg (by omega)]
    cases memory with
    | nil => simp [not_drains_of_regular h hregular, Except.map]
    | cons c memory => simp [Except.map]

theorem peek_of_drained (hb : Regular b ∨ Drained b) (h : Passed b e buffer memory)
    (hdrained : Drained buffer.internalBuffer) :
    peek buffer = (Flat.peek (allocation b e strict) memory).map fun p => (p.1, buffer) := by
  have hnil := hdrained.blocks_eq
  have hblock : buffer.internalBuffer.readBlock = 0 := by
    have := hdrained.readBlock_le
    rwa [hnil, List.length_nil, Nat.le_zero] at this
  obtain rfl : memory = [] := by rw [← h.ahead_eq, ahead, hnil]; simp
  have hpointer : buffer.getReaderPointer = 0 := by
    simp [getReaderPointer, getReader, hblock, hdrained.readOffset_eq]
  have hsize : buffer.size = b.writeOffset := by
    simp [ByteBuffer.size, getWriter, hdrained.writeBlock_eq, passed_writeOffset h]
  have hbytes : buffer.getBytes = [] := by
    simp [ByteBuffer.getBytes, InternalByteBuffer.getBytes, hnil]
  -- the reader started in the front block, with recycling or in a table without blocks
  have hstart : (b.enableBlockRecycle = true ∨ b.blocks = []) ∧ b.readBlock = 0 := by
    cases hrecycle : b.enableBlockRecycle with
    | true => exact ⟨.inl rfl, (h.frame.readBlock_eq hrecycle).symm.trans hblock⟩
    | false =>
      have hblocks : b.blocks = [] := (h.frame.blocks_eq hrecycle).symm.trans hnil
      obtain hregular | hdrained' := hb
      · have := hregular.writer
        rw [hblocks] at this
        cases this
      · have := hdrained'.readBlock_le
        rw [hblocks, List.length_nil, Nat.le_zero] at this
        exact ⟨.inr hblocks, this⟩
  have hdrains : (allocation b e strict).drains = decide (0 < b.writeOffset) := by
    simp [allocation, hstart]
  unfold NBTElement.peek Flat.peek
  rw [hpointer, hsize, hdrains, hbytes]
  by_cases hpos : 0 < b.writeOffset <;> simp [hpos, Except.map]

theorem peek_simulates (hb : Regular b ∨ Drained b) :
    Simulates (Passed b e) exact Eq peek (Flat.peek (allocation b e strict)) := by
  intro buffer memory h
  have hpeek : peek buffer = (Flat.peek (allocation b e strict) memory).map fun p => (p.1, buffer) := by
    obtain hregular | hdrained := passed_table hb h
    · exact peek_of_regular h hregular
    · exact peek_of_drained hb h hdrained
  have hstate : ∀ c memory', Flat.peek (allocation b e strict) memory = .ok (c, memory') →
      memory' = memory := by
    intro c memory' hc
    unfold Flat.peek at hc
    split at hc
    · cases hc
      rfl
    · split at hc <;> cases hc
      rfl
  refine ⟨fun c memory' hc => ?_, fun f _ hf => ?_⟩
  · obtain rfl := hstate c memory' hc
    exact ⟨c, buffer, by rw [hpeek, hc]; rfl, rfl, h⟩
  · rw [hpeek, hf]
    rfl

/-! ### Decoding -/

theorem isBigEndian_simulates {α β : Type} {R : α → β → Prop} {f : Bool → Action α}
    {y : Flat.Parser β} (h : Simulates (Passed b e) exact R (f e) y) :
    Simulates (Passed b e) exact R (NBTElement.isBigEndian >>= f) y := by
  refine h.congr fun buffer memory hview => ?_
  have hread : NBTElement.isBigEndian buffer = .ok (e, buffer) := by
    rw [NBTElement.isBigEndian, hview.endian]
  rw [bind_of_eq_ok hread]

/-- The faults of the parser that decoding shares: all but those of a strict check. -/
def Exact (strict : Bool) (f : Fault) : Prop := strict = false ∨ f ≠ .stuck

/-- Decoding an element gives the parsed tree. -/
def Follows (b : InternalByteBuffer) (e strict : Bool) (decode : NBTElement → Action NBTElement)
    (parse : NBTSettings → Flat.Parser Tree) : Prop :=
  ∀ settings, Simulates (Passed b e) (Exact strict) (fun element t => tree element = t)
    (decode (.new settings)) (parse settings)

/-- The loop over the children of a compound appends the parsed ones. -/
def FollowsEntries (b : InternalByteBuffer) (e strict : Bool)
    (decodeEntries : NBTSettings → List NBTElement → Action (List NBTElement))
    (parseEntries : NBTSettings → Flat.Parser (List Tree)) : Prop :=
  ∀ settings children, Simulates (Passed b e) (Exact strict)
    (fun elements ts => ∃ more, elements = children ++ more ∧ more.map tree = ts)
    (decodeEntries settings children) (parseEntries settings)

theorem check_state (A : Flat.Allocation) (type : NBTElementType) :
    Ensures (fun memory _ memory' => memory' = memory) (Flat.check A type) := by
  intro memory u memory' h
  unfold Flat.check at h
  split at h <;> cases h
  rfl

theorem check_error (type : NBTElementType) (memory : Bytes) (f : Fault)
    (h : Flat.check (allocation b e strict) type memory = .error f) : ¬ Exact strict f := by
  unfold Flat.check at h
  split at h
  next hcheck =>
    cases h
    rintro (rfl | hne)
    · simp [allocation] at hcheck
    · exact hne rfl
  next => cases h

theorem decodeBody_simulates {decode : NBTElement → Action NBTElement}
    {decodeEntries : NBTSettings → List NBTElement → Action (List NBTElement)}
    {parse : NBTSettings → Flat.Parser Tree} {parseEntries : NBTSettings → Flat.Parser (List Tree)}
    (hparse : Follows b e strict decode parse)
    (hentries : FollowsEntries b e strict decodeEntries parseEntries) (settings : NBTSettings)
    (type : NBTElementType) (tag : Bytes) :
    Simulates (Passed b e) (Exact strict) (fun element t => tree element = t)
      (decodeBody decode decodeEntries (blank settings tag type))
      (Flat.parseBody (allocation b e strict) parse parseEntries settings type tag) := by
  by_cases hl : type = .list
  · subst hl
    refine readByte_simulates.bind ?_
    rintro code _ rfl
    refine (readLength_simulates settings).bind ?_
    rintro length _ rfl
    refine isBigEndian_simulates ?_
    have helement := (hparse (Flat.elementSettings e settings (ofByte code))).check
      (check_state (allocation b e strict) (ofByte code)) (check_error _)
    refine (helement.replicate (if ofByte code = .endTag then 0 else length)).map _ _ ?_
    intro children ts h
    have hchildren : children.map tree = ts := by
      rw [← List.forall₂_eq_eq_eq, List.forall₂_map_left_iff]
      exact h
    rw [tree_list rfl]
    exact congrArg (Tree.list tag) hchildren
  · by_cases hc : type = .compound
    · subst hc
      refine isBigEndian_simulates ?_
      refine (hentries (Flat.entrySettings e settings) []).map _ _ ?_
      rintro _ ts ⟨children, rfl, hchildren⟩
      rw [tree_compound rfl]
      exact congrArg (Tree.compound tag) hchildren
    · have hscalar : Simulates (Passed b e) (Exact strict) (fun element t => tree element = t)
          (decodeScalar (blank settings tag type)) (do
            let value ← Flat.parseScalar e settings type
            pure (.scalar tag value)) :=
        (decodeScalar_simulates settings tag hl hc).map_right (Tree.scalar tag) fun _ _ h => h
      cases type <;> first | exact hscalar | contradiction

/-- Decoding follows the parser, for every bound on the recursion. -/
theorem decode_simulates (hb : Regular b ∨ Drained b) (e strict : Bool) (n : ℕ) :
    Follows b e strict (decode n) (Flat.parse (allocation b e strict) n) ∧
      FollowsEntries b e strict (decodeEntries n) (Flat.parseEntries (allocation b e strict) n) := by
  induction n with
  | zero =>
    refine ⟨fun settings buffer memory h => ⟨?_, fun f _ hf => ?_⟩,
      fun settings children buffer memory h => ⟨?_, fun f _ hf => ?_⟩⟩
    · rintro _ _ ⟨⟩
    · cases hf
      rfl
    · rintro _ _ ⟨⟩
    · cases hf
      rfl
  | succ n ih =>
    obtain ⟨hparse, hentries⟩ := ih
    constructor
    · intro settings
      rw [decode, Flat.parse]
      refine (decodeHead_simulates settings).bind ?_
      rintro _ ⟨type, tag⟩ rfl
      exact decodeBody_simulates hparse hentries settings type tag
    · intro settings children
      rw [decodeEntries, Flat.parseEntries]
      refine (peek_simulates hb).bind ?_
      rintro c _ rfl
      cases c with
      | none => exact .pure ⟨[], by simp⟩
      | some c =>
        by_cases hc : c = 0
        · simp only [if_pos hc]
          exact readByte_simulates.map _ _ fun _ _ _ => ⟨[], by simp⟩
        · simp only [if_neg hc]
          refine (hparse settings).bind ?_
          rintro child _ rfl
          refine (hentries settings (children ++ [child])).map_right (tree child :: ·) ?_
          rintro elements ts ⟨more, rfl, rfl⟩
          exact ⟨child :: more, by rw [List.append_assoc, List.singleton_append], rfl⟩

/-! ### Reads of nothing -/

/-- The widths of the integer types. -/
inductive Width where
  | char
  | short
  | int
  | long

/-- `sizeof`. -/
def Width.size : Width → ℕ
  | char => 1
  | short => 2
  | int => 4
  | long => 8

theorem Width.size_mod (w : Width) : w.size * 8 % 7 ≠ 0 := by
  cases w <;> decide

/-- The readers that index the result of a read. -/
inductive Reader where
  | byte
  | unsignedByte
  | varNumeric (w : Width) (isSigned : Bool)
  | zigZagVarNumeric (w : Width)
  | element (n : ℕ) (settings : NBTSettings)

/-- The reader indexes no empty result. -/
def Reader.Defined (buffer : ByteBuffer) : Reader → Prop
  | .byte => readByte buffer ≠ .error .undefined
  | .unsignedByte => readUnsignedByte buffer ≠ .error .undefined
  | .varNumeric w isSigned => readVarNumeric w.size isSigned buffer ≠ .error .undefined
  | .zigZagVarNumeric w => readZigZagVarNumeric w.size buffer ≠ .error .undefined
  | .element n settings => decode n (.new settings) buffer ≠ .error .undefined

/-- The memory ahead ends a VarInt of the width, or has as many bytes as the widest. -/
def EndsVarNumeric (w : Width) (memory : Bytes) : Prop :=
  varNumericMaxSize w.size ≤ memory.length ∨ ∃ c ∈ memory, c.toNat < 128

/-- The memory ahead of the reader covers what is read: a byte in front of the end of the last
block, a VarInt that ends, an element that the parser does not run out of memory for. -/
def Reader.Covered (b : InternalByteBuffer) (isBigEndian : Bool) : Reader → Prop
  | .byte => b.readBlock < b.blocks.length
  | .unsignedByte => b.readBlock < b.blocks.length
  | .varNumeric w _ => EndsVarNumeric w (ahead b)
  | .zigZagVarNumeric w => EndsVarNumeric w (ahead b)
  | .element n settings =>
    Flat.parse (allocation b isBigEndian false) n settings (ahead b) ≠ .error .undefined

theorem not_endsVarNumeric_iff {w : Width} {memory : Bytes} :
    (memory.length < varNumericMaxSize w.size ∧ ∀ c ∈ memory, 128 ≤ c.toNat) ↔
      ¬ EndsVarNumeric w memory := by
  simp only [EndsVarNumeric, not_or, not_exists, not_and, not_le, not_lt]

/-- An exact simulation fails exactly where the parser does. -/
theorem decode_eq_error_iff (hb : Regular b ∨ Drained b) (n : ℕ) (settings : NBTSettings) (f : Fault) :
    decode n (.new settings) ⟨b, e⟩ = .error f ↔
      Flat.parse (allocation b e false) n settings (ahead b) = .error f := by
  have hshape : Shape b := by
    obtain hregular | hdrained := hb
    · exact hregular.toShape
    · exact hdrained.toShape
  obtain ⟨hok, herror⟩ := (decode_simulates hb e false n).1 settings _ _
    (passed_start hshape e)
  cases hparse : Flat.parse (allocation b e false) n settings (ahead b) with
  | ok p =>
    obtain ⟨element, buffer', hdecode, -⟩ := hok p.1 p.2 hparse
    rw [hdecode]
    exact iff_of_false (by rintro ⟨⟩) (by rintro ⟨⟩)
  | error f' =>
    rw [herror f' (.inl rfl) hparse]
    exact ⟨fun h => by cases h; rfl, fun h => by cases h; rfl⟩

/-- In every reachable buffer, a reader indexes no empty result exactly when the memory ahead
covers what it reads. -/
theorem defined_iff_covered {past : History.Past InternalByteBuffer Queue.Command}
    (h : Table.CommandRun past b) (isBigEndian : Bool) (reader : Reader) :
    reader.Defined ⟨b, isBigEndian⟩ ↔ reader.Covered b isBigEndian := by
  have hshape := Table.shape_of_run h
  have hle := hshape.readBlock_le
  cases reader with
  | byte =>
    rw [Reader.Defined, Reader.Covered, ne_eq, readByte_undefined_iff hshape]
    omega
  | unsignedByte =>
    rw [Reader.Defined, Reader.Covered, readUnsignedByte, ne_eq, readByte_undefined_iff hshape]
    omega
  | varNumeric w isSigned =>
    rw [Reader.Defined, Reader.Covered, ne_eq, readVarNumeric_undefined_iff hshape _ _ w.size_mod,
      not_endsVarNumeric_iff, not_not]
  | zigZagVarNumeric w =>
    rw [Reader.Defined, Reader.Covered, ne_eq, readZigZagVarNumeric_undefined_iff hshape _ w.size_mod,
      not_endsVarNumeric_iff, not_not]
  | element n settings =>
    rw [Reader.Defined, Reader.Covered, ne_eq, ne_eq,
      decode_eq_error_iff (Table.regular_or_drained h)]

/-- An element behind one written byte. -/
theorem defined_iff_covered_write : ∃ past b, Table.CommandRun past b ∧
    History.actions past = [.write [10]] ∧
    ((Reader.element 2 .new).Defined ⟨b, true⟩ ↔ (Reader.element 2 .new).Covered b true) := by
  obtain ⟨b, hwrite, -, -⟩ := holds_new.write [10]
  have hrun : Table.CommandRun [] .new := .start rfl
  have hrun₁ := hrun.next (.write hwrite)
  exact ⟨_, b, hrun₁, rfl, defined_iff_covered hrun₁ true _⟩

/-- A byte behind the only block. -/
theorem not_defined : ¬ ∀ past b, Table.CommandRun past b → ∀ isBigEndian (reader : Reader),
    reader.Defined ⟨b, isBigEndian⟩ := by
  intro h
  obtain ⟨b, hread, hadv⟩ := holds_new.shape.read (show 4096 ≤ maxSize by decide)
  have hrun : Table.CommandRun [] .new := .start rfl
  have hdefined := h _ _ (hrun.next (.read hread)) true .byte
  have hend : b.readBlock = b.blocks.length := by
    rw [← hadv.shape.ahead_eq_nil_iff, hadv.ahead_eq, List.drop_eq_nil_iff, holds_new.ahead_eq,
      List.nil_append, length_zeros]
    exact Nat.sub_le blockSize 0
  exact hdefined ((readByte_undefined_iff hadv.shape true).mpr hend)

end Zinc.Nbt
