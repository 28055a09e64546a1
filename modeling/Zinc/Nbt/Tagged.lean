import Zinc.Nbt.Bounded

/-! A tagged root in a network message. The writer puts the tag behind the type whenever
there is one, the reader of a big-endian network message never expects it and reads the
tag's length as the beginning of the payload. What decoding takes is at most what its
tree would be written as, so no such message is read to its end with the value that was
written; only a root of the type End, which has no tag on the wire, comes back. -/

namespace Zinc.Nbt

open Throw Buffer Buffer.InternalByteBuffer Buffer.ByteBuffer NBTElementType NBTElement

namespace Flat

/-! ### What readers use -/

/-- At most as many bytes of the memory are taken as the result has. -/
def Uses {α : Type} (size : α → ℕ) (x : Parser α) : Prop :=
  Ensures (fun memory a rest => memory.length ≤ rest.length + size a) x

theorem Uses.pure {α : Type} {size : α → ℕ} (a : α) : Uses size (Pure.pure a : Parser α) :=
  Ensures.pure fun _ => Nat.le_add_right _ _

theorem Uses.map {α β : Type} {size : α → ℕ} {size' : β → ℕ} {x : Parser α} (f : α → β)
    (hx : Uses size x) (h : ∀ a, size a ≤ size' (f a)) :
    Uses size' (x >>= fun a => Pure.pure (f a)) :=
  Ensures.map f hx fun memory a rest hle => by have := h a; omega

theorem Uses.mono {α : Type} {size size' : α → ℕ} {x : Parser α} (hx : Uses size x)
    (h : ∀ a, size a ≤ size' a) : Uses size' x :=
  Ensures.mono hx fun memory a rest hle => by have := h a; omega

theorem Uses.bind {α β : Type} {m : ℕ} {size : β → ℕ} {x : Parser α} {f : α → Parser β}
    (hx : Uses (fun _ => m) x) (hf : ∀ a, Uses size (f a)) :
    Uses (fun b => m + size b) (x >>= f) :=
  Ensures.bind hx hf fun memory a memory₁ b rest hle hle' => by
    simp only at hle ⊢
    omega

/-- A count, what it counts, and a last step. -/
theorem Uses.bind_map {α β γ : Type} {m : ℕ} {size : β → ℕ} {size' : γ → ℕ} {x : Parser α}
    {y : α → Parser β} (hx : Uses (fun _ => m) x) (hy : ∀ a, Uses size (y a)) (f : β → γ)
    (h : ∀ b, m + size b ≤ size' (f b)) :
    Uses size' (do
      let a ← x
      let b ← y a
      Pure.pure (f b)) := by
  intro memory c rest hc
  obtain ⟨⟨a, memory₁⟩, h₁, hc⟩ := bind_eq_ok.mp hc
  obtain ⟨⟨b, memory₂⟩, h₂, hc⟩ := bind_eq_ok.mp hc
  cases hc
  have hfirst := hx _ _ _ h₁
  have hsecond := hy a _ _ _ h₂
  have := h b
  simp only at hfirst hsecond
  omega

theorem uses_readBytes (n : ℕ) : Uses List.length (readBytes n) := by
  intro memory bytes rest h
  unfold readBytes at h
  split at h <;> cases h
  rw [List.length_take, List.length_drop]
  omega

theorem uses_readByte : Uses (fun _ => 1) readByte := by
  intro memory c rest h
  cases memory <;> cases h
  exact le_rfl

theorem uses_readNumeric (e : Bool) (k : ℕ) : Uses (fun _ => k) (readNumeric e k) := by
  intro memory value rest h
  obtain ⟨⟨bytes, rest'⟩, hbytes, h⟩ := bind_eq_ok.mp h
  cases h
  unfold readBytes at hbytes
  split at hbytes <;> cases hbytes
  simp only [List.length_drop]
  omega

theorem uses_readShortString (e : Bool) : Uses (fun bytes => 2 + bytes.length) (readShortString e) :=
  (uses_readNumeric e 2).bind fun _ => uses_readBytes _

theorem uses_replicate {α : Type} {size : α → ℕ} {x : Parser α} (hx : Uses size x) (n : ℕ) :
    Uses (fun as => (as.map size).sum) (replicate x n) := by
  induction n with
  | zero => exact Uses.pure []
  | succ n ih =>
    intro memory as rest h
    obtain ⟨⟨a, memory₁⟩, h₁, h⟩ := bind_eq_ok.mp h
    obtain ⟨⟨as', rest'⟩, h₂, h⟩ := bind_eq_ok.mp h
    cases h
    have hfirst := hx _ _ _ h₁
    have hrest := ih _ _ _ h₂
    simp only [List.map_cons, List.sum_cons] at hrest ⊢
    omega

theorem uses_readNumbers (e : Bool) {k : ℕ} (length : ℕ) :
    Uses (fun values : List (BitVec (8 * k)) => (values.flatMap (numericBytes e)).length)
      (replicate (readNumeric e k) length) := by
  refine (uses_replicate (uses_readNumeric e k) length).mono fun values => ?_
  simp [List.length_flatMap]

/-! ### Readers of a big-endian buffer -/

variable (settings : NBTSettings)

theorem uses_readInt : Uses (fun _ => 4) (readInt true settings) := uses_readNumeric true 4

theorem uses_readLong : Uses (fun _ => 8) (readLong true settings) := uses_readNumeric true 8

theorem uses_readLength : Uses (fun _ => 4) (readLength true settings) :=
  (uses_readInt settings).map _ fun _ => le_rfl

theorem uses_readTag : Uses (fun tag => if settings.isNetwork then 0 else 2 + tag.length)
    (readTag true settings) := by
  unfold readTag
  cases settings.isNetwork with
  | true => exact Uses.pure _
  | false => exact uses_readShortString true

/-- The type byte, and the tag outside a network message. -/
def headSize (tag : Bytes) : ℕ :=
  if settings.isInArray then 0 else 1 + if settings.isNetwork then 0 else 2 + tag.length

theorem uses_parseHead : Uses (fun p => headSize settings p.2) (parseHead true settings) := by
  unfold parseHead headSize
  split
  · exact Uses.pure _
  · refine uses_readByte.bind fun code => ?_
    by_cases hend : ofByte code = .endTag
    · rw [if_pos hend]
      exact Uses.pure _
    · rw [if_neg hend]
      exact (uses_readTag settings).map _ fun _ => le_rfl

theorem uses_parseScalar (type : NBTElementType) :
    Uses (fun value => (value.payload true).length) (parseScalar true settings type) := by
  cases type with
  | byte => exact uses_readByte.map _ fun _ => le_rfl
  | short => exact (uses_readNumeric true 2).map _ fun _ => by simp [Scalar.payload]
  | int => exact (uses_readInt settings).map _ fun _ => by simp [Scalar.payload]
  | long => exact (uses_readLong settings).map _ fun _ => by simp [Scalar.payload]
  | float => exact (uses_readNumeric true 4).map _ fun _ => by simp [Scalar.payload]
  | double => exact (uses_readNumeric true 8).map _ fun _ => by simp [Scalar.payload]
  | byteArray =>
    exact (uses_readLength settings).bind_map uses_readBytes _ fun _ => by
      simp [Scalar.payload, count32]
  | string => exact (uses_readShortString true).map _ fun _ => by simp [Scalar.payload, text, count16]
  | intArray =>
    exact (uses_readLength settings).bind_map (uses_readNumbers true) _ fun _ => by
      simp [Scalar.payload, count32]
  | longArray =>
    exact (uses_readLength settings).bind_map (uses_readNumbers true) _ fun _ => by
      simp [Scalar.payload, count32]
  | _ => exact Uses.pure _

/-! ### What elements use -/

variable {A : Allocation} {n : ℕ}

theorem uses_parseBody (hA : A.isBigEndian = true) {parse : NBTSettings → Parser Tree}
    {parseEntries : NBTSettings → Parser (List Tree)}
    (hparse : ∀ settings, Uses (fun t => headSize settings t.tag + (t.payload true).length)
      (parse settings))
    (hentries : ∀ settings, settings.isInArray = false → settings.isNetwork = false →
      Uses (fun ts => (Tree.entries true ts).length + 1) (parseEntries settings))
    (type : NBTElementType) (tag : Bytes) :
    Ensures (fun memory t rest => t.tag = tag ∧
        memory.length ≤ rest.length + (t.payload true).length)
      (parseBody A parse parseEntries settings type tag) := by
  have hscalar : Ensures (fun memory t rest => t.tag = tag ∧
      memory.length ≤ rest.length + (t.payload true).length) (do
        let value ← parseScalar A.isBigEndian settings type
        pure (Tree.scalar tag value)) := by
    rw [hA]
    exact Ensures.map _ (uses_parseScalar settings type) fun _ _ _ h => ⟨rfl, h⟩
  cases type with
  | list =>
    have helement : ∀ type, Uses (fun t => (t.payload true).length) (do
        check A type
        parse (elementSettings A.isBigEndian settings type)) := by
      intro type memory t rest h
      obtain ⟨⟨u, memory₁⟩, hcheck, hparsed⟩ := bind_eq_ok.mp h
      obtain rfl := check_state A type _ _ _ hcheck
      have hle := hparse _ _ _ _ hparsed
      simp only [headSize, elementSettings, if_true] at hle ⊢
      omega
    intro memory t rest h
    obtain ⟨⟨code, memory₁⟩, hcode, h⟩ := bind_eq_ok.mp h
    obtain ⟨⟨length, memory₂⟩, hlength, h⟩ := bind_eq_ok.mp h
    obtain ⟨⟨children, memory₃⟩, helements, h⟩ := bind_eq_ok.mp h
    cases h
    rw [hA] at hlength
    have h₁ := uses_readByte _ _ _ hcode
    have h₂ := uses_readLength settings _ _ _ hlength
    have h₃ := uses_replicate (helement (ofByte code)) _ _ _ _ helements
    refine ⟨rfl, ?_⟩
    simp only [Tree.payload, payloads_eq_flatMap, List.length_cons, List.length_append,
      List.length_flatMap, count32, length_numericBytes] at h₁ h₂ h₃ ⊢
    omega
  | compound =>
    rw [parseBody, hA]
    refine Ensures.map _ (hentries _ rfl rfl) fun memory children rest h => ⟨rfl, ?_⟩
    rw [Tree.payload, List.length_append, List.length_singleton]
    exact h
  | _ => exact hscalar

/-- An element is taken from at most the bytes that it is written as. -/
theorem uses_parse (hA : A.isBigEndian = true) (n : ℕ) :
    (∀ settings, Uses (fun t => headSize settings t.tag + (t.payload true).length)
      (parse A n settings)) ∧
    ∀ settings, settings.isInArray = false → settings.isNetwork = false →
      Uses (fun ts => (Tree.entries true ts).length + 1) (parseEntries A n settings) := by
  induction n with
  | zero =>
    constructor
    · rintro settings memory t rest ⟨⟩
    · rintro settings - - memory ts rest ⟨⟩
  | succ n ih =>
    obtain ⟨hparse, hentries⟩ := ih
    constructor
    · intro settings memory t rest h
      rw [parse, hA] at h
      obtain ⟨⟨⟨type, tag⟩, memory₁⟩, hhead, h⟩ := bind_eq_ok.mp h
      have h₁ := uses_parseHead settings _ _ _ hhead
      obtain ⟨rfl, h₂⟩ := uses_parseBody settings hA hparse hentries type tag _ _ _ h
      simp only at h₁ ⊢
      omega
    · intro settings harr hnet memory ts rest h
      obtain ⟨-, rfl, rfl⟩ | ⟨-, rfl, rfl⟩ | ⟨child, memory₁, children, -, hchild, hchildren, rfl⟩ :=
        parseEntries_cases h
      · exact Nat.le_add_right _ _
      · simp [Tree.entries]
      · have h₁ := hparse settings _ _ _ hchild
        have h₂ := hentries settings harr hnet _ _ _ hchildren
        simp only [headSize, harr, hnet, Bool.false_eq_true, if_false] at h₁
        simp only [Tree.entries, text, count16, List.length_cons, List.length_append,
          length_numericBytes] at h₂ ⊢
        omega

end Flat

/-! ### What a reader leaves -/

/-- In front of the writer, the memory behind it and the unread bytes bound what is left. -/
theorem length_passed_le {b : InternalByteBuffer} {e : Bool} {buffer : ByteBuffer} {rest : Bytes}
    (hb : Regular b) (h : Passed b e buffer rest) (hfront : buffer.getReaderPointer ≤ buffer.size) :
    rest.length + buffer.getReaderPointer ≤ buffer.size + (blockSize - b.writeOffset) := by
  have hlen := h.shape.length_ahead
  rw [h.ahead_eq] at hlen
  have hsize : buffer.size = buffer.internalBuffer.writeBlock * blockSize +
      buffer.internalBuffer.writeOffset := rfl
  have hpointer : buffer.getReaderPointer = buffer.internalBuffer.readBlock * blockSize +
      buffer.internalBuffer.readOffset := rfl
  have hwo := passed_writeOffset h
  have hoff := hb.writeOffset_lt
  obtain hregular | hdrained := passed_table (.inl hb) h
  · rw [← hregular.writer, Nat.succ_mul] at hlen
    omega
  · have hle := hdrained.readBlock_le
    rw [hdrained.blocks_eq, List.length_nil] at hlen hle
    rw [hdrained.readOffset_eq] at hpointer
    have hzero : buffer.internalBuffer.readBlock = 0 := by omega
    rw [hzero, Nat.zero_mul] at hpointer hlen
    omega

/-! ### Tagged roots -/

/-- The tree without the tag of its root. -/
def Tree.untagged : Tree → Tree
  | .scalar _ value => .scalar [] value
  | .list _ children => .list [] children
  | .compound _ children => .compound [] children

theorem Tree.payload_untagged (e : Bool) (t : Tree) : t.untagged.payload e = t.payload e := by
  cases t <;> rfl

/-- Written with a suffix behind it and read, the element has its type, its children and its
values, and the reader stops in front of the suffix. -/
def ReadsBack (element : NBTElement) (buffer : ByteBuffer) (suffix : Bytes) : Prop :=
  ∃ bound, ∀ n ≥ bound, ∃ element' buffer',
    (do writeNBTElement element; writeBytes suffix; readNBTElement n) buffer =
      .ok (element', buffer') ∧
    (tree element').untagged = (tree element).untagged ∧
    buffer'.getBytes.drop buffer'.getReaderPointer = suffix ∧
    buffer'.size = buffer'.getReaderPointer + suffix.length

variable {element : NBTElement} {buffer : ByteBuffer}

/-- The bytes of a tagged root in a network message. -/
theorem writeNBTElement_produces (ht : (tree element).WellFormed) (htag : element.tag ≠ [])
    (hend : element.type ≠ .endTag) :
    Produces (Stored true) (writeNBTElement element)
      (element.type.toByte :: text true element.tag ++ (tree element).payload true) := by
  have hv := writable_stored true
  refine encodeWith_produces_of_head hv ht.formed element networkSettings _ rfl (fun _ => rfl) rfl ?_
  rw [tree_type, tree_tag, encodeHead, if_neg (by decide), if_neg hend]
  refine (hv.writeByte _).bind (w := text true element.tag) fun buffer bs h => ?_
  have hwrite := writeShortString_produces hv element.tag buffer bs h
  rw [writeTag, hv.endian h]
  simpa [htag] using hwrite

/-- A tagged root is longer than what decoding takes for the same value. -/
theorem not_readsBack (ht : (tree element).WellFormed) (htag : element.tag ≠ [])
    (hend : element.type ≠ .endTag) (h : Stored true buffer []) (suffix : Bytes) :
    ¬ ReadsBack element buffer suffix := by
  rintro ⟨bound, hbound⟩
  obtain ⟨element', buffer', hrun, htree, -, hposition⟩ := hbound bound le_rfl
  obtain ⟨buffer₁, h₁, hs₁⟩ := writeNBTElement_produces ht htag hend buffer [] h
  obtain ⟨⟨b, e⟩, h₂, hs₂⟩ := (writable_stored true).writeBytes suffix buffer₁ _ hs₁
  obtain ⟨hholds, rfl⟩ : Holds b _ ∧ e = true := hs₂
  rw [bind_of_eq_ok h₁, bind_of_eq_ok h₂] at hrun
  -- the parser takes the tree of the decoded element from the memory
  obtain ⟨hok, herror⟩ := (decode_simulates (.inl hholds.regular) true false bound).1
    networkSettings _ _ (passed_start hholds.shape true)
  cases hparse : Flat.parse (allocation b true false) bound networkSettings (ahead b) with
  | error f =>
    have hfail := herror f (.inl rfl) hparse
    cases hrun.symm.trans hfail
  | ok p =>
    obtain ⟨element'', buffer'', hdecode, hp, hpassed⟩ := hok p.1 p.2 hparse
    cases hrun.symm.trans hdecode
    have huses := (Flat.uses_parse (A := allocation b true false) rfl bound).1 networkSettings
      _ _ _ hparse
    have hleft := length_passed_le hholds.regular hpassed (by omega)
    have hpayload : (p.1.payload true).length = ((tree element).payload true).length := by
      rw [← hp, ← Tree.payload_untagged, htree, Tree.payload_untagged]
    have hhead : Flat.headSize networkSettings p.1.tag = 1 := rfl
    simp only [hholds.ahead_eq, List.nil_append, List.length_append, length_zeros, text, count16,
      List.length_cons, length_numericBytes, hhead, hpayload] at huses
    omega

/-- A root of the type End is written without its tag. -/
theorem readsBack_of_end (ht : (tree element).WellFormed) (hend : element.type = .endTag)
    (h : Stored true buffer []) (suffix : Bytes) : ReadsBack element buffer suffix := by
  have hv := writable_stored true
  have hl : element.type ≠ .list := by rw [hend]; decide
  have hc : element.type ≠ .compound := by rw [hend]; decide
  have hscalar : tree element = .scalar element.tag .endTag := by
    rw [tree_scalar hl hc, NBTElement.scalar, hend]
  have hnil : (Tree.scalar [] .endTag).WellFormed := .scalar (Nat.zero_le _) trivial
  have hhead : Produces (Stored true) (encodeHead networkSettings (tree element).type (tree element).tag)
      [0] := by
    rw [hscalar]
    exact hv.writeByte 0
  have hwrite := encodeWith_produces_of_head hv ht.formed element networkSettings [0] rfl (fun _ => rfl) rfl
    hhead
  rw [hscalar] at hwrite
  have hread : ∀ n, 1 ≤ n → Consumes (Stored true) (readNBTElement n) [0]
      (decoded networkSettings (.scalar [] .endTag)) := fun n hn =>
    decode_consumes hnil networkSettings n
      ⟨fun _ => ⟨rfl, rfl⟩, fun h => absurd h (by decide), fun _ => rfl⟩ (fun _ => rfl) hn
  obtain ⟨bound, hbound⟩ := roundTrip_of_consumes 1 hwrite hread (tree_decoded hnil _) buffer suffix h
  refine ⟨bound, fun n hn => ?_⟩
  obtain ⟨element', buffer', hrun, htree, hrest⟩ := hbound n hn
  exact ⟨element', buffer', hrun, by rw [htree, hscalar, Tree.untagged, Tree.untagged], hrest⟩

/-- A tagged root of a network message comes back exactly when it is of the type End. -/
theorem readsBack_iff (element : NBTElement) (ht : (tree element).WellFormed)
    (htag : element.tag ≠ []) (buffer : ByteBuffer) (h : Stored true buffer []) (suffix : Bytes) :
    ReadsBack element buffer suffix ↔ element.type = .endTag := by
  constructor
  · intro hback
    by_contra hend
    exact not_readsBack ht htag hend h suffix hback
  · exact fun hend => readsBack_of_end ht hend h suffix

/-- A tagged byte in front of another one. -/
theorem readsBack_iff_byte : ReadsBack (byte [97] 1) .new [7] ↔ (byte [97] 1).type = .endTag :=
  readsBack_iff _ (Tree.wellFormed_of_fits _ rfl) (by decide) .new ⟨holds_new, rfl⟩ [7]

/-- The tagged value of a hover event. -/
theorem not_readsBack_string : (tree (string [118] [104, 105])).WellFormed ∧
    (string [118] [104, 105]).tag ≠ [] ∧ Stored true ByteBuffer.new [] ∧
    ¬ ReadsBack (string [118] [104, 105]) .new [] := by
  have ht : (tree (string [118] [104, 105])).WellFormed := Tree.wellFormed_of_fits _ rfl
  have hstored : Stored true ByteBuffer.new [] := ⟨holds_new, rfl⟩
  exact ⟨ht, by decide, hstored, not_readsBack ht (by decide) (by decide) hstored []⟩

end Zinc.Nbt
