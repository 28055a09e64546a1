import Zinc.Buffer.RoundTrip
import Zinc.Nbt.Bounded

/-! What decoding accepts. In big-endian order every tree that decoding returns is well
formed: lists come out homogeneous and untagged, nothing of the type End stands inside a
list or a compound, and all lengths fit. While the reader has not passed the writer, the
bytes that it took are those that encoding the tree writes when no list is empty, since the
header of an empty list may name any type. Only at the writer does a compound end without
its zero byte, which encoding then writes behind the others. -/

namespace Zinc.Nbt

open Throw Buffer Buffer.InternalByteBuffer Buffer.ByteBuffer NBTElementType NBTElement

/-- No list in a tree is empty. -/
inductive Tree.Dense : Tree → Prop
  | scalar {tag : Bytes} {value : Scalar} : Dense (.scalar tag value)
  | list {tag : Bytes} {children : List Tree} (hne : children ≠ []) (h : ∀ t ∈ children, Dense t) :
      Dense (.list tag children)
  | compound {tag : Bytes} {children : List Tree} (h : ∀ t ∈ children, Dense t) :
      Dense (.compound tag children)

theorem NBTElementType.ofByte_eq_endTag {code : UInt8} (h : ofByte code = .endTag) : code = 0 := by
  rw [← toByte_ofByte code, h]
  rfl

namespace Flat

/-! ### Spelled values -/

/-- What a parser took from the memory has the length of `word` if the reader has not passed
the writer, and it is the word under the condition, but for zeros that are missing at the
writer. -/
def Spelled (A : Allocation) (exact : Prop) (word memory rest : Bytes) : Prop :=
  rest ≠ [] → A.unwritten ≤ rest.length → ∃ taken k, memory = taken ++ rest ∧
    word.length = taken.length + k ∧ (exact → word = taken ++ zeros k) ∧
    (A.unwritten < rest.length → k = 0)

variable {A : Allocation} {exact exact' : Prop} {u v memory memory₁ rest : Bytes}

theorem Spelled.of_taken (h : rest ≠ [] → A.unwritten ≤ rest.length → memory = u ++ rest) :
    Spelled A exact u memory rest :=
  fun hne hleft => ⟨u, 0, h hne hleft, rfl, fun _ => (List.append_nil u).symm, fun _ => rfl⟩

theorem Spelled.nil : Spelled A exact [] memory memory := .of_taken fun _ _ => rfl

theorem Spelled.cons (c : UInt8) : Spelled A exact [c] (c :: rest) rest := .of_taken fun _ _ => rfl

/-- The zero byte that is missing at the writer. -/
theorem Spelled.missing (h : memory.length ≤ A.unwritten) : Spelled A exact [0] memory memory :=
  fun _ _ => ⟨[], 1, rfl, rfl, fun _ => rfl, fun hlt => by omega⟩

theorem Spelled.append (h : Spelled A exact u memory memory₁) (h' : Spelled A exact' v memory₁ rest) :
    Spelled A (exact ∧ exact') (u ++ v) memory rest := by
  intro hne hleft
  obtain ⟨taken', k', rfl, hlen', hexact', hfront'⟩ := h' hne hleft
  have hall : (taken' ++ rest).length = taken'.length + rest.length := List.length_append
  obtain ⟨taken, k, rfl, hlen, hexact, hfront⟩ := h (List.append_ne_nil_of_right_ne_nil _ hne) (by omega)
  refine ⟨taken ++ taken', k + k', (List.append_assoc ..).symm, ?_, fun hboth => ?_, fun hlt => ?_⟩
  · rw [List.length_append, List.length_append, hlen, hlen']
    omega
  · rw [hexact hboth.1, hexact' hboth.2]
    -- zeros are missing only if the second word took nothing
    by_cases htaken : taken' = []
    · simp only [htaken, List.append_nil, List.nil_append, List.append_assoc, zeros_append]
    · have hpos := List.length_pos_iff.mpr htaken
      rw [hfront (by omega), zeros, List.replicate_zero, List.append_nil, Nat.zero_add,
        List.append_assoc]
  · rw [hfront (by omega), hfront' hlt]

theorem Spelled.mono (h : Spelled A exact u memory rest) (himp : exact' → exact) :
    Spelled A exact' u memory rest := by
  intro hne hleft
  obtain ⟨taken, k, hmemory, hlen, hexact, hfront⟩ := h hne hleft
  exact ⟨taken, k, hmemory, hlen, fun h => hexact (himp h), hfront⟩

/-- Another word of the same length, if nothing is claimed about the bytes. -/
theorem Spelled.congr (h : Spelled A exact u memory rest) (hlen : u.length = v.length)
    (himp : exact' → exact ∧ u = v) : Spelled A exact' v memory rest := by
  intro hne hleft
  obtain ⟨taken, k, hmemory, htaken, hexact, hfront⟩ := h hne hleft
  exact ⟨taken, k, hmemory, hlen.symm.trans htaken,
    fun h => (himp h).2.symm.trans (hexact (himp h).1), hfront⟩

/-! ### Readers -/

theorem spelled_readByte (A : Allocation) :
    Ensures (fun memory c rest => Spelled A True [c] memory rest) readByte := by
  intro memory c rest h
  cases memory with
  | nil => cases h
  | cons d memory =>
    cases h
    exact .cons c

theorem spelled_readBytes (A : Allocation) (n : ℕ) : Ensures (fun memory bytes rest =>
    bytes.length ≤ n ∧ (rest ≠ [] → bytes.length = n) ∧ Spelled A True bytes memory rest)
      (readBytes n) := by
  intro memory bytes rest h
  unfold readBytes at h
  split at h <;> cases h
  have hlen := List.length_take (i := n) (l := memory)
  refine ⟨by omega, fun hne => ?_, .of_taken fun _ _ => (List.take_append_drop n memory).symm⟩
  have hpos := List.length_pos_iff.mpr hne
  rw [List.length_drop] at hpos
  omega

theorem spelled_readNumeric (A : Allocation) (k : ℕ) :
    Ensures (fun memory value rest => Spelled A True (numericBytes true value) memory rest)
      (readNumeric true k) := by
  refine (spelled_readBytes A k).map _ fun memory bytes rest h hne => ?_
  obtain ⟨-, hlen, hspelled⟩ := h
  rw [numericBytes_numericOfBytes true (hlen hne)]
  exact hspelled hne

theorem spelled_readShortString (A : Allocation) : Ensures (fun memory bytes rest =>
    bytes.length ≤ 65535 ∧ Spelled A True (text true bytes) memory rest) (readShortString true) := by
  refine (spelled_readNumeric A 2).bind (fun n => spelled_readBytes A n.toNat)
    fun memory n memory₁ bytes rest hn hbytes => ?_
  obtain ⟨hle, hlen, hspelled⟩ := hbytes
  have hlt := n.isLt
  refine ⟨by omega, fun hne => ?_⟩
  have hall := (hn.append hspelled).mono (fun _ : True => ⟨trivial, trivial⟩)
  rw [text, count16, hlen hne, BitVec.ofNat_toNat, BitVec.setWidth_eq]
  exact hall hne

theorem spelled_readLength (A : Allocation) (settings : NBTSettings) : Ensures (fun memory n rest =>
    n < 2 ^ 32 ∧ Spelled A True (count32 true n) memory rest) (readLength true settings) := by
  refine (spelled_readNumeric A 4).map _ fun memory value rest h => ⟨value.isLt, ?_⟩
  rw [count32, BitVec.ofNat_toNat, BitVec.setWidth_eq]
  exact h

/-- A repeated reader. -/
theorem spelled_replicate {α : Type} {x : Parser α} {P : α → Prop} {Q : α → Prop}
    {enc : α → Bytes}
    (hx : Ensures (fun memory a rest => Q a ∧ Spelled A (P a) (enc a) memory rest) x) (n : ℕ) :
    Ensures (fun memory as rest => as.length = n ∧ (∀ a ∈ as, Q a) ∧
      Spelled A (∀ a ∈ as, P a) (as.flatMap enc) memory rest) (replicate x n) := by
  induction n with
  | zero => exact .pure fun memory => ⟨rfl, by simp, .nil⟩
  | succ n ih =>
    refine hx.bind (fun a => ih.map (a :: ·) (Q := fun memory as rest => ∃ tail, as = a :: tail ∧
      tail.length = n ∧ (∀ a ∈ tail, Q a) ∧
      Spelled A (∀ a ∈ tail, P a) (tail.flatMap enc) memory rest)
      fun memory tail rest h => ⟨tail, rfl, h⟩) ?_
    rintro memory a memory₁ _ rest ⟨ha, hspelled⟩ ⟨tail, rfl, hlen, htail, hrest⟩
    refine ⟨by rw [List.length_cons, hlen], List.forall_mem_cons.mpr ⟨ha, htail⟩, ?_⟩
    rw [List.flatMap_cons]
    exact (hspelled.append hrest).mono List.forall_mem_cons.mp

theorem spelled_readNumerics (A : Allocation) (k n : ℕ) : Ensures (fun memory values rest =>
    values.length = n ∧ Spelled A True (values.flatMap fun v => numericBytes true v) memory rest)
      (replicate (readNumeric true k) n) := by
  refine (spelled_replicate (P := fun _ => True) (Q := fun _ => True)
    ((spelled_readNumeric A k).mono fun _ _ _ h => ⟨trivial, h⟩) n).mono fun _ _ _ h => ?_
  exact ⟨h.1, h.2.2.mono fun _ _ _ => trivial⟩

/-! ### Elements -/

/-- What holds of the value behind the head of an element. -/
def Valued (A : Allocation) (type : NBTElementType) (memory : Bytes) (value : Scalar) (rest : Bytes) :
    Prop :=
  value.type = type ∧ (type.Valid → value.WellFormed) ∧
    Spelled A True (value.payload true) memory rest

theorem valued_parseScalar (A : Allocation) (settings : NBTSettings) {type : NBTElementType}
    (hl : type ≠ .list) (hc : type ≠ .compound) :
    Ensures (Valued A type) (parseScalar true settings type) := by
  cases type with
  | list => exact absurd rfl hl
  | compound => exact absurd rfl hc
  | endTag => exact .pure fun memory => ⟨rfl, fun _ => trivial, .nil⟩
  | other code => exact .pure fun memory => ⟨rfl, id, .nil⟩
  | byte => exact (spelled_readByte A).map _ fun _ _ _ h => ⟨rfl, fun _ => trivial, h⟩
  | short => exact (spelled_readNumeric A 2).map _ fun _ _ _ h => ⟨rfl, fun _ => trivial, h⟩
  | int => exact (spelled_readNumeric A 4).map _ fun _ _ _ h => ⟨rfl, fun _ => trivial, h⟩
  | long => exact (spelled_readNumeric A 8).map _ fun _ _ _ h => ⟨rfl, fun _ => trivial, h⟩
  | float => exact (spelled_readNumeric A 4).map _ fun _ _ _ h => ⟨rfl, fun _ => trivial, h⟩
  | double => exact (spelled_readNumeric A 8).map _ fun _ _ _ h => ⟨rfl, fun _ => trivial, h⟩
  | string => exact (spelled_readShortString A).map _ fun _ _ _ h => ⟨rfl, fun _ => h.1, h.2⟩
  | byteArray =>
    refine (spelled_readLength A settings).bind
      (fun n => (spelled_readBytes A n).map (Q := fun memory value rest => ∃ bytes,
        value = .byteArray bytes ∧ bytes.length ≤ n ∧ (rest ≠ [] → bytes.length = n) ∧
          Spelled A True bytes memory rest) _ fun _ bytes _ h => ⟨bytes, rfl, h⟩) ?_
    rintro memory n memory₁ _ rest ⟨hlt, hn⟩ ⟨bytes, rfl, hle, hlen, hbytes⟩
    refine ⟨rfl, fun _ => lt_of_le_of_lt hle hlt, fun hne => ?_⟩
    rw [Scalar.payload, hlen hne]
    exact (hn.append hbytes).mono (fun _ : True => ⟨trivial, trivial⟩) hne
  | intArray =>
    refine (spelled_readLength A settings).bind
      (fun n => (spelled_readNumerics A 4 n).map (Q := fun memory value rest => ∃ values,
        value = .intArray values ∧ values.length = n ∧
          Spelled A True (values.flatMap fun v => numericBytes true v) memory rest) _
        fun _ values _ h => ⟨values, rfl, h⟩) ?_
    rintro memory n memory₁ _ rest ⟨hlt, hn⟩ ⟨values, rfl, rfl, hvalues⟩
    exact ⟨rfl, fun _ => hlt, (hn.append hvalues).mono fun _ => ⟨trivial, trivial⟩⟩
  | longArray =>
    refine (spelled_readLength A settings).bind
      (fun n => (spelled_readNumerics A 8 n).map (Q := fun memory value rest => ∃ values,
        value = .longArray values ∧ values.length = n ∧
          Spelled A True (values.flatMap fun v => numericBytes true v) memory rest) _
        fun _ values _ h => ⟨values, rfl, h⟩) ?_
    rintro memory n memory₁ _ rest ⟨hlt, hn⟩ ⟨values, rfl, rfl, hvalues⟩
    exact ⟨rfl, fun _ => hlt, (hn.append hvalues).mono fun _ => ⟨trivial, trivial⟩⟩

/-- What holds of an element that the parser accepts. -/
structure Accepts (A : Allocation) (settings : NBTSettings) (memory : Bytes) (t : Tree) (rest : Bytes) :
    Prop where
  wellFormed : settings.type.Valid → t.WellFormed
  array : settings.isInArray = true → t.type = settings.type ∧ t.tag = []
  network : settings.isNetwork = true → t.tag = []
  ending : t.type = .endTag → t.tag = []
  /-- outside a list the first byte names the type -/
  code : settings.isInArray = false → ∃ c ∈ memory.head?, t.type = ofByte c
  spelled : Spelled A t.Dense (head true settings t ++ t.payload true) memory rest

/-- The children of a compound. -/
structure AcceptsEntries (A : Allocation) (memory : Bytes) (ts : List Tree) (rest : Bytes) : Prop where
  wellFormed : ∀ t ∈ ts, t.type ≠ .endTag ∧ t.WellFormed
  spelled : Spelled A (∀ t ∈ ts, t.Dense) (Tree.entries true ts ++ [0]) memory rest

/-- The type and the tag in front of a payload. -/
structure Headed (A : Allocation) (settings : NBTSettings) (memory : Bytes)
    (p : NBTElementType × Bytes) (rest : Bytes) : Prop where
  length_le : p.2.length ≤ 65535
  valid : settings.type.Valid → p.1.Valid
  array : settings.isInArray = true → p.1 = settings.type ∧ p.2 = []
  network : settings.isNetwork = true → p.2 = []
  ending : p.1 = .endTag → p.2 = []
  code : settings.isInArray = false → ∃ c ∈ memory.head?, p.1 = ofByte c
  spelled : ∀ t : Tree, t.type = p.1 → t.tag = p.2 →
    Spelled A True (head true settings t) memory rest

theorem headed_parseHead (A : Allocation) (settings : NBTSettings) :
    Ensures (Headed A settings) (parseHead true settings) := by
  unfold parseHead
  split
  next harr =>
    refine .pure fun memory => ⟨by simp, id, fun _ => ⟨rfl, rfl⟩, fun _ => rfl, fun _ => rfl,
      fun h => absurd harr (by simp [h]), fun t _ _ => ?_⟩
    rw [head, if_pos harr]
    exact .nil
  next harr =>
    intro memory p rest h
    obtain ⟨⟨code, memory₁⟩, hcode, h⟩ := bind_eq_ok.mp h
    have hbyte := spelled_readByte A _ _ _ hcode
    have hfirst : code ∈ memory.head? := by
      cases memory <;> cases hcode
      rfl
    simp only at h hbyte
    split at h
    next hend =>
      cases h
      refine ⟨by simp, fun _ => trivial, fun h => absurd h harr, fun _ => rfl, fun _ => rfl,
        fun _ => ⟨code, hfirst, hend.symm⟩, fun t htype _ => ?_⟩
      have htype' : t.type = .endTag := htype
      rw [head, if_neg harr, if_pos htype', htype, ← hend, toByte_ofByte]
      exact hbyte
    next hend =>
      obtain ⟨⟨tag, memory₂⟩, htag, h⟩ := bind_eq_ok.mp h
      cases h
      unfold readTag at htag
      split at htag
      next hnet =>
        obtain ⟨hle, hspelled⟩ := spelled_readShortString A _ _ _ htag
        refine ⟨hle, fun _ => valid_ofByte code, fun h => absurd h harr, fun h => absurd h (by simp [hnet]), fun h => absurd h hend,
          fun _ => ⟨code, hfirst, rfl⟩, fun t htype htag => ?_⟩
        rw [head, if_neg harr, if_neg (htype ▸ hend), if_neg (by simp [hnet]), htype, htag,
          toByte_ofByte]
        exact (hbyte.append hspelled).mono fun _ => ⟨trivial, trivial⟩
      next hnet =>
        rw [if_pos rfl] at htag
        cases htag
        refine ⟨by simp, fun _ => valid_ofByte code, fun h => absurd h harr, fun _ => rfl, fun _ => rfl,
          fun _ => ⟨code, hfirst, rfl⟩, fun t htype _ => ?_⟩
        rw [head, if_neg harr, if_neg (htype ▸ hend), if_pos (by simpa using hnet), htype,
          toByte_ofByte]
        exact hbyte

/-- What holds of an element behind its head. -/
structure AcceptsBody (A : Allocation) (type : NBTElementType) (tag memory : Bytes) (t : Tree)
    (rest : Bytes) : Prop where
  type_eq : t.type = type
  tag_eq : t.tag = tag
  wellFormed : tag.length ≤ 65535 → type.Valid → t.WellFormed
  spelled : Spelled A t.Dense (t.payload true) memory rest

/-- The elements of a list with the code of their type. -/
theorem accepts_elements {parse : NBTSettings → Parser Tree} {settings : NBTSettings}
    (hparse : Ensures (Accepts A settings) (parse settings)) (harr : settings.isInArray = true)
    (hvalid : settings.type.Valid) (type : NBTElementType) (n : ℕ) :
    Ensures (fun memory children rest => children.length = n ∧
      (∀ t ∈ children, t.type = settings.type ∧ t.tag = [] ∧ t.WellFormed) ∧
      Spelled A (∀ t ∈ children, t.Dense) (Tree.payloads true children) memory rest)
      (replicate (do check A type; parse settings) n) := by
  have hone : Ensures (fun memory t rest =>
      (t.type = settings.type ∧ t.tag = [] ∧ t.WellFormed) ∧
        Spelled A t.Dense (t.payload true) memory rest) (do check A type; parse settings) := by
    refine (check_state A type).bind (fun _ => hparse) ?_
    rintro memory _ _ t rest rfl h
    have hspelled := h.spelled
    rw [head, if_pos harr, List.nil_append] at hspelled
    exact ⟨⟨(h.array harr).1, (h.array harr).2, h.wellFormed hvalid⟩, hspelled⟩
  refine (spelled_replicate hone n).mono fun memory children rest h => ?_
  rw [payloads_eq_flatMap]
  exact h

theorem acceptsBody_list {parse : NBTSettings → Parser Tree}
    {parseEntries : NBTSettings → Parser (List Tree)} (hA : A.isBigEndian = true)
    (hparse : ∀ settings, Ensures (Accepts A settings) (parse settings)) (settings : NBTSettings)
    (tag : Bytes) :
    Ensures (AcceptsBody A .list tag) (parseBody A parse parseEntries settings .list tag) := by
  intro memory t rest h
  obtain ⟨⟨code, memory₁⟩, hcode, h⟩ := bind_eq_ok.mp h
  obtain ⟨⟨length, memory₂⟩, hlength, h⟩ := bind_eq_ok.mp h
  obtain ⟨⟨children, memory₃⟩, hchildren, h⟩ := bind_eq_ok.mp h
  cases h
  have hbyte := spelled_readByte A _ _ _ hcode
  simp only [hA] at hlength hchildren
  obtain ⟨hlt, hcount⟩ := spelled_readLength A settings _ _ _ hlength
  obtain ⟨hlen, htypes, hspelled⟩ := accepts_elements
    (hparse (elementSettings true settings (ofByte code))) rfl (valid_ofByte code) _ _ _ _ _ hchildren
  have hheader := hbyte.append (hcount.append hspelled)
  have hle : children.length ≤ length := by
    rw [hlen]
    split <;> omega
  refine ⟨rfl, rfl, fun htag _ => ?_, ?_⟩
  · refine .list htag (by omega) (fun t ht => ?_) fun t ht => (htypes t ht).2.2
    obtain ⟨htype, htag, -⟩ := htypes t ht
    have hend : ofByte code ≠ .endTag := by
      intro hend
      rw [if_pos hend] at hlen
      simp [List.eq_nil_of_length_eq_zero hlen] at ht
    refine ⟨?_, htype ▸ hend, htag⟩
    cases children with
    | nil => cases ht
    | cons first children => exact htype.trans (htypes first List.mem_cons_self).1.symm
  · refine hheader.congr ?_ fun hdense => ?_
    · simp [Tree.payload, count32, numericBytes]
    · cases hdense with | list hne hdense => ?_
      refine ⟨⟨trivial, trivial, hdense⟩, ?_⟩
      cases children with
      | nil => exact absurd rfl hne
      | cons first children =>
        have hend : ofByte code ≠ .endTag := by
          intro hend
          rw [if_pos hend] at hlen
          cases hlen
        rw [if_neg hend] at hlen
        rw [Tree.payload, Tree.elementType, (htypes first List.mem_cons_self).1, hlen]
        exact congrArg (· :: _) (toByte_ofByte code).symm

theorem acceptsBody (hA : A.isBigEndian = true) {parse : NBTSettings → Parser Tree}
    {parseEntries : NBTSettings → Parser (List Tree)}
    (hparse : ∀ settings, Ensures (Accepts A settings) (parse settings))
    (hentries : ∀ settings, settings.isInArray = false → settings.isNetwork = false →
      settings.type = .endTag → Ensures (AcceptsEntries A) (parseEntries settings))
    (settings : NBTSettings)
    (type : NBTElementType) (tag : Bytes) :
    Ensures (AcceptsBody A type tag) (parseBody A parse parseEntries settings type tag) := by
  by_cases hl : type = .list
  · subst hl
    exact acceptsBody_list hA hparse settings tag
  by_cases hc : type = .compound
  · subst hc
    refine (hentries _ rfl (by simp [entrySettings, hA]) rfl).map _ fun memory children rest h => ?_
    refine ⟨rfl, rfl, fun htag _ => ?_, h.spelled.mono fun hdense => ?_⟩
    · exact .compound htag (fun t ht => (h.wellFormed t ht).1) fun t ht => (h.wellFormed t ht).2
    · cases hdense with | compound hdense => ?_
      exact hdense
  have hscalar : Ensures (AcceptsBody A type tag) (do
      let value ← parseScalar A.isBigEndian settings type
      pure (.scalar tag value)) := by
    rw [hA]
    refine (valued_parseScalar A settings hl hc).map _ fun memory value rest h => ?_
    obtain ⟨htype, hwell, hspelled⟩ := h
    exact ⟨htype, rfl, fun htag hvalid => .scalar htag (hwell hvalid), hspelled.mono fun _ => trivial⟩
  cases type <;> first | exact hscalar | contradiction

/-- A child of a compound does not begin with the byte that ends it. -/
theorem head_ne_zero {n : ℕ} {settings : NBTSettings} {child : Tree} {children : List Tree}
    (h : parseEntries A (n + 1) settings memory = .ok (child :: children, rest))
    (hfront : A.unwritten < memory.length) : 0 ∉ memory.head? := by
  intro hzero
  rw [parseEntries] at h
  obtain ⟨⟨c, memory₁⟩, hpeek, h⟩ := bind_eq_ok.mp h
  rw [peek, if_pos hfront, show memory.head? = some 0 from hzero] at hpeek
  cases hpeek
  simp only [if_true] at h
  obtain ⟨⟨d, memory₂⟩, -, h⟩ := bind_eq_ok.mp h
  cases h

theorem accepts_parse (hA : A.isBigEndian = true) (n : ℕ) :
    (∀ settings, Ensures (Accepts A settings) (parse A n settings)) ∧
      ∀ settings, settings.isInArray = false → settings.isNetwork = false →
        settings.type = .endTag → Ensures (AcceptsEntries A) (parseEntries A n settings) := by
  induction n with
  | zero =>
    constructor
    · rintro settings memory t rest ⟨⟩
    · rintro settings - - - memory ts rest ⟨⟩
  | succ n ih =>
    obtain ⟨hparse, hentries⟩ := ih
    constructor
    · intro settings
      rw [parse, hA]
      refine (headed_parseHead A settings).bind
        (fun p => acceptsBody hA hparse hentries settings p.1 p.2) ?_
      rintro memory ⟨type, tag⟩ memory₁ t rest hhead ⟨htype, htag, hwell, hspelled⟩
      refine ⟨fun h => hwell hhead.length_le (hhead.valid h), fun h => ?_, fun h => htag.trans (hhead.network h),
        fun h => htag.trans (hhead.ending (htype.symm.trans h)), fun h => ?_,
        ((hhead.spelled t htype htag).append hspelled).mono fun h => ⟨trivial, h⟩⟩
      · exact ⟨htype.trans (hhead.array h).1, htag.trans (hhead.array h).2⟩
      · obtain ⟨c, hc, hcode⟩ := hhead.code h
        exact ⟨c, hc, htype.trans hcode⟩
    · intro settings harr hnet htypeless memory ts rest h
      obtain ⟨hend, rfl, rfl⟩ | ⟨hfront, rfl, rfl⟩ |
        ⟨child, memory₁, children, hfront, hchild, hchildren, rfl⟩ := parseEntries_cases h
      · exact ⟨by simp, .missing hend⟩
      · exact ⟨by simp, (Spelled.cons 0).mono fun _ => trivial⟩
      · have hfirst := head_ne_zero h hfront
        have hentry := hparse settings _ _ _ hchild
        have hrest := hentries settings harr hnet htypeless _ _ _ hchildren
        have htype : child.type ≠ .endTag := by
          obtain ⟨c, hc, hcode⟩ := hentry.code harr
          intro hend
          exact hfirst (ofByte_eq_endTag (hcode.symm.trans hend) ▸ hc)
        have hwell := hentry.wellFormed (by rw [htypeless]; trivial)
        refine ⟨List.forall_mem_cons.mpr ⟨⟨htype, hwell⟩, hrest.wellFormed⟩, ?_⟩
        have hall := (hentry.spelled.append hrest.spelled).mono List.forall_mem_cons.mp
        rw [head, harr, if_neg Bool.false_ne_true, if_neg htype, hnet, if_neg Bool.false_ne_true] at hall
        rw [Tree.entries, List.append_assoc]
        rwa [List.cons_append] at hall

end Flat

/-! ### Decoding and encoding again -/

/-- The settings of a root: those of a file and those of a network message. -/
def IsRoot (settings : NBTSettings) : Prop := settings = .new ∨ settings = networkSettings

theorem IsRoot.isInArray {settings : NBTSettings} (h : IsRoot settings) :
    settings.isInArray = false := by
  obtain rfl | rfl := h <;> rfl

theorem IsRoot.valid {settings : NBTSettings} (h : IsRoot settings) : settings.type.Valid := by
  obtain rfl | rfl := h <;> trivial

variable {bytes : Bytes} {settings : NBTSettings} {n : ℕ} {element : NBTElement} {buffer : ByteBuffer}

/-- What the parser accepts is what decoding returns. -/
theorem accepts_of_decode {b : InternalByteBuffer} (hb : Regular b)
    (hdecode : decode n (.new settings) ⟨b, true⟩ = .ok (element, buffer)) :
    ∃ rest, Passed b true buffer rest ∧
      Flat.Accepts (allocation b true false) settings (ahead b) (tree element) rest := by
  have hfollows := (decode_simulates (.inl hb) true false n).1 settings _ _
    (passed_start hb.toShape true)
  cases hparse : Flat.parse (allocation b true false) n settings (ahead b) with
  | error f =>
    rw [hfollows.2 f (.inl rfl) hparse] at hdecode
    cases hdecode
  | ok p =>
    obtain ⟨t, rest⟩ := p
    obtain ⟨element', buffer', hdecode', htree, hview⟩ := hfollows.1 t rest hparse
    rw [hdecode'] at hdecode
    cases hdecode
    exact ⟨rest, hview, htree ▸ (Flat.accepts_parse rfl n).1 settings _ _ _ hparse⟩

end Zinc.Nbt
