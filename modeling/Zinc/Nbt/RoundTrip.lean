import Zinc.Nbt.Element

/-! Encoding and decoding against the format. An element stands for the tree of
its tags and its current values. Encoding a well-formed element writes the bytes
of its tree, and decoding these bytes gives an element of the same tree and
stops right behind them. Both are proved by induction on the tree for every
position an element can have: in a list, in a compound, at the root, and at the
root of a network message, whose tag is not written. -/

namespace Zinc.Nbt

open Throw Buffer Buffer.ByteBuffer NBTElementType

variable {e : Bool} {view : ByteBuffer → Bytes → Prop}

namespace NBTElement

/-! ### The tree of an element -/

/-- The current value of an element without children. -/
def scalar (element : NBTElement) : Scalar :=
  match element.type with
  | .byte => .byte element.byteValue
  | .short => .short element.shortValue
  | .int => .int element.intValue
  | .long => .long element.longValue
  | .float => .float element.floatValue
  | .double => .double element.doubleValue
  | .byteArray => .byteArray element.byteArrayValue
  | .string => .string element.stringValue
  | .intArray => .intArray element.intArrayValue
  | .longArray => .longArray element.longArrayValue
  | .other code => .other code
  | _ => .endTag

mutual

def tree : NBTElement → Tree
  | element@⟨_, tag, type, _, _, _, _, _, _, _, _, childElements, _, _⟩ =>
    match type with
    | .list => .list tag (trees childElements)
    | .compound => .compound tag (trees childElements)
    | _ => .scalar tag element.scalar

def trees : List NBTElement → List Tree
  | [] => []
  | element :: elements => tree element :: trees elements

end

theorem trees_eq_map (elements : List NBTElement) : trees elements = elements.map tree := by
  induction elements with
  | nil => rfl
  | cons element elements ih => rw [trees, ih, List.map_cons]

theorem tree_list {element : NBTElement} (h : element.type = .list) :
    tree element = .list element.tag (element.childElements.map tree) := by
  obtain ⟨_, _, _, _, _, _, _, _, _, _, _, _, _, _⟩ := element
  obtain rfl := h
  rw [tree, trees_eq_map]

theorem tree_compound {element : NBTElement} (h : element.type = .compound) :
    tree element = .compound element.tag (element.childElements.map tree) := by
  obtain ⟨_, _, _, _, _, _, _, _, _, _, _, _, _, _⟩ := element
  obtain rfl := h
  rw [tree, trees_eq_map]

theorem tree_scalar {element : NBTElement} (hl : element.type ≠ .list)
    (hc : element.type ≠ .compound) : tree element = .scalar element.tag element.scalar := by
  obtain ⟨_, _, type, _, _, _, _, _, _, _, _, _, _, _⟩ := element
  cases type <;> first | rfl | contradiction

@[simp] theorem tree_of_string (tag value : Bytes) :
    tree (string tag value) = .scalar tag (.string value) := rfl

@[simp] theorem tree_of_byte (tag : Bytes) (value : UInt8) :
    tree (byte tag value) = .scalar tag (.byte value) := rfl

@[simp] theorem tree_of_int (tag : Bytes) (value : BitVec 32) :
    tree (int tag value) = .scalar tag (.int value) := rfl

@[simp] theorem tree_of_list (tag : Bytes) (children : List NBTElement) :
    tree (list tag children) = .list tag (children.map tree) := tree_list rfl

@[simp] theorem tree_of_compound (tag : Bytes) (children : List NBTElement) :
    tree (compound tag children) = .compound tag (children.map tree) := tree_compound rfl

theorem tree_tag (element : NBTElement) : (tree element).tag = element.tag := by
  obtain ⟨_, _, type, _, _, _, _, _, _, _, _, _, _, _⟩ := element
  cases type <;> rfl

theorem tree_type (element : NBTElement) : (tree element).type = element.type := by
  obtain ⟨_, _, type, _, _, _, _, _, _, _, _, _, _, _⟩ := element
  cases type <;> rfl

/-- The elements of a list are the trees of the children. -/
theorem of_tree_list {element : NBTElement} {tag : Bytes} {children : List Tree}
    (h : tree element = .list tag children) :
    element.type = .list ∧ children = element.childElements.map tree := by
  have htype : element.type = .list := by rw [← tree_type, h]; rfl
  rw [tree_list htype] at h
  exact ⟨htype, (Tree.list.inj h).2.symm⟩

theorem of_tree_compound {element : NBTElement} {tag : Bytes} {children : List Tree}
    (h : tree element = .compound tag children) :
    element.type = .compound ∧ children = element.childElements.map tree := by
  have htype : element.type = .compound := by rw [← tree_type, h]; rfl
  rw [tree_compound htype] at h
  exact ⟨htype, (Tree.compound.inj h).2.symm⟩

theorem of_tree_scalar {element : NBTElement} {tag : Bytes} {value : Scalar}
    (h : tree element = .scalar tag value) :
    element.type ≠ .list ∧ element.type ≠ .compound ∧ value = element.scalar := by
  have hl : element.type ≠ .list := by
    intro hl
    rw [tree_list hl] at h
    cases h
  have hc : element.type ≠ .compound := by
    intro hc
    rw [tree_compound hc] at h
    cases h
  rw [tree_scalar hl hc] at h
  exact ⟨hl, hc, (Tree.scalar.inj h).2.symm⟩

end NBTElement

open NBTElement

/-! ### Trees without bounds -/

/-- Lists are homogeneous with untagged elements, and nothing of the type End stands inside a
list or a compound. Nothing is said about lengths. -/
inductive Tree.Formed : Tree → Prop
  | scalar {tag : Bytes} {value : Scalar} (h : value.type.Valid) : Formed (.scalar tag value)
  | list {tag : Bytes} {children : List Tree}
      (htype : ∀ t ∈ children, t.type = Tree.elementType children ∧ t.type ≠ .endTag ∧ t.tag = [])
      (hchildren : ∀ t ∈ children, Formed t) : Formed (.list tag children)
  | compound {tag : Bytes} {children : List Tree} (htype : ∀ t ∈ children, t.type ≠ .endTag)
      (hchildren : ∀ t ∈ children, Formed t) : Formed (.compound tag children)

theorem Tree.WellFormed.formed {t : Tree} (h : t.WellFormed) : t.Formed := by
  induction h with
  | scalar _ hvalue => exact .scalar hvalue.valid
  | list _ _ htype _ ih => exact .list htype ih
  | compound _ htype _ ih => exact .compound htype ih

/-! ### Positions -/

/-- A tree may stand under the settings: untagged and of the announced type in a
list, not under a forced type elsewhere, and untagged at the root of a network
message, which is big-endian. -/
structure Placed (e : Bool) (settings : NBTSettings) (t : Tree) : Prop where
  network : settings.isNetwork = true → e = true ∧ t.tag = []
  array : settings.isInArray = true → settings.type = t.type ∧ t.type ≠ .endTag ∧ t.tag = []
  named : settings.isInArray = false → settings.type = .endTag

/-- The bytes in front of the payload. -/
def head (e : Bool) (settings : NBTSettings) (t : Tree) : Bytes :=
  if settings.isInArray then []
  else if t.type = .endTag then [t.type.toByte]
  else t.type.toByte :: (if settings.isNetwork then [] else text e t.tag)

/-- The settings of the elements of a list. -/
def arraySettings (type : NBTElementType) : NBTSettings :=
  { type, isInArray := true, isNetwork := false }

theorem placed_array {children : List Tree} {t : Tree} (hlist : ∀ t ∈ children,
      t.type = Tree.elementType children ∧ t.type ≠ .endTag ∧ t.tag = []) (ht : t ∈ children) :
    Placed e (arraySettings (Tree.elementType children)) t := by
  obtain ⟨htype, hend, htag⟩ := hlist t ht
  exact ⟨fun h => absurd h (by simp [arraySettings]), fun _ => ⟨htype.symm, hend, htag⟩,
    fun h => absurd h (by simp [arraySettings])⟩

theorem placed_entry (t : Tree) : Placed e .new t :=
  ⟨fun h => absurd h (by simp [NBTSettings.new]), fun h => absurd h (by simp [NBTSettings.new]),
    fun _ => rfl⟩

theorem head_array (type : NBTElementType) (t : Tree) : head e (arraySettings type) t = [] := rfl

/-- The bytes of a child of a compound. -/
def entry (e : Bool) (t : Tree) : Bytes := head e .new t ++ t.payload e

theorem entries_eq_flatMap {children : List Tree} (h : ∀ t ∈ children, t.type ≠ .endTag) :
    Tree.entries e children = children.flatMap (entry e) := by
  induction children with
  | nil => rfl
  | cons t ts ih =>
    have ht := h t List.mem_cons_self
    rw [Tree.entries, List.flatMap_cons, ih fun s hs => h s (List.mem_cons_of_mem t hs)]
    simp [entry, head, NBTSettings.new, ht]

theorem payloads_eq_flatMap (children : List Tree) :
    Tree.payloads e children = children.flatMap (Tree.payload e) := by
  induction children with
  | nil => rfl
  | cons t ts ih => rw [Tree.payloads, List.flatMap_cons, ih]

/-! ### Encoding -/

theorem writeShortString_produces (hv : Writable e view) (bytes : Bytes) :
    Produces view (writeShortString bytes) (text e bytes) :=
  (hv.writeNumeric _).bind (hv.writeBytes bytes)

theorem writeNumber_produces (hv : Writable e view) {settings : NBTSettings}
    (hs : settings.isNetwork = true → e = true) {k : ℕ} (value : BitVec (8 * k)) :
    Produces view (writeNumber k settings value) (numericBytes e value) := by
  intro buffer bs h
  have hwrite := hv.writeNumeric value buffer bs h
  have hend := hv.endian h
  unfold writeNumber
  split
  · exact hwrite
  · split
    next hbig hnet => exact absurd (hend.trans (hs hnet)) (by simpa using hbig)
    next => exact hwrite

theorem writeStringValue_produces (hv : Writable e view) {settings : NBTSettings}
    (hs : settings.isNetwork = true → e = true) (value : Bytes) :
    Produces view (writeStringValue settings value) (text e value) := by
  intro buffer bs h
  have hwrite := writeShortString_produces hv value buffer bs h
  have hend := hv.endian h
  unfold writeStringValue
  split
  · exact hwrite
  · split
    next => exact hwrite
    next hbig hnet => exact absurd (hend.trans (hs (by simpa using hnet))) (by simpa using hbig)

theorem encodeScalar_produces (hv : Writable e view) {settings : NBTSettings}
    (hs : settings.isNetwork = true → e = true) {element : NBTElement}
    (hl : element.type ≠ .list) (hc : element.type ≠ .compound) :
    Produces view (encodeScalar settings element.type element) (element.scalar.payload e) := by
  have hlen := fun n => writeNumber_produces hv hs (k := 4) (BitVec.ofNat 32 n)
  obtain ⟨_, _, type, _, _, _, _, _, _, bytes, _, _, ints, longs⟩ := element
  cases type with
  | byte => exact hv.writeByte _
  | short => exact hv.writeNumeric (k := 2) _
  | int => exact writeNumber_produces hv hs (k := 4) _
  | long => exact writeNumber_produces hv hs (k := 8) _
  | float => exact hv.writeNumeric (k := 4) _
  | double => exact hv.writeNumeric (k := 8) _
  | byteArray => exact (hlen bytes.length).bind (hv.writeBytes bytes)
  | string => exact writeStringValue_produces hv hs _
  | intArray =>
    exact (hlen ints.length).bind (Produces.forEach _ ints fun v _ => hv.writeNumeric (k := 4) v)
  | longArray =>
    exact (hlen longs.length).bind (Produces.forEach _ longs fun v _ => hv.writeNumeric (k := 8) v)
  | list => exact absurd rfl hl
  | compound => exact absurd rfl hc
  | endTag => exact Produces.pure
  | other code => exact Produces.pure

theorem writeTag_produces (hv : Writable e view) {settings : NBTSettings} {tag : Bytes}
    (hs : settings.isNetwork = true → e = true ∧ tag = []) :
    Produces view (writeTag settings tag) (if settings.isNetwork then [] else text e tag) := by
  intro buffer bs h
  have hwrite := writeShortString_produces hv tag buffer bs h
  have hend := hv.endian h
  unfold writeTag
  by_cases hnet : settings.isNetwork = true
  · obtain ⟨rfl, htag⟩ := hs hnet
    exact ⟨buffer, by simp [hend, htag, hnet], by simpa [hnet] using h⟩
  · simpa [hnet] using hwrite

theorem encodeHead_produces (hv : Writable e view) {settings : NBTSettings} {t : Tree}
    (hp : Placed e settings t) :
    Produces view (encodeHead settings t.type t.tag) (head e settings t) := by
  unfold encodeHead head
  split
  · exact Produces.pure
  · split
    · exact hv.writeByte _
    · rw [← List.singleton_append]
      exact (hv.writeByte t.type.toByte).bind (writeTag_produces hv hp.network)

theorem encodeChildren_eq (settings : NBTSettings) (elements : List NBTElement) :
    encodeChildren settings elements = forEach (encodeWith settings) elements := by
  induction elements with
  | nil => rfl
  | cons element elements ih => rw [encodeChildren, forEach, ih]

/-- The type that the settings force is the element's own one. -/
theorem forcedType_eq {settings : NBTSettings} {element : NBTElement}
    (hp : Placed e settings (tree element)) :
    (if settings.type ≠ .endTag then settings.type else element.type) = element.type := by
  split
  next h =>
    cases harr : settings.isInArray with
    | true => rw [(hp.array harr).1, tree_type]
    | false => exact absurd (hp.named harr) h
  next => rfl

theorem encodeWith_scalar {settings : NBTSettings} {element : NBTElement}
    (htype : (if settings.type ≠ .endTag then settings.type else element.type) = element.type)
    (hl : element.type ≠ .list) (hc : element.type ≠ .compound) :
    encodeWith settings element = (do
      encodeHead settings element.type element.tag
      encodeScalar settings element.type element) := by
  obtain ⟨_, _, type, _, _, _, _, _, _, _, _, _, _, _⟩ := element
  rw [encodeWith, htype]
  cases type <;> first | rfl | contradiction

theorem encodeWith_list {settings : NBTSettings} {element : NBTElement}
    (htype : (if settings.type ≠ .endTag then settings.type else element.type) = element.type)
    (hl : element.type = .list) :
    encodeWith settings element = (do
      encodeHead settings .list element.tag
      match element.childElements.head? with
      | none => do
        writeByte 0
        writeLength settings 0
      | some first =>
        if element.childElements.any (fun child => first.type ≠ child.type) then do
          writeByte 0
          writeLength settings 0
        else do
          writeByte first.type.toByte
          writeLength settings element.childElements.length
          forEach (encodeWith (arraySettings first.type)) element.childElements) := by
  obtain ⟨_, _, type, _, _, _, _, _, _, _, _, childElements, _, _⟩ := element
  obtain rfl := hl
  rw [encodeWith, htype]
  simp only [encodeChildren_eq]
  rfl

theorem encodeWith_compound {settings : NBTSettings} {element : NBTElement}
    (htype : (if settings.type ≠ .endTag then settings.type else element.type) = element.type)
    (hc : element.type = .compound) :
    encodeWith settings element = (do
      encodeHead settings .compound element.tag
      forEach (encodeWith .new) element.childElements
      writeByte 0) := by
  obtain ⟨_, _, type, _, _, _, _, _, _, _, _, childElements, _, _⟩ := element
  obtain rfl := hc
  rw [encodeWith, htype]
  simp only [encodeChildren_eq]
  rfl

/-- The children of a list, whose head is the announced type. -/
theorem encodeList_produces (hv : Writable e view) {settings : NBTSettings} {length : ℕ → Bytes}
    (hlen : ∀ n, Produces view (writeLength settings n) (length n)) {elements : List NBTElement}
    (htype : ∀ t ∈ elements.map tree, t.type = Tree.elementType (elements.map tree))
    (hchildren : ∀ element ∈ elements,
      Produces view (encodeWith (arraySettings (Tree.elementType (elements.map tree))) element)
        ((tree element).payload e)) :
    Produces view (match elements.head? with
      | none => do
        writeByte 0
        writeLength settings 0
      | some first =>
        if elements.any (fun child => first.type ≠ child.type) then do
          writeByte 0
          writeLength settings 0
        else do
          writeByte first.type.toByte
          writeLength settings elements.length
          forEach (encodeWith (arraySettings first.type)) elements)
      ((Tree.elementType (elements.map tree)).toByte ::
        (length (elements.map tree).length ++ Tree.payloads e (elements.map tree))) := by
  cases elements with
  | nil =>
    rw [List.map_nil, Tree.payloads, List.append_nil]
    exact (hv.writeByte 0).bind (hlen 0)
  | cons first rest =>
    have hfirst : Tree.elementType ((first :: rest).map tree) = first.type := tree_type first
    rw [hfirst] at htype hchildren ⊢
    have hsame : ¬ (first :: rest).any (fun child => first.type ≠ child.type) = true := by
      simp only [List.any_eq_true, not_exists, not_and, decide_eq_true_eq, not_not]
      intro child hchild
      rw [← tree_type child]
      exact (htype _ (List.mem_map_of_mem hchild)).symm
    rw [List.head?_cons]
    simp only [if_neg hsame]
    have hall := Produces.forEach (fun element => (tree element).payload e) (first :: rest) hchildren
    rw [payloads_eq_flatMap, List.flatMap_map, List.length_map]
    exact (hv.writeByte _).bind ((hlen _).bind hall)

/-- Encoding an element behind a head, under settings that force no other type and ask for the
network format on a big-endian buffer only. The bytes are those of the tree for any lengths,
with the rest of a length in its field. -/
theorem encodeWith_produces_of_head (hv : Writable e view) {t : Tree} (ht : t.Formed) :
    ∀ (element : NBTElement) (settings : NBTSettings) (w : Bytes), tree element = t →
      (settings.isNetwork = true → e = true) →
      (if settings.type ≠ .endTag then settings.type else element.type) = element.type →
      Produces view (encodeHead settings t.type t.tag) w →
      Produces view (encodeWith settings element) (w ++ t.payload e) := by
  induction ht with
  | scalar =>
    intro element settings w helem hs hforced hhead
    have hl : element.type ≠ .list := by
      intro h
      rw [tree_list h] at helem
      exact absurd helem (by simp)
    have hc : element.type ≠ .compound := by
      intro h
      rw [tree_compound h] at helem
      exact absurd helem (by simp)
    have hscalar := encodeScalar_produces hv hs hl hc
    rw [← helem] at hhead ⊢
    rw [encodeWith_scalar hforced hl hc]
    rw [tree_tag, tree_type] at hhead
    refine hhead.bind ?_
    rw [tree_scalar hl hc]
    exact hscalar
  | list htype hchildren ih =>
    intro element settings w helem hs hforced hhead
    have hl : element.type = .list := by rw [← tree_type, helem]; rfl
    rw [← helem] at hhead ⊢
    rw [encodeWith_list hforced hl]
    rw [tree_tag, tree_type, hl] at hhead
    refine hhead.bind ?_
    rw [tree_list hl] at helem ⊢
    obtain ⟨rfl, rfl⟩ := Tree.list.inj helem
    refine encodeList_produces hv (fun n => writeNumber_produces hv hs (k := 4) (BitVec.ofNat 32 n))
      (fun t h => (htype t h).1) ?_
    intro child hchild
    have hmem := List.mem_map_of_mem (f := tree) hchild
    have hp : Placed e (arraySettings (Tree.elementType (element.childElements.map tree))) (tree child) :=
      placed_array htype hmem
    exact ih _ hmem child _ [] rfl (fun h => (hp.network h).1) (forcedType_eq hp)
      (encodeHead_produces hv hp)
  | compound htype hchildren ih =>
    intro element settings w helem hs hforced hhead
    have hc : element.type = .compound := by rw [← tree_type, helem]; rfl
    rw [← helem] at hhead ⊢
    rw [encodeWith_compound hforced hc]
    rw [tree_tag, tree_type, hc] at hhead
    refine hhead.bind ?_
    rw [tree_compound hc] at helem ⊢
    obtain ⟨rfl, rfl⟩ := Tree.compound.inj helem
    rw [Tree.payload, entries_eq_flatMap htype, List.flatMap_map]
    refine Produces.bind (Produces.forEach _ _ fun child hchild => ?_) (hv.writeByte 0)
    have hp : Placed e .new (tree child) := placed_entry _
    exact ih _ (List.mem_map_of_mem hchild) child _ _ rfl (fun h => (hp.network h).1)
      (forcedType_eq hp) (encodeHead_produces hv hp)

/-- Encoding an element under settings under which it may stand. -/
theorem encodeWith_produces (hv : Writable e view) {t : Tree} (ht : t.WellFormed)
    (element : NBTElement) (settings : NBTSettings) (helem : tree element = t)
    (hp : Placed e settings t) :
    Produces view (encodeWith settings element) (head e settings t ++ t.payload e) := by
  subst helem
  exact encodeWith_produces_of_head hv ht.formed element settings _ rfl (fun h => (hp.network h).1)
    (forcedType_eq hp) (encodeHead_produces hv hp)

/-! ### Decoding -/

/-- The element with the value in the field of its type. -/
def Scalar.store (element : NBTElement) : Scalar → NBTElement
  | .endTag => { element with type := .endTag }
  | .byte value => { element with type := .byte, byteValue := value }
  | .short value => { element with type := .short, shortValue := value }
  | .int value => { element with type := .int, intValue := value }
  | .long value => { element with type := .long, longValue := value }
  | .float value => { element with type := .float, floatValue := value }
  | .double value => { element with type := .double, doubleValue := value }
  | .byteArray value => { element with type := .byteArray, byteArrayValue := value }
  | .string value => { element with type := .string, stringValue := value }
  | .intArray value => { element with type := .intArray, intArrayValue := value }
  | .longArray value => { element with type := .longArray, longArrayValue := value }
  | .other code => { element with type := .other code }

mutual

/-- What `decode` makes of the bytes of a tree. -/
def decoded (settings : NBTSettings) : Tree → NBTElement
  | .scalar tag value => value.store (blank settings tag .endTag)
  | .list tag children =>
    { blank settings tag .list with
      childElements := decodedAll (arraySettings (Tree.elementType children)) children }
  | .compound tag children =>
    { blank settings tag .compound with childElements := decodedAll .new children }

def decodedAll (settings : NBTSettings) : List Tree → List NBTElement
  | [] => []
  | t :: ts => decoded settings t :: decodedAll settings ts

end

theorem decodedAll_eq_map (settings : NBTSettings) (ts : List Tree) :
    decodedAll settings ts = ts.map (decoded settings) := by
  induction ts with
  | nil => rfl
  | cons t ts ih => rw [decodedAll, ih, List.map_cons]

theorem tree_store (element : NBTElement) (value : Scalar) :
    tree (value.store element) = .scalar element.tag value := by
  cases value <;> rfl

theorem map_tree_decodedAll {ts : List Tree} (settings : NBTSettings)
    (h : ∀ t ∈ ts, ∀ settings, tree (decoded settings t) = t) :
    (decodedAll settings ts).map tree = ts := by
  rw [decodedAll_eq_map, List.map_map]
  conv_rhs => rw [← List.map_id ts]
  exact List.map_congr_left fun t ht => h t ht settings

theorem tree_decoded {t : Tree} (ht : t.WellFormed) : ∀ settings, tree (decoded settings t) = t := by
  induction ht with
  | scalar => exact fun settings => tree_store _ _
  | list _ _ _ _ ih =>
    intro settings
    rw [tree_list rfl]
    exact congrArg _ (map_tree_decodedAll _ ih)
  | compound _ _ _ ih =>
    intro settings
    rw [tree_compound rfl]
    exact congrArg _ (map_tree_decodedAll _ ih)

mutual

/-- A recursion bound that decoding the tree does not exhaust. -/
def fuel : Tree → ℕ
  | .scalar _ _ => 1
  | .list _ children => fuels children + 1
  | .compound _ children => fuels children + 2

def fuels : List Tree → ℕ
  | [] => 0
  | t :: ts => fuel t + 1 + fuels ts

end

theorem fuel_lt_fuels {t : Tree} {ts : List Tree} (h : t ∈ ts) : fuel t < fuels ts := by
  induction ts with
  | nil => simp at h
  | cons s ts ih =>
    rw [fuels]
    obtain rfl | h := List.mem_cons.mp h
    · omega
    · have := ih h
      omega

theorem readShortString_consumes (hv : Readable e view) {bytes : Bytes} (h : bytes.length ≤ 65535) :
    Consumes view readShortString (text e bytes) bytes := by
  have hlen : (BitVec.ofNat 16 bytes.length).toNat = bytes.length :=
    Nat.mod_eq_of_lt (show bytes.length < 2 ^ 16 by omega)
  refine (hv.readNumeric (k := 2) (by decide) (BitVec.ofNat 16 bytes.length)).bind ?_
  simp only [hlen]
  exact hv.readBytes bytes (by simp only [maxSize]; omega)

theorem readNumber_consumes (hv : Readable e view) {settings : NBTSettings}
    (hs : settings.isNetwork = true → e = true) {k : ℕ} (hk : k ≤ maxSize) (value : BitVec (8 * k)) :
    Consumes view (readNumber k settings) (numericBytes e value) value := by
  intro buffer rest h
  have hread := hv.readNumeric hk value buffer rest h
  have hend := hv.endian h
  unfold readNumber
  split
  · exact hread
  · split
    next hbig hnet => exact absurd (hend.trans (hs hnet)) (by simpa using hbig)
    next => exact hread

theorem readStringValue_consumes (hv : Readable e view) {settings : NBTSettings}
    (hs : settings.isNetwork = true → e = true) {value : Bytes} (hlen : value.length ≤ 65535) :
    Consumes view (readStringValue settings) (text e value) value := by
  intro buffer rest h
  have hread := readShortString_consumes hv hlen buffer rest h
  have hend := hv.endian h
  unfold readStringValue
  split
  · exact hread
  · split
    next => exact hread
    next hbig hnet => exact absurd (hend.trans (hs (by simpa using hnet))) (by simpa using hbig)

theorem readLength_consumes (hv : Readable e view) {settings : NBTSettings}
    (hs : settings.isNetwork = true → e = true) {n : ℕ} (hn : n < 2 ^ 32) :
    Consumes view (readLength settings) (count32 e n) n := by
  have h := (readNumber_consumes hv hs (k := 4) (by decide) (BitVec.ofNat 32 n)).bind_pure fun v => v.toNat
  rwa [BitVec.toNat_ofNat, Nat.mod_eq_of_lt hn] at h

/-- A count and as many numbers of `k` bytes. -/
theorem readNumbers_consumes (hv : Readable e view) {settings : NBTSettings}
    (hs : settings.isNetwork = true → e = true) {k : ℕ} (hk : k ≤ maxSize)
    {values : List (BitVec (8 * k))} (hlen : values.length < 2 ^ 32)
    (f : List (BitVec (8 * k)) → NBTElement) :
    Consumes view (do
        let length ← readLength settings
        let values ← readArray (readNumeric k) length
        pure (f values))
      (count32 e values.length ++ values.flatMap fun v => numericBytes e v) (f values) :=
  (readLength_consumes hv hs hlen).bind
    ((Consumes.replicate _ values fun v _ => hv.readNumeric hk v).bind_pure f)

theorem decodeScalar_consumes (hv : Readable e view) {settings : NBTSettings}
    (hs : settings.isNetwork = true → e = true) (tag : Bytes) {value : Scalar}
    (h : value.WellFormed) :
    Consumes view (decodeScalar (blank settings tag value.type))
      (value.payload e) (value.store (blank settings tag .endTag)) := by
  cases value with
  | endTag => exact Consumes.pure _
  | byte value => exact (hv.readByte value).bind_pure _
  | short value => exact (hv.readNumeric (k := 2) (by decide) value).bind_pure _
  | int value => exact (readNumber_consumes hv hs (k := 4) (by decide) value).bind_pure _
  | long value => exact (readNumber_consumes hv hs (k := 8) (by decide) value).bind_pure _
  | float value => exact (hv.readNumeric (k := 4) (by decide) value).bind_pure _
  | double value => exact (hv.readNumeric (k := 8) (by decide) value).bind_pure _
  | byteArray value =>
    have hmax : value.length ≤ maxSize := by
      have : value.length < 2 ^ 32 := h
      simp only [maxSize]
      omega
    exact (readLength_consumes hv hs h).bind ((hv.readBytes value hmax).bind_pure _)
  | string value => exact (readStringValue_consumes hv hs h).bind_pure _
  | intArray value => exact readNumbers_consumes hv hs (k := 4) (by decide) h _
  | longArray value => exact readNumbers_consumes hv hs (k := 8) (by decide) h _
  | other code => exact Consumes.pure _

theorem forceType_new (settings : NBTSettings) :
    forceType (.new settings) = blank settings [] settings.type := by
  unfold forceType
  split
  next => rfl
  next h =>
    have htype : settings.type = .endTag := not_not.mp h
    rw [htype, NBTElement.new]

theorem decodeHead_consumes (hv : Readable e view) {settings : NBTSettings} {t : Tree}
    (hp : Placed e settings t) (hvalid : t.type.Valid) (hlen : t.tag.length ≤ 65535)
    (hend : t.type = .endTag → t.tag = []) :
    Consumes view (decodeHead (forceType (.new settings))) (head e settings t)
      (blank settings t.tag t.type) := by
  rw [forceType_new]
  unfold decodeHead head
  rw [blank_settings, blank_tag]
  cases harr : settings.isInArray with
  | true =>
    obtain ⟨htype, -, htag⟩ := hp.array harr
    rw [if_pos rfl, if_pos rfl, htag, htype]
    exact Consumes.pure _
  | false =>
    have hcode := ofByte_toByte hvalid
    rw [if_neg Bool.false_ne_true, if_neg Bool.false_ne_true]
    split
    next hbyte =>
      refine (hv.readByte t.type.toByte).bind (w := []) ?_
      rw [hcode, if_pos hbyte, hend hbyte, hbyte]
      exact Consumes.pure _
    next hbyte =>
      rw [← List.singleton_append]
      refine (hv.readByte t.type.toByte).bind ?_
      rw [hcode, if_neg hbyte]
      refine Consumes.bind_pure (fun tag => blank settings tag t.type) ?_
      intro buffer rest h
      have hbig := hv.endian h
      unfold readTag
      by_cases hnet : settings.isNetwork = true
      · obtain ⟨rfl, htag⟩ := hp.network hnet
        rw [if_pos hnet] at h
        exact ⟨buffer, by simp [hbig, hnet, htag], h⟩
      · rw [if_neg hnet] at h
        obtain ⟨buffer', hread, h'⟩ := readShortString_consumes hv hlen buffer rest h
        exact ⟨buffer', by simp [hnet, hread], h'⟩

/-- Looking at the byte at the reader consumes nothing. -/
theorem peek_consumes {α : Type} {f : Option UInt8 → Action α} {c : UInt8} {w : Bytes} {a : α}
    (hf : Consumes (Stored e) (f (some c)) (c :: w) a) :
    Consumes (Stored e) (peek >>= f) (c :: w) a := by
  intro buffer rest h
  obtain ⟨buffer', hread, h'⟩ := hf buffer rest h
  have hbytes := h.1.getBytes
  have hpos := h.1.position
  have hlt : buffer.getReaderPointer < buffer.size := by
    have hlen : ((c :: w) ++ rest).length = (w ++ rest).length + 1 := rfl
    have : buffer.size = buffer.getReaderPointer + ((c :: w) ++ rest).length := hpos
    omega
  have hget : buffer.getBytes[buffer.getReaderPointer]? = some c := by
    have := congrArg List.head? hbytes
    rwa [List.head?_drop] at this
  have hpeek : peek buffer = .ok (some c, buffer) := by
    rw [peek, if_pos hlt, hget]
  exact ⟨buffer', by rw [bind_of_eq_ok hpeek, hread], h'⟩

theorem decodeEntries_consumes {ts : List Tree} (htype : ∀ t ∈ ts, t.type.Valid ∧ t.type ≠ .endTag)
    (ih : ∀ t ∈ ts, ∀ n, fuel t ≤ n →
      Consumes (Stored e) (decode n (.new .new)) (entry e t) (decoded .new t)) :
    ∀ {n : ℕ} (children : List NBTElement), fuels ts < n →
      Consumes (Stored e) (decodeEntries n .new children) (ts.flatMap (entry e) ++ [0])
        (children ++ decodedAll .new ts) := by
  induction ts with
  | nil =>
    intro n children hn
    obtain ⟨n, rfl⟩ : ∃ k, n = k + 1 := ⟨n - 1, by omega⟩
    rw [decodeEntries, decodedAll, List.append_nil]
    refine peek_consumes ?_
    exact ((readable_stored e).readByte 0).bind_pure _
  | cons t ts ihts =>
    intro n children hn
    rw [fuels] at hn
    obtain ⟨n, rfl⟩ : ∃ k, n = k + 1 := ⟨n - 1, by omega⟩
    obtain ⟨hvalid, hne⟩ := htype t List.mem_cons_self
    have hhead := ih t List.mem_cons_self n (by omega)
    have htail := ihts (fun s hs => htype s (List.mem_cons_of_mem t hs))
      (fun s hs => ih s (List.mem_cons_of_mem t hs)) (n := n) (children ++ [decoded .new t])
      (by omega)
    have hfirst : entry e t = t.type.toByte :: (text e t.tag ++ t.payload e) := by
      simp [entry, head, NBTSettings.new, hne]
    have hcode : t.type.toByte ≠ 0 := by
      rw [ne_eq, toByte_eq_zero hvalid]
      exact hne
    rw [List.flatMap_cons, List.append_assoc, decodeEntries, decodedAll]
    rw [List.append_assoc, List.singleton_append] at htail
    have hbind := Consumes.bind (f := fun child => decodeEntries n .new (children ++ [child]))
      hhead htail
    rw [hfirst, List.cons_append] at hbind ⊢
    refine peek_consumes ?_
    simp only [if_neg hcode]
    exact hbind

theorem isBigEndian_consumes : Consumes (Stored e) NBTElement.isBigEndian [] e :=
  fun buffer _ h => ⟨buffer, by rw [NBTElement.isBigEndian, h.2], h⟩

/-- The settings that `decode` rebuilds never ask for the network format. -/
theorem network_eq_false {settings : NBTSettings} (hs : settings.isNetwork = true → e = true) :
    (!e && settings.isNetwork) = false := by
  cases hnet : settings.isNetwork with
  | true => rw [hs hnet]; rfl
  | false => exact Bool.and_false _

theorem decodeElements_consumes {children : List Tree} {n : ℕ}
    (htype : ∀ t ∈ children, t.type = Tree.elementType children ∧ t.type ≠ .endTag ∧ t.tag = [])
    (ih : ∀ t ∈ children, Consumes (Stored e)
      (decode n (.new (arraySettings (Tree.elementType children)))) (t.payload e)
      (decoded (arraySettings (Tree.elementType children)) t)) :
    Consumes (Stored e)
      (readArray (decode n (.new (arraySettings (Tree.elementType children))))
        (if Tree.elementType children = .endTag then 0 else children.length))
      (Tree.payloads e children)
      (decodedAll (arraySettings (Tree.elementType children)) children) := by
  rw [payloads_eq_flatMap, decodedAll_eq_map]
  cases children with
  | nil => exact Consumes.pure []
  | cons t ts =>
    have hne : Tree.elementType (t :: ts) ≠ .endTag := (htype t List.mem_cons_self).2.1
    rw [if_neg hne]
    exact Consumes.replicate_map _ _ _ ih

theorem elementType_valid {children : List Tree} (h : ∀ t ∈ children, t.WellFormed) :
    (Tree.elementType children).Valid := by
  cases children with
  | nil => trivial
  | cons t ts => exact (h t List.mem_cons_self).valid

/-- Decoding the bytes of a tree under settings under which it may stand. -/
theorem decode_consumes {t : Tree} (ht : t.WellFormed) :
    ∀ (settings : NBTSettings) (n : ℕ), Placed e settings t → (t.type = .endTag → t.tag = []) →
      fuel t ≤ n → Consumes (Stored e) (decode n (.new settings))
        (head e settings t ++ t.payload e) (decoded settings t) := by
  have hv := readable_stored e
  induction ht with
  | @scalar tag value htag hvalue =>
    intro settings n hp hend hn
    obtain ⟨n, rfl⟩ : ∃ k, n = k + 1 := ⟨n - 1, by rw [fuel] at hn; omega⟩
    rw [decode]
    refine (decodeHead_consumes hv hp hvalue.valid htag hend).bind ?_
    have hbody := decodeScalar_consumes hv (fun h => (hp.network h).1) tag hvalue
    cases value <;> exact hbody
  | @list tag children htag hlength htype hchildren ih =>
    intro settings n hp hend hn
    rw [fuel] at hn
    obtain ⟨n, rfl⟩ : ∃ k, n = k + 1 := ⟨n - 1, by omega⟩
    have hnet : settings.isNetwork = true → e = true := fun h => (hp.network h).1
    have helems := decodeElements_consumes (n := n) htype fun t ht => by
      have hlt := fuel_lt_fuels ht
      have hchild := ih t ht _ n (placed_array htype ht) (fun h => absurd h (htype t ht).2.1)
        (by omega)
      rwa [head_array, List.nil_append] at hchild
    rw [decode]
    refine (decodeHead_consumes hv hp trivial htag hend).bind ?_
    rw [Tree.payload, ← List.singleton_append]
    refine (hv.readByte _).bind ?_
    refine (readLength_consumes hv hnet hlength).bind ?_
    refine isBigEndian_consumes.bind (w := Tree.payloads e children) ?_
    rw [ofByte_toByte (elementType_valid hchildren), blank_settings, network_eq_false hnet]
    exact helems.bind_pure _
  | @compound tag children htag htype hchildren ih =>
    intro settings n hp hend hn
    rw [fuel] at hn
    obtain ⟨n, rfl⟩ : ∃ k, n = k + 1 := ⟨n - 1, by omega⟩
    have hnet : settings.isNetwork = true → e = true := fun h => (hp.network h).1
    have hentries := decodeEntries_consumes (fun t ht => ⟨(hchildren t ht).valid, htype t ht⟩)
      (fun t ht n hn => ih t ht .new n (placed_entry t) (fun h => absurd h (htype t ht)) hn)
      (n := n) [] (by omega)
    rw [decode]
    refine (decodeHead_consumes hv hp trivial htag hend).bind ?_
    rw [Tree.payload, entries_eq_flatMap htype]
    refine isBigEndian_consumes.bind (w := children.flatMap (entry e) ++ [0]) ?_
    rw [blank_settings, network_eq_false hnet]
    exact hentries.bind_pure _

/-! ### Round trips -/

/-- Written to a buffer without unread bytes and followed by any suffix, the
tree comes back and the reader stops in front of the suffix, from some recursion
bound on. -/
def RoundTrip (e : Bool) (write : Action Unit) (read : ℕ → Action NBTElement) (t : Tree) : Prop :=
  ∀ (buffer : ByteBuffer) (suffix : Bytes), Stored e buffer [] → ∃ bound, ∀ n ≥ bound,
    ∃ element buffer', (do write; writeBytes suffix; read n) buffer = .ok (element, buffer') ∧
      tree element = t ∧ buffer'.getBytes.drop buffer'.getReaderPointer = suffix ∧
      buffer'.size = buffer'.getReaderPointer + suffix.length

/-- What is written as a word and read back from that word. -/
theorem roundTrip_of_consumes {write : Action Unit} {read : ℕ → Action NBTElement} {t : Tree}
    {w : Bytes} {element : NBTElement} (bound : ℕ) (hwrite : Produces (Stored e) write w)
    (hread : ∀ n, bound ≤ n → Consumes (Stored e) (read n) w element) (ht : tree element = t) :
    RoundTrip e write read t := by
  intro buffer suffix h
  refine ⟨bound, fun n hn => ?_⟩
  obtain ⟨buffer₁, h₁, hs₁⟩ := hwrite buffer [] h
  obtain ⟨buffer₂, h₂, hs₂⟩ := (writable_stored e).writeBytes suffix buffer₁ _ hs₁
  obtain ⟨buffer₃, h₃, hs₃⟩ := hread n hn buffer₂ suffix hs₂
  refine ⟨element, buffer₃, ?_, ht, hs₃.1.getBytes, hs₃.1.position⟩
  rw [bind_of_eq_ok h₁, bind_of_eq_ok h₂, h₃]

/-- The pair `encode` and `NBTElement(ByteBuffer&)` on a buffer of either byte
order, and the pair `writeNBTElement` and `readNBTElement` on a big-endian one
for an untagged root. A root of the type End has no tag. -/
theorem decode_encode (element : NBTElement) (ht : (tree element).WellFormed)
    (hend : element.type = .endTag → element.tag = []) :
    (element.settings = .new → ∀ e,
      RoundTrip e (encode element) (fun n => decode n (.new .new)) (tree element)) ∧
    (element.tag = [] →
      RoundTrip true (writeNBTElement element) readNBTElement (tree element)) := by
  rw [← tree_type, ← tree_tag] at hend
  constructor
  · intro hs e
    rw [encode, hs]
    exact roundTrip_of_consumes (fuel (tree element))
      (encodeWith_produces (writable_stored e) ht element .new rfl (placed_entry _))
      (fun n hn => decode_consumes ht .new n (placed_entry _) hend hn) (tree_decoded ht _)
  · intro htag
    have hp : Placed true networkSettings (tree element) :=
      ⟨fun _ => ⟨rfl, by rw [tree_tag, htag]⟩, fun h => absurd h (by decide), fun _ => rfl⟩
    exact roundTrip_of_consumes (fuel (tree element))
      (encodeWith_produces (writable_stored true) ht element networkSettings rfl hp)
      (fun n hn => decode_consumes ht networkSettings n hp hend hn) (tree_decoded ht _)

/-- A tagged compound with a list of lists and a string. -/
def sample : NBTElement :=
  { blank .new [104, 105] .compound with
    childElements := [
      { blank .new [97] .list with
        childElements := [blank .new [] .list,
          { blank .new [] .list with childElements := [blank .new [] .short] }] },
      { blank .new [] .string with stringValue := [98] }] }

theorem decode_encode_sample :
    (sample.settings = .new → ∀ e,
      RoundTrip e (encode sample) (fun n => decode n (.new .new)) (tree sample)) ∧
    (sample.tag = [] → RoundTrip true (writeNBTElement sample) readNBTElement (tree sample)) := by
  refine decode_encode sample ?_ (by decide)
  have hempty : (Tree.list [] []).WellFormed := .list (by decide) (by decide) (by simp) (by simp)
  have hshort : (Tree.scalar [] (.short 0)).WellFormed := .scalar (by decide) trivial
  have hinner : (Tree.list [] [.scalar [] (.short 0)]).WellFormed :=
    .list (by decide) (by decide) (by simp [Tree.type, Scalar.type, Tree.elementType, Tree.tag])
      (by simpa using hshort)
  have houter : (Tree.list [97] [.list [] [], .list [] [.scalar [] (.short 0)]]).WellFormed :=
    .list (by decide) (by decide) (by simp [Tree.type, Tree.elementType, Tree.tag])
      (by simpa using ⟨hempty, hinner⟩)
  have hstring : (Tree.scalar [] (.string [98])).WellFormed :=
    .scalar (by decide) (by simp [Scalar.WellFormed])
  have htree : tree sample = .compound [104, 105]
      [.list [97] [.list [] [], .list [] [.scalar [] (.short 0)]], .scalar [] (.string [98])] := rfl
  rw [htree]
  exact .compound (by decide) (by simp [Tree.type, Scalar.type]) (by simpa using ⟨houter, hstring⟩)

/-- A root of the type End loses its tag, since no tag follows the type End. -/
theorem not_decode_encode_tagged_end : (tree (blank .new [65] .endTag)).WellFormed ∧
    (blank .new [65] .endTag).settings = .new ∧
    ¬ RoundTrip true (encode (blank .new [65] .endTag)) (fun n => decode n (.new .new))
      (tree (blank .new [65] .endTag)) := by
  have ht : (tree (blank .new [65] .endTag)).WellFormed := .scalar (by decide) trivial
  have hend : (Tree.scalar [] .endTag).WellFormed := .scalar (by decide) trivial
  refine ⟨ht, rfl, fun h => ?_⟩
  have hstored : Stored true ⟨.new, true⟩ [] := ⟨InternalByteBuffer.holds_new, rfl⟩
  obtain ⟨bound, hbound⟩ := h ⟨.new, true⟩ [] hstored
  obtain ⟨element, buffer', hrun, htree, -⟩ := hbound (bound + 1) (by omega)
  obtain ⟨buffer₁, h₁, hs₁⟩ := encodeWith_produces (writable_stored true) ht
    (blank .new [65] .endTag) .new rfl (placed_entry _) _ _ hstored
  obtain ⟨buffer₂, h₂, hs₂⟩ := (writable_stored true).writeBytes [] buffer₁ _ hs₁
  obtain ⟨buffer₃, h₃, -⟩ := decode_consumes hend .new (bound + 1) (placed_entry _) (fun _ => rfl)
    (by rw [fuel]; omega) buffer₂ [] hs₂
  rw [encode, blank_settings, bind_of_eq_ok h₁, bind_of_eq_ok h₂] at hrun
  obtain ⟨rfl, -⟩ := Prod.mk.inj (Except.ok.inj (h₃.symm.trans hrun))
  rw [tree_decoded hend] at htree
  exact absurd (congrArg Tree.tag htree) (by decide)

end Zinc.Nbt
