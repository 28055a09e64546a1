import Zinc.Buffer.RoundTrip
import Zinc.Nbt.RoundTrip

/-! `operator==` of elements against their encoding. The comparison looks at the types
and at the values that the types select; it looks at no tag, and so not at the keys of a
compound either, at any depth. Well-formed trees with the same root tag are told apart by
their bytes, so that both agree unless two trees differ in keys alone. -/

namespace Zinc.Nbt

open Throw Buffer Buffer.ByteBuffer NBTElementType

variable {e : Bool} {t t' : Tree}

/-! ### The comparison -/

/-- Numbers with a mantissa of so many bits: a NaN equals nothing, and the zeros are equal. -/
def floatEqual {width : ℕ} (mantissa : ℕ) (a b : BitVec width) : Bool :=
  let magnitude := fun x : BitVec width => x.toNat % 2 ^ (width - 1)
  let infinity := 2 ^ (width - 1) - 2 ^ mantissa
  magnitude a ≤ infinity ∧ magnitude b ≤ infinity ∧
    (a = b ∨ magnitude a = 0 ∧ magnitude b = 0)

namespace NBTElement

mutual

/-- `NBTElement::operator==`. -/
def equal : NBTElement → NBTElement → Bool
  | ⟨_, _, type, byteValue, shortValue, intValue, longValue, floatValue, doubleValue, byteArrayValue,
      stringValue, childElements, intArrayValue, longArrayValue⟩, element =>
    if element.type ≠ type then false
    else match type with
    | .byte => byteValue = element.byteValue
    | .short => shortValue = element.shortValue
    | .int => intValue = element.intValue
    | .long => longValue = element.longValue
    | .float => floatEqual 23 floatValue element.floatValue
    | .double => floatEqual 52 doubleValue element.doubleValue
    | .byteArray => byteArrayValue = element.byteArrayValue
    | .string => stringValue = element.stringValue
    | .list => equalAll childElements element.childElements
    | .compound => equalAll childElements element.childElements
    | .intArray => intArrayValue = element.intArrayValue
    | .longArray => longArrayValue = element.longArrayValue
    | _ => true

/-- `==` of the vectors of children. -/
def equalAll : List NBTElement → List NBTElement → Bool
  | [], [] => true
  | a :: as, b :: bs => equal a b && equalAll as bs
  | _, _ => false

end

end NBTElement

open NBTElement

/-! ### Trees without tags -/

namespace Tree

mutual

/-- The tree with all its tags removed. -/
def bare : Tree → Tree
  | scalar _ value => scalar [] value
  | list _ children => list [] (bareAll children)
  | compound _ children => compound [] (bareAll children)

def bareAll : List Tree → List Tree
  | [] => []
  | t :: ts => bare t :: bareAll ts

end

mutual

/-- The tags of the members of compounds, at all depths. -/
def keys : Tree → List Bytes
  | scalar _ _ => []
  | list _ children => elementKeys children
  | compound _ children => memberKeys children

def elementKeys : List Tree → List Bytes
  | [] => []
  | t :: ts => keys t ++ elementKeys ts

def memberKeys : List Tree → List Bytes
  | [] => []
  | t :: ts => t.tag :: (keys t ++ memberKeys ts)

end

theorem type_bare (t : Tree) : t.bare.type = t.type := by cases t <;> rfl

mutual

theorem length_keys : (t t' : Tree) → t.bare = t'.bare →
    t.keys.length = t'.keys.length
  | scalar _ _, scalar _ _, _ => rfl
  | list _ ts, list _ ts', h => length_elementKeys ts ts' (by simpa [bare] using h)
  | compound _ ts, compound _ ts', h => length_memberKeys ts ts' (by simpa [bare] using h)
  | scalar _ _, list _ _, h => by cases h
  | scalar _ _, compound _ _, h => by cases h
  | list _ _, scalar _ _, h => by cases h
  | list _ _, compound _ _, h => by cases h
  | compound _ _, scalar _ _, h => by cases h
  | compound _ _, list _ _, h => by cases h

theorem length_elementKeys : (ts ts' : List Tree) → bareAll ts = bareAll ts' →
    (elementKeys ts).length = (elementKeys ts').length
  | [], [], _ => rfl
  | t :: ts, t' :: ts', h => by
    obtain ⟨hhead, htail⟩ := List.cons.inj h
    rw [elementKeys, elementKeys, List.length_append, List.length_append, length_keys t t' hhead,
      length_elementKeys ts ts' htail]
  | [], _ :: _, h => by cases h
  | _ :: _, [], h => by cases h

theorem length_memberKeys : (ts ts' : List Tree) → bareAll ts = bareAll ts' →
    (memberKeys ts).length = (memberKeys ts').length
  | [], [], _ => rfl
  | t :: ts, t' :: ts', h => by
    obtain ⟨hhead, htail⟩ := List.cons.inj h
    rw [memberKeys, memberKeys, List.length_cons, List.length_cons, List.length_append,
      List.length_append, length_keys t t' hhead, length_memberKeys ts ts' htail]
  | [], _ :: _, h => by cases h
  | _ :: _, [], h => by cases h

end

mutual

/-- Trees that agree in everything but tags have the same keys only if they are the same. -/
theorem eq_of_keys : (t t' : Tree) → t.WellFormed → t'.WellFormed → t.tag = t'.tag →
    t.bare = t'.bare → t.keys = t'.keys → t = t'
  | scalar tag _, scalar tag' _, _, _, htag, h, _ => by
    obtain rfl : tag = tag' := htag
    rw [(scalar.inj h).2]
  | list tag ts, list tag' ts', hwf, hwf', htag, h, hkeys => by
    obtain rfl : tag = tag' := htag
    cases hwf with
    | list _ _ htype hchildren =>
      cases hwf' with
      | list _ _ htype' hchildren' =>
        rw [eq_of_elementKeys ts ts' hchildren hchildren' (fun t ht => (htype t ht).2.2)
          (fun t ht => (htype' t ht).2.2) (list.inj h).2 hkeys]
  | compound tag ts, compound tag' ts', hwf, hwf', htag, h, hkeys => by
    obtain rfl : tag = tag' := htag
    cases hwf with
    | compound _ _ hchildren =>
      cases hwf' with
      | compound _ _ hchildren' =>
        rw [eq_of_memberKeys ts ts' hchildren hchildren' (compound.inj h).2 hkeys]
  | scalar _ _, list _ _, _, _, _, h, _ => by cases h
  | scalar _ _, compound _ _, _, _, _, h, _ => by cases h
  | list _ _, scalar _ _, _, _, _, h, _ => by cases h
  | list _ _, compound _ _, _, _, _, h, _ => by cases h
  | compound _ _, scalar _ _, _, _, _, h, _ => by cases h
  | compound _ _, list _ _, _, _, _, h, _ => by cases h

theorem eq_of_elementKeys : (ts ts' : List Tree) → (∀ t ∈ ts, t.WellFormed) →
    (∀ t ∈ ts', t.WellFormed) → (∀ t ∈ ts, t.tag = []) → (∀ t ∈ ts', t.tag = []) →
    bareAll ts = bareAll ts' → elementKeys ts = elementKeys ts' → ts = ts'
  | [], [], _, _, _, _, _, _ => rfl
  | t :: ts, t' :: ts', hwf, hwf', htag, htag', h, hkeys => by
    obtain ⟨hhead, htail⟩ := List.cons.inj h
    obtain ⟨hkeys₁, hkeys₂⟩ := List.append_inj hkeys (length_keys t t' hhead)
    rw [List.forall_mem_cons] at hwf hwf' htag htag'
    rw [eq_of_keys t t' hwf.1 hwf'.1 (htag.1.trans htag'.1.symm) hhead hkeys₁,
      eq_of_elementKeys ts ts' hwf.2 hwf'.2 htag.2 htag'.2 htail hkeys₂]
  | [], _ :: _, _, _, _, _, h, _ => by cases h
  | _ :: _, [], _, _, _, _, h, _ => by cases h

theorem eq_of_memberKeys : (ts ts' : List Tree) → (∀ t ∈ ts, t.WellFormed) →
    (∀ t ∈ ts', t.WellFormed) → bareAll ts = bareAll ts' →
    memberKeys ts = memberKeys ts' → ts = ts'
  | [], [], _, _, _, _ => rfl
  | t :: ts, t' :: ts', hwf, hwf', h, hkeys => by
    obtain ⟨hhead, htail⟩ := List.cons.inj h
    obtain ⟨htag, hkeys⟩ := List.cons.inj hkeys
    obtain ⟨hkeys₁, hkeys₂⟩ := List.append_inj hkeys (length_keys t t' hhead)
    rw [List.forall_mem_cons] at hwf hwf'
    rw [eq_of_keys t t' hwf.1 hwf'.1 htag hhead hkeys₁,
      eq_of_memberKeys ts ts' hwf.2 hwf'.2 htail hkeys₂]
  | [], _ :: _, _, _, h, _ => by cases h
  | _ :: _, [], _, _, h, _ => by cases h

end

/-- No node holds a float or a double. -/
inductive FloatFree : Tree → Prop
  | scalar {tag : Bytes} {value : Scalar} (hfloat : value.type ≠ .float)
      (hdouble : value.type ≠ .double) : FloatFree (.scalar tag value)
  | list {tag : Bytes} {children : List Tree} (h : ∀ t ∈ children, FloatFree t) :
      FloatFree (.list tag children)
  | compound {tag : Bytes} {children : List Tree} (h : ∀ t ∈ children, FloatFree t) :
      FloatFree (.compound tag children)

end Tree

/-! ### What the comparison sees -/

theorem equal_type {a b : NBTElement} (h : equal a b = true) : b.type = a.type := by
  obtain ⟨_, _, type, _, _, _, _, _, _, _, _, _, _, _⟩ := a
  by_contra hne
  unfold equal at h
  rw [if_pos hne] at h
  exact absurd h (by simp)

theorem type_of_bare {a b : NBTElement} (h : (tree a).bare = (tree b).bare) :
    b.type = a.type := by
  have htype := congrArg Tree.type h
  rw [Tree.type_bare, Tree.type_bare, tree_type, tree_type] at htype
  exact htype.symm

/-- The comparison of elements without children. -/
theorem equal_scalar {a b : NBTElement} (htype : b.type = a.type) (hl : a.type ≠ .list)
    (hc : a.type ≠ .compound) (hfloat : a.type ≠ .float) (hdouble : a.type ≠ .double) :
    equal a b = true ↔ a.scalar = b.scalar := by
  obtain ⟨_, _, type, _, _, _, _, _, _, _, _, _, _, _⟩ := a
  obtain ⟨_, _, type', _, _, _, _, _, _, _, _, _, _, _⟩ := b
  obtain rfl : type' = type := htype
  cases type' with
  | list => exact absurd rfl hl
  | compound => exact absurd rfl hc
  | float => exact absurd rfl hfloat
  | double => exact absurd rfl hdouble
  | _ => simp [equal, scalar]

theorem equal_children {a b : NBTElement} (ha : a.type = .list ∨ a.type = .compound)
    (hb : b.type = a.type) : equal a b = equalAll a.childElements b.childElements := by
  obtain ⟨_, _, _, _, _, _, _, _, _, _, _, _, _, _⟩ := a
  obtain rfl | rfl := ha <;> simp [equal, hb]

/-- Elements of different types are told apart by both. -/
theorem equal_iff_bare_of_ne {a b : NBTElement} (h : b.type ≠ a.type) :
    equal a b = true ↔ (tree a).bare = (tree b).bare :=
  iff_of_false (fun hequal => h (equal_type hequal)) fun hbare => h (type_of_bare hbare)

/-- Children that are compared like their trees without tags are so as vectors too. -/
theorem equalAll_iff {as : List NBTElement} (h : ∀ a ∈ as, ∀ b, equal a b = true ↔
    (tree a).bare = (tree b).bare) (bs : List NBTElement) :
    equalAll as bs = true ↔
      Tree.bareAll (as.map tree) = Tree.bareAll (bs.map tree) := by
  induction as generalizing bs with
  | nil => cases bs <;> simp [equalAll, Tree.bareAll]
  | cons a as ih =>
    rw [List.forall_mem_cons] at h
    cases bs with
    | nil => simp [equalAll, Tree.bareAll]
    | cons b bs => simp [equalAll, Tree.bareAll, h.1 b, ih h.2 bs]

/-- The comparison is equality of the trees without their tags. -/
theorem equal_iff_bare (h : t.FloatFree) : ∀ a, tree a = t → ∀ b,
    equal a b = true ↔ (tree a).bare = (tree b).bare := by
  induction h with
  | scalar hfloat hdouble =>
    intro a ha b
    obtain ⟨hl, hc, rfl⟩ := of_tree_scalar ha
    by_cases htype : b.type = a.type
    · have hscalar : a.scalar.type = a.type := by
        rw [← tree_type, tree_scalar hl hc]
        rfl
      rw [hscalar] at hfloat hdouble
      rw [equal_scalar htype hl hc hfloat hdouble, tree_scalar hl hc,
        tree_scalar (htype ▸ hl) (htype ▸ hc)]
      simp [Tree.bare]
    · exact equal_iff_bare_of_ne htype
  | list _ ih =>
    intro a ha b
    obtain ⟨htype, rfl⟩ := of_tree_list ha
    by_cases hb : b.type = a.type
    · rw [equal_children (.inl htype) hb, equalAll_iff, tree_list htype, tree_list (hb.trans htype)]
      · simp [Tree.bare]
      · exact fun child hchild => ih _ (List.mem_map_of_mem hchild) child rfl
    · exact equal_iff_bare_of_ne hb
  | compound _ ih =>
    intro a ha b
    obtain ⟨htype, rfl⟩ := of_tree_compound ha
    by_cases hb : b.type = a.type
    · rw [equal_children (.inr htype) hb, equalAll_iff, tree_compound htype,
        tree_compound (hb.trans htype)]
      · simp [Tree.bare]
      · exact fun child hchild => ih _ (List.mem_map_of_mem hchild) child rfl
    · exact equal_iff_bare_of_ne hb

/-! ### What the encoding tells apart -/

/-- The bytes that `encode` writes to an empty buffer. -/
def encodedBytes (element : NBTElement) : Except Fault Bytes := do
  let ((), data) ← encode element .new
  return data.getBytes

theorem encodedBytes_eq {element : NBTElement} (hs : element.settings = .new)
    (hwf : (tree element).WellFormed) :
    encodedBytes element = .ok (entry true (tree element)) := by
  obtain ⟨data, hrun, hfresh⟩ := encodeWith_produces (writable_fresh true) hwf element .new rfl
    (placed_entry _) .new [] fresh_new
  rw [encodedBytes, encode, hs, hrun, entry, ← List.nil_append (head _ _ _ ++ _), ← hfresh.getBytes]
  rfl

/-- The first byte of an encoded tree is its type. -/
theorem entry_cons (e : Bool) (t : Tree) : ∃ bytes, entry e t = t.type.toByte :: bytes := by
  rw [entry, head, if_neg (by simp [NBTSettings.new])]
  split
  · exact ⟨_, rfl⟩
  · exact ⟨_, rfl⟩

theorem type_of_entry (ht : t.WellFormed) (ht' : t'.WellFormed) (h : entry e t = entry e t') :
    t.type = t'.type := by
  obtain ⟨bytes, heq⟩ := entry_cons e t
  obtain ⟨bytes', heq'⟩ := entry_cons e t'
  rw [heq, heq'] at h
  rw [← ofByte_toByte ht.valid, ← ofByte_toByte ht'.valid, (List.cons.inj h).1]

/-- Well-formed trees with the same root tag are told apart by their bytes. -/
theorem entry_inj (ht : t.WellFormed) (ht' : t'.WellFormed) (htag : t.tag = t'.tag) :
    entry e t = entry e t' ↔ t = t' := by
  refine ⟨fun h => ?_, fun h => h ▸ rfl⟩
  have htype := type_of_entry ht ht' h
  by_cases hend : t.type = .endTag
  · have hscalar : ∀ s : Tree, s.type = .endTag → s = .scalar s.tag .endTag := by
      intro s hs
      cases s with
      | scalar tag value => cases value <;> first | rfl | cases hs
      | list tag children => cases hs
      | compound tag children => cases hs
    rw [hscalar t hend, hscalar t' (htype ▸ hend), htag]
  · have hread := decode_consumes (e := e) ht .new (max (fuel t) (fuel t')) (placed_entry t)
      (fun h => absurd h hend) (le_max_left _ _)
    have hread' := decode_consumes (e := e) ht' .new (max (fuel t) (fuel t')) (placed_entry t')
      (fun h => absurd (htype.trans h) hend) (le_max_right _ _)
    rw [← entry] at hread hread'
    rw [← h] at hread'
    have hdecoded := unique_of_consumes hread hread'
    rw [← tree_decoded ht .new, hdecoded, tree_decoded ht' .new]

/-! ### Comparison and encoding -/

/-- Equality and the encoding agree on two trees exactly if they do not differ in keys
alone: if all types and values agree, then so do the keys. -/
theorem equal_agrees_iff {a b : NBTElement} (ha : a.settings = .new) (hb : b.settings = .new)
    (hwa : (tree a).WellFormed) (hwb : (tree b).WellFormed) (hfa : (tree a).FloatFree)
    (htag : a.tag = b.tag) :
    (equal a b = true ↔ encodedBytes a = encodedBytes b) ↔
      ((tree a).bare = (tree b).bare → (tree a).keys = (tree b).keys) := by
  have htag' : (tree a).tag = (tree b).tag := by rw [tree_tag, tree_tag, htag]
  have hbytes : encodedBytes a = encodedBytes b ↔ tree a = tree b := by
    rw [encodedBytes_eq ha hwa, encodedBytes_eq hb hwb, Except.ok.injEq,
      entry_inj hwa hwb htag']
  rw [equal_iff_bare hfa a rfl b, hbytes]
  constructor
  · intro h hbare
    rw [h.mp hbare]
  · intro h
    refine ⟨fun hbare => ?_, fun heq => heq ▸ rfl⟩
    exact Tree.eq_of_keys _ _ hwa hwb htag' hbare (h hbare)

/-- A compound with one byte. -/
def sampleMember (key : Bytes) (value : UInt8) : NBTElement := compound [] [byte key value]

theorem wellFormed_sampleMember {key : Bytes} (value : UInt8) (h : key.length ≤ 65535) :
    (tree (sampleMember key value)).WellFormed := by
  have hbyte : (Tree.scalar key (.byte value)).WellFormed := .scalar h trivial
  rw [sampleMember, tree_of_compound]
  exact .compound (by simp) (by simp [Tree.type, Scalar.type]) (by simpa using hbyte)

theorem floatFree_sampleMember (key : Bytes) (value : UInt8) :
    (tree (sampleMember key value)).FloatFree := by
  have hbyte : (Tree.scalar key (.byte value)).FloatFree :=
    .scalar (by simp [Scalar.type]) (by simp [Scalar.type])
  rw [sampleMember, tree_of_compound]
  exact .compound (by simpa using hbyte)

/-- Other values under other keys. -/
theorem equal_agrees_iff_values : equal (sampleMember [120] 1) (sampleMember [121] 2) = true ↔
    encodedBytes (sampleMember [120] 1) = encodedBytes (sampleMember [121] 2) := by
  refine (equal_agrees_iff rfl rfl (wellFormed_sampleMember 1 (by decide))
    (wellFormed_sampleMember 2 (by decide)) (floatFree_sampleMember _ _) rfl).mpr fun h => ?_
  simp [sampleMember, Tree.bare, Tree.bareAll] at h

/-- The same value under other keys. -/
theorem not_equal_agrees : ¬ ∀ a b : NBTElement, a.settings = .new → b.settings = .new →
    (tree a).WellFormed → (tree b).WellFormed → (tree a).FloatFree → (tree b).FloatFree →
    a.tag = b.tag → (equal a b = true ↔ encodedBytes a = encodedBytes b) := by
  intro h
  have hwx : (tree (sampleMember [120] 1)).WellFormed := wellFormed_sampleMember 1 (by decide)
  have hwy : (tree (sampleMember [121] 1)).WellFormed := wellFormed_sampleMember 1 (by decide)
  have hbytes := (h (sampleMember [120] 1) (sampleMember [121] 1) rfl rfl hwx hwy
    (floatFree_sampleMember _ _) (floatFree_sampleMember _ _) rfl).mp (by decide)
  rw [encodedBytes_eq rfl hwx, encodedBytes_eq rfl hwy] at hbytes
  exact absurd (Except.ok.inj hbytes) (by decide)

end Zinc.Nbt
