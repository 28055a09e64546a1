import Zinc.Base.JsonSpelling
import Zinc.Nbt.RoundTrip
import Zinc.Network.Session

/-! The JSON text of an NBT element. It is the text of the tree's arrays, objects and
integers, with a comma between any two items; but strings and keys are put between quotes
as they are, so that it is read back exactly if none of them needs an escape. -/

namespace Zinc.Network

open Buffer Nbt NBTElement JsonReader

variable {host : Host} {element : NBTElement} {t : Tree}

/-! ### Texts of integers -/

theorem utf8_append (a b : String) : utf8 (a ++ b) = utf8 a ++ utf8 b := by
  simp [utf8, String.toUTF8]

/-- A character of one byte is its own code. -/
theorem utf8_ofList {characters : List Char} (h : ∀ c ∈ characters, c.toNat < 128) :
    utf8 (String.ofList characters) = characters.map Char.toUInt8 := by
  induction characters with
  | nil => rfl
  | cons c characters ih =>
    have hsize : c.utf8Size = 1 :=
      Char.utf8Size_eq_one_iff.mpr (UInt32.le_iff_toNat_le.mpr (Nat.le_of_lt_succ (h c (by simp))))
    have htail := ih fun d hd => h d (List.mem_cons_of_mem c hd)
    simp only [utf8, String.toUTF8, String.toByteArray_ofList] at htail ⊢
    rw [List.utf8Encode_cons, List.utf8Encode_singleton, String.utf8EncodeChar_eq_singleton hsize]
    simp [htail]

theorem utf8_repr (n : ℕ) : utf8 n.repr = digitsOf n := by
  rw [Nat.repr_eq_ofList_toDigits, utf8_ofList, digitsOf]
  intro c hc
  have hdigit := Nat.isDigit_of_mem_toDigits (by decide) (by decide) hc
  simp only [Char.isDigit, Bool.and_eq_true, decide_eq_true_eq] at hdigit
  exact Nat.lt_of_le_of_lt (UInt32.le_iff_toNat_le.mp hdigit.2) (by decide)

/-- `std::to_string` is the text of a JSON number. -/
theorem decimal_eq (value : ℤ) : decimal value = integerText value := by
  cases value with
  | ofNat n => exact utf8_repr n
  | negSucc n =>
    rw [integerText, if_pos (Int.negSucc_lt_zero n)]
    change utf8 ("-" ++ (n + 1).repr) = 45 :: digitsOf (n + 1)
    rw [utf8_append, utf8_repr]
    rfl

theorem commas_eq (texts : List Bytes) : commas texts = joined texts := by
  induction texts with
  | nil => rfl
  | cons text texts ih =>
    cases texts with
    | nil => simp [commas, joined, show utf8 "," = [44] from rfl]
    | cons text' texts =>
      have hne : ((text' :: texts).flatMap fun text => text ++ utf8 ",") ≠ [] := by
        simp [show utf8 "," = [44] from rfl]
      rw [commas] at ih ⊢
      rw [List.flatMap_cons, List.dropLast_append_of_ne_nil hne, ih]
      simp [joined, show utf8 "," = [44] from rfl]

/-! ### Values of trees -/

/-- The bytes 0 and 1 stand for truth values. -/
def byteValue (value : UInt8) : JsonReader.Value :=
  if value = 1 then .boolean true else if value = 0 then .boolean false
  else .number value.toInt8.toInt 0

def scalarValue : Scalar → JsonReader.Value
  | .byte value => byteValue value
  | .short value => .number value.toInt 0
  | .int value => .number value.toInt 0
  | .long value => .number value.toInt 0
  | .byteArray value => .array (value.map fun c => .number c.toInt8.toInt 0)
  | .string value => .string value
  | .intArray value => .array (value.map fun n => .number n.toInt 0)
  | .longArray value => .array (value.map fun n => .number n.toInt 0)
  | _ => .null

mutual

/-- What a tree is as a JSON value. -/
def treeValue : Tree → JsonReader.Value
  | .scalar _ value => scalarValue value
  | .list _ children => .array (treeValues children)
  | .compound _ children => .object (memberValues children)

def treeValues : List Tree → List JsonReader.Value
  | [] => []
  | t :: ts => treeValue t :: treeValues ts

def memberValues : List Tree → List (Bytes × JsonReader.Value)
  | [] => []
  | t :: ts => (t.tag, treeValue t) :: memberValues ts

end

theorem treeValues_eq_map (ts : List Tree) : treeValues ts = ts.map treeValue := by
  induction ts with
  | nil => rfl
  | cons t ts ih => rw [treeValues, ih, List.map_cons]

theorem memberValues_eq_map (ts : List Tree) :
    memberValues ts = ts.map fun t => (t.tag, treeValue t) := by
  induction ts with
  | nil => rfl
  | cons t ts ih => rw [memberValues, ih, List.map_cons]

/-- Neither End nor a float or a double. -/
def PlainScalar : Scalar → Prop
  | .endTag => False
  | .float _ => False
  | .double _ => False
  | .other _ => False
  | _ => True

/-- No node is of the type End or holds a float or a double. -/
inductive Plain : Tree → Prop
  | scalar {tag : Bytes} {value : Scalar} (h : PlainScalar value) : Plain (.scalar tag value)
  | list {tag : Bytes} {children : List Tree} (h : ∀ t ∈ children, Plain t) :
      Plain (.list tag children)
  | compound {tag : Bytes} {children : List Tree} (h : ∀ t ∈ children, Plain t) :
      Plain (.compound tag children)

/-- No string and no key of a tree needs an escape. The tags of the root and of the
elements of a list are no keys. -/
inductive Escapeless : Tree → Prop
  | scalar {tag : Bytes} {value : Scalar} (h : ∀ string, value = .string string → Unescaped string) :
      Escapeless (.scalar tag value)
  | list {tag : Bytes} {children : List Tree} (h : ∀ t ∈ children, Escapeless t) :
      Escapeless (.list tag children)
  | compound {tag : Bytes} {children : List Tree}
      (hkeys : ∀ t ∈ children, Unescaped t.tag) (h : ∀ t ∈ children, Escapeless t) :
      Escapeless (.compound tag children)

/-! ### Texts of trees -/

def byteText (value : UInt8) : Bytes :=
  if value = 1 then booleanText true else if value = 0 then booleanText false
  else integerText value.toInt8.toInt

theorem readsBack_byteText (value : UInt8) : ReadsBack (byteText value) (byteValue value) := by
  unfold byteText byteValue
  split_ifs
  · exact readsBack_booleanText true
  · exact readsBack_booleanText false
  · exact readsBack_integerText _

theorem determines_byteText (value : UInt8) :
    Determines (byteText value) (byteValue value) True := by
  unfold byteText byteValue
  split_ifs
  · exact determines_booleanText true
  · exact determines_booleanText false
  · exact determines_integerText _

def scalarText : Scalar → Bytes
  | .byte value => byteText value
  | .short value => integerText value.toInt
  | .int value => integerText value.toInt
  | .long value => integerText value.toInt
  | .byteArray value => arrayText (value.map fun c => integerText c.toInt8.toInt)
  | .string value => quoted value
  | .intArray value => arrayText (value.map fun n => integerText n.toInt)
  | .longArray value => arrayText (value.map fun n => integerText n.toInt)
  | _ => []

theorem readsBack_scalarText {value : Scalar} (h : PlainScalar value)
    (hstring : ∀ string, value = .string string → Unescaped string) :
    ReadsBack (scalarText value) (scalarValue value) := by
  cases value with
  | byte value => exact readsBack_byteText value
  | short value => exact readsBack_integerText _
  | int value => exact readsBack_integerText _
  | long value => exact readsBack_integerText _
  | byteArray value => exact readsBack_arrayText fun c _ => readsBack_integerText _
  | string value => exact readsBack_quoted (hstring value rfl)
  | intArray value => exact readsBack_arrayText fun n _ => readsBack_integerText _
  | longArray value => exact readsBack_arrayText fun n _ => readsBack_integerText _
  | _ => exact h.elim

theorem determines_scalarText {value : Scalar} (h : PlainScalar value) :
    Determines (scalarText value) (scalarValue value)
      (∀ string, value = .string string → Unescaped string) := by
  cases value with
  | byte value => exact (determines_byteText value).imp fun _ => by simp
  | short value => exact (determines_integerText _).imp fun _ => by simp
  | int value => exact (determines_integerText _).imp fun _ => by simp
  | long value => exact (determines_integerText _).imp fun _ => by simp
  | byteArray value =>
    exact (determines_arrayText fun c _ => determines_integerText _).imp fun _ => by simp
  | string value => exact (determines_quoted value).imp fun h => by simpa using h
  | intArray value =>
    exact (determines_arrayText fun n _ => determines_integerText _).imp fun _ => by simp
  | longArray value =>
    exact (determines_arrayText fun n _ => determines_integerText _).imp fun _ => by simp
  | _ => exact h.elim

/-! ### The text of an element -/

theorem childrenToJSON_eq_map (host : Host) (elements : List NBTElement) :
    childrenToJSON host elements = elements.map fun child => (child.tag, toJSON host child) := by
  induction elements with
  | nil => rfl
  | cons element elements ih => rw [childrenToJSON, ih, List.map_cons]

theorem toJSON_list (h : element.type = .list) :
    toJSON host element = arrayText (element.childElements.map (toJSON host)) := by
  obtain ⟨_, _, _, _, _, _, _, _, _, _, _, _, _, _⟩ := element
  obtain rfl := h
  rw [toJSON, childrenToJSON_eq_map, commas_eq, List.map_map]
  rfl

theorem toJSON_compound (h : element.type = .compound) :
    toJSON host element = objectText (element.childElements.map fun child =>
      memberText child.tag (toJSON host child)) := by
  obtain ⟨_, _, _, _, _, _, _, _, _, _, _, _, _, _⟩ := element
  obtain rfl := h
  have hmember : ∀ tag json : Bytes,
      utf8 "\"" ++ tag ++ utf8 "\":" ++ json = memberText tag json := by
    intro tag json
    simp [memberText, quoted, show utf8 "\"" = [34] from rfl, show utf8 "\":" = [34, 58] from rfl]
  rw [toJSON, childrenToJSON_eq_map, commas_eq, List.map_map]
  simp only [Function.comp_def, hmember]
  rfl

/-- The spelling of an array of numbers. -/
def integers (values : List ℤ) : Spelling := .array (values.map fun value => .token (integerText value))

def scalarSpelling (host : Host) : Scalar → Spelling
  | .endTag => .token []
  | .byte value => .token (byteText value)
  | .short value => .token (integerText value.toInt)
  | .int value => .token (integerText value.toInt)
  | .long value => .token (integerText value.toInt)
  | .float value => .token (host.floatText value)
  | .double value => .token (host.doubleText value)
  | .byteArray value => integers (value.map fun c => c.toInt8.toInt)
  | .string value => .string value
  | .intArray value => integers (value.map BitVec.toInt)
  | .longArray value => integers (value.map BitVec.toInt)
  | .other _ => .object []

theorem text_integers (values : List ℤ) :
    (integers values).text = arrayText (values.map integerText) := by
  rw [integers, Spelling.text, Spelling.texts_eq_map, List.map_map]
  rfl

theorem toJSON_scalarSpelling (hl : element.type ≠ .list) (hc : element.type ≠ .compound) :
    toJSON host element = (scalarSpelling host element.scalar).text := by
  obtain ⟨_, _, type, _, _, _, _, _, _, _, _, _, _, _⟩ := element
  cases type with
  | byte => simp only [toJSON, decimal_eq]; rfl
  | short => simp only [toJSON, decimal_eq]; rfl
  | int => simp only [toJSON, decimal_eq]; rfl
  | long => simp only [toJSON, decimal_eq]; rfl
  | byteArray | intArray | longArray =>
    simp only [toJSON, decimal_eq, commas_eq, NBTElement.scalar, scalarSpelling, text_integers,
      List.map_map]
    rfl
  | list => exact absurd rfl hl
  | compound => exact absurd rfl hc
  | _ => rfl

theorem text_scalarSpelling {value : Scalar} (h : PlainScalar value) :
    (scalarSpelling host value).text = scalarText value := by
  cases value with
  | byteArray value | intArray value | longArray value =>
    rw [scalarSpelling, text_integers, List.map_map]
    rfl
  | byte value | short value | int value | long value | string value => rfl
  | _ => exact h.elim

theorem toJSON_scalar (hl : element.type ≠ .list) (hc : element.type ≠ .compound)
    (h : PlainScalar element.scalar) : toJSON host element = scalarText element.scalar := by
  rw [toJSON_scalarSpelling hl hc, text_scalarSpelling h]

/-! ### Reading the text -/

theorem readsBack_toJSON (h : Plain t) : ∀ element, tree element = t → Escapeless t →
    ReadsBack (toJSON host element) (treeValue t) := by
  induction h with
  | scalar hvalue =>
    intro element heq hescapeless
    obtain ⟨hl, hc, rfl⟩ := of_tree_scalar heq
    cases hescapeless with
    | scalar hstring =>
      rw [toJSON_scalar hl hc hvalue]
      exact readsBack_scalarText hvalue hstring
  | list _ ih =>
    intro element heq hescapeless
    obtain ⟨htype, rfl⟩ := of_tree_list heq
    cases hescapeless with
    | list h =>
      rw [toJSON_list htype, treeValue, treeValues_eq_map, List.map_map]
      refine readsBack_arrayText fun child hchild => ?_
      have hmem := List.mem_map_of_mem (f := tree) hchild
      exact ih _ hmem child rfl (h _ hmem)
  | compound _ ih =>
    intro element heq hescapeless
    obtain ⟨htype, rfl⟩ := of_tree_compound heq
    cases hescapeless with
    | compound hkeys h =>
      rw [toJSON_compound htype, treeValue, memberValues_eq_map, List.map_map]
      simp only [Function.comp_def, tree_tag]
      refine readsBack_objectText (fun child hchild => ?_) fun child hchild => ?_
      · simpa [tree_tag] using hkeys _ (List.mem_map_of_mem (f := tree) hchild)
      · have hmem := List.mem_map_of_mem (f := tree) hchild
        exact ih _ hmem child rfl (h _ hmem)

theorem determines_toJSON (h : Plain t) : ∀ element, tree element = t →
    Determines (toJSON host element) (treeValue t) (Escapeless t) := by
  induction h with
  | scalar hvalue =>
    intro element heq
    obtain ⟨hl, hc, rfl⟩ := of_tree_scalar heq
    rw [toJSON_scalar hl hc hvalue]
    exact (determines_scalarText hvalue).imp .scalar
  | list _ ih =>
    intro element heq
    obtain ⟨htype, rfl⟩ := of_tree_list heq
    rw [toJSON_list htype, treeValue, treeValues_eq_map, List.map_map]
    have hchildren : ∀ child ∈ element.childElements, Determines (toJSON host child)
        (treeValue (tree child)) (Escapeless (tree child)) :=
      fun child hchild => ih _ (List.mem_map_of_mem (f := tree) hchild) child rfl
    exact (determines_arrayText hchildren).imp fun h => .list (by simpa using h)
  | compound _ ih =>
    intro element heq
    obtain ⟨htype, rfl⟩ := of_tree_compound heq
    rw [toJSON_compound htype, treeValue, memberValues_eq_map, List.map_map]
    simp only [Function.comp_def, tree_tag]
    have hchildren : ∀ child ∈ element.childElements, Determines (toJSON host child)
        (treeValue (tree child)) (Escapeless (tree child)) :=
      fun child hchild => ih _ (List.mem_map_of_mem (f := tree) hchild) child rfl
    refine (determines_objectText hchildren).imp fun h => .compound ?_ ?_
    · simpa [tree_tag] using fun child hchild => (h child hchild).1
    · simpa using fun child hchild => (h child hchild).2

/-! ### What the text shows -/

/-- `std::to_string` puts none of the characters around values into a number. -/
structure PrintsNumbers (host : Host) : Prop where
  float : ∀ bits, ∀ c ∈ host.floatText bits, c ∉ Spelling.marks
  double : ∀ bits, ∀ c ∈ host.doubleText bits, c ∉ Spelling.marks

mutual

/-- What the text of a tree shows. -/
def spelling (host : Host) : Tree → Spelling
  | .scalar _ value => scalarSpelling host value
  | .list _ children => .array (Spelling.shown (spellings host children))
  | .compound _ children => .object (memberSpellings host children)

def spellings (host : Host) : List Tree → List Spelling
  | [] => []
  | t :: ts => spelling host t :: spellings host ts

def memberSpellings (host : Host) : List Tree → List (Bytes × Spelling)
  | [] => []
  | t :: ts => (t.tag, spelling host t) :: memberSpellings host ts

end

theorem spellings_eq_map (host : Host) (ts : List Tree) :
    spellings host ts = ts.map (spelling host) := by
  induction ts with
  | nil => rfl
  | cons t ts ih => rw [spellings, ih, List.map_cons]

theorem memberSpellings_eq_map (host : Host) (ts : List Tree) :
    memberSpellings host ts = ts.map fun t => (t.tag, spelling host t) := by
  induction ts with
  | nil => rfl
  | cons t ts ih => rw [memberSpellings, ih, List.map_cons]

mutual

/-- The text of an element is the one that its tree spells. -/
theorem toJSON_eq_text (host : Host) : (t : Tree) → ∀ element, tree element = t →
    toJSON host element = (spelling host t).text
  | .scalar _ _, element, heq => by
    obtain ⟨hl, hc, rfl⟩ := of_tree_scalar heq
    exact toJSON_scalarSpelling hl hc
  | .list _ children, element, heq => by
    obtain ⟨htype, hchildren⟩ := of_tree_list heq
    rw [toJSON_list htype, spelling, Spelling.text, Spelling.arrayText_shown,
      map_toJSON_eq_texts host children _ hchildren.symm]
  | .compound _ children, element, heq => by
    obtain ⟨htype, hchildren⟩ := of_tree_compound heq
    rw [toJSON_compound htype, spelling, Spelling.text, Spelling.memberTexts_eq_map,
      map_memberText_eq_texts host children _ hchildren.symm]

theorem map_toJSON_eq_texts (host : Host) : (ts : List Tree) →
    ∀ elements : List NBTElement, elements.map tree = ts →
    elements.map (toJSON host) = Spelling.texts (spellings host ts)
  | [], elements, heq => by rw [List.map_eq_nil_iff.mp heq]; rfl
  | t :: ts, elements, heq => by
    obtain ⟨element, elements, rfl, hhead, htail⟩ := List.map_eq_cons_iff.mp heq
    rw [List.map_cons, spellings, Spelling.texts, toJSON_eq_text host t element hhead,
      map_toJSON_eq_texts host ts elements htail]

theorem map_memberText_eq_texts (host : Host) : (ts : List Tree) →
    ∀ elements : List NBTElement, elements.map tree = ts →
    (elements.map fun child => memberText child.tag (toJSON host child)) =
      (memberSpellings host ts).map fun member => memberText member.1 member.2.text
  | [], elements, heq => by rw [List.map_eq_nil_iff.mp heq]; rfl
  | t :: ts, elements, heq => by
    obtain ⟨element, elements, rfl, hhead, htail⟩ := List.map_eq_cons_iff.mp heq
    rw [List.map_cons, memberSpellings, List.map_cons, toJSON_eq_text host t element hhead,
      map_memberText_eq_texts host ts elements htail, ← hhead, tree_tag]

end

/-! ### Quotes -/

/-- No string and no key of a tree holds a quote. -/
inductive Quoteless : Tree → Prop
  | scalar {tag : Bytes} {value : Scalar} (h : ∀ string, value = .string string → 34 ∉ string) :
      Quoteless (.scalar tag value)
  | list {tag : Bytes} {children : List Tree} (h : ∀ t ∈ children, Quoteless t) :
      Quoteless (.list tag children)
  | compound {tag : Bytes} {children : List Tree} (hkeys : ∀ t ∈ children, 34 ∉ t.tag)
      (h : ∀ t ∈ children, Quoteless t) : Quoteless (.compound tag children)

theorem clear_integer (value : ℤ) : Spelling.Clear (.token (integerText value)) := by
  have hdigits : ∀ n, ∀ c ∈ digitsOf n, c ∉ Spelling.marks := by
    intro n c hc hmark
    have hdigit := isDigit_of_mem_digitsOf n c hc
    have hmarks : ∀ c ∈ Spelling.marks, isDigit c = false := by simp [Spelling.marks, isDigit]
    rw [hmarks c hmark] at hdigit
    exact absurd hdigit Bool.false_ne_true
  refine .token ?_
  unfold integerText
  split
  · exact List.forall_mem_cons.mpr ⟨by decide, hdigits _⟩
  · exact hdigits _

theorem clear_integers (values : List ℤ) : (integers values).Clear := by
  refine .array ?_ ?_
  · rcases values with _ | ⟨value, _ | _⟩
    · exact id
    · obtain ⟨c, tail, htext, -⟩ := starts_integerText value
      intro hempty
      rw [List.map_singleton, Hidden, Spelling.text, htext] at hempty
      exact absurd hempty (List.cons_ne_nil _ _)
    · exact id
  · intro s hs
    obtain ⟨value, -, rfl⟩ := List.mem_map.mp hs
    exact clear_integer value

theorem clear_byte (value : UInt8) : Spelling.Clear (.token (byteText value)) := by
  have hboolean (value : Bool) : Spelling.Clear (.token (booleanText value)) := by
    refine .token ?_
    cases value <;> simp [booleanText, Spelling.marks]
  unfold byteText
  split_ifs
  · exact hboolean true
  · exact hboolean false
  · exact clear_integer _

theorem Quoteless.clear (hhost : PrintsNumbers host) (h : Quoteless t) : (spelling host t).Clear := by
  induction h with
  | @scalar tag value h =>
    cases value with
    | endTag => exact .token (by simp)
    | byte value => exact clear_byte value
    | short value | int value | long value => exact clear_integer _
    | float value => exact .token (hhost.float value)
    | double value => exact .token (hhost.double value)
    | byteArray value | intArray value | longArray value => exact clear_integers _
    | string value => exact .string (h value rfl)
    | other code => exact .object (by simp) (by simp)
  | list _ ih =>
    refine .array (Spelling.not_hidden_shown _) fun s hs => ?_
    have hmem := Spelling.mem_of_mem_shown hs
    rw [spellings_eq_map] at hmem
    obtain ⟨t, ht, rfl⟩ := List.mem_map.mp hmem
    exact ih t ht
  | compound hkeys _ ih =>
    rw [spelling, memberSpellings_eq_map]
    refine .object ?_ ?_
    · simpa using hkeys
    · simpa using ih

/-- The text of an element is read back as its value exactly if none of its strings and
keys needs an escape. -/
theorem parse_toJSON_iff (h : Plain (tree element)) :
    parse (toJSON host element) = some (treeValue (tree element)) ↔ Escapeless (tree element) :=
  ⟨(determines_toJSON h element rfl).of_parse, fun hescapeless =>
    (readsBack_toJSON h element rfl hescapeless).parse⟩

/-- A true byte under the key `bold`. -/
theorem parse_toJSON_iff_bold :
    parse (toJSON sampleHost (compound [] [byte (utf8 "bold") 1])) =
      some (treeValue (tree (compound [] [byte (utf8 "bold") 1]))) := by
  have hbyte : PlainScalar (.byte 1) := trivial
  refine (parse_toJSON_iff ?_).mpr ?_
  · rw [tree_of_compound]
    exact .compound (by simpa using Plain.scalar hbyte)
  · rw [tree_of_compound]
    exact .compound (by simp [Tree.tag]; decide +kernel) (by simpa using Escapeless.scalar (by simp))

/-- The line break that every login error holds. -/
theorem not_parse_toJSON : ¬ ∀ host element, Plain (tree element) →
    parse (toJSON host element) = some (treeValue (tree element)) := by
  intro h
  have htree : tree (TextComponent.plain "\n").encode = .compound []
      [.scalar (utf8 "type") (.string (utf8 "text")), .scalar (utf8 "text") (.string (utf8 "\n"))] :=
    rfl
  have hstring : ∀ string, PlainScalar (.string string) := fun _ => trivial
  have hparse := h sampleHost (TextComponent.plain "\n").encode
    (htree ▸ .compound (by simpa using ⟨.scalar (hstring _), .scalar (hstring _)⟩))
  have hnone : (parse (toJSON sampleHost (TextComponent.plain "\n").encode)).isNone = true := by
    decide +kernel
  rw [hparse] at hnone
  exact absurd hnone (by simp)

end Zinc.Network
