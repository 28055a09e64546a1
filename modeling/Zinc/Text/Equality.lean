import Zinc.Network.Printed
import Zinc.Text.Distinct
import Zinc.Text.Small

/-! `operator==` of text components, which compares their JSON texts. Such a text is an
array of the component without its extra components, followed by these, nested ones in
order as well; so it shows the members of each component, but not how the components are
nested, and of an NBT value it shows only what JSON can express. Where no string holds a
quote, two texts are the same exactly if they show the same. -/

namespace Zinc.Text

open Buffer Nbt NBTElement Network JsonReader

variable {host : Host}

/-! ### The comparison -/

namespace TextComponent

mutual

/-- `encodeJSON`. -/
def encodeJSON (host : Host) : TextComponent → Bytes
  | t@⟨_, _, _, _, _, _, _, _, _, _, _, _, _, _, extra, _, _, _⟩ =>
    let baseText := { t with extra := [] }
    utf8 "[" ++ toJSON host baseText.encode ++ extraJSON host extra ++ utf8 "]"

/-- The loop over the extra components, whose brackets are cut off. -/
def extraJSON (host : Host) : List TextComponent → Bytes
  | [] => []
  | text :: texts =>
    let temporaryJSONArray := encodeJSON host text
    (if 2 < temporaryJSONArray.length then utf8 "," ++ (temporaryJSONArray.drop 1).dropLast else []) ++
      extraJSON host texts

end

/-- `TextComponent::operator==`. -/
def equal (host : Host) (t text : TextComponent) : Bool := encodeJSON host t = encodeJSON host text

/-! ### Components in order -/

/-- The component without its extra components. -/
def base (t : TextComponent) : TextComponent := { t with extra := [] }

mutual

/-- The components of a text in the order of the JSON array. -/
def flat : TextComponent → List TextComponent
  | t@⟨_, _, _, _, _, _, _, _, _, _, _, _, _, _, extra, _, _, _⟩ => t.base :: flatAll extra

def flatAll : List TextComponent → List TextComponent
  | [] => []
  | text :: texts => flat text ++ flatAll texts

end

theorem flat_eq (t : TextComponent) : t.flat = t.base :: flatAll t.extra := by
  obtain ⟨_, _, _, _, _, _, _, _, _, _, _, _, _, _, _, _, _, _⟩ := t
  rfl

theorem encodeJSON_eq (host : Host) (t : TextComponent) : encodeJSON host t =
    utf8 "[" ++ toJSON host t.base.encode ++ extraJSON host t.extra ++ utf8 "]" := by
  obtain ⟨_, _, _, _, _, _, _, _, _, _, _, _, _, _, _, _, _, _⟩ := t
  rfl

/-- The texts of the components. -/
def texts (host : Host) (t : TextComponent) : List Bytes :=
  t.flat.map fun text => toJSON host text.encode

/-- A compound is never empty as a text. -/
theorem length_toJSON_encode (host : Host) (t : TextComponent) :
    2 ≤ (toJSON host t.encode).length := by
  have htype : t.encode.type = .compound := by rw [encode_eq]; rfl
  rw [toJSON_compound htype, objectText]
  simp

mutual

theorem encodeJSON_eq_arrayText (host : Host) :
    (t : TextComponent) → encodeJSON host t = arrayText (texts host t)
  | t@⟨_, _, _, _, _, _, _, _, _, _, _, _, _, _, extra, _, _, _⟩ => by
    rw [encodeJSON_eq, texts, flat_eq, List.map_cons, arrayText, joined_cons_eq]
    dsimp only
    rw [extraJSON_eq_flatMap host extra]
    simp [show utf8 "[" = [91] from rfl, show utf8 "]" = [93] from rfl]

theorem extraJSON_eq_flatMap (host : Host) : (extra : List TextComponent) → extraJSON host extra =
    ((flatAll extra).map fun text => toJSON host text.encode).flatMap (44 :: ·)
  | [] => rfl
  | text :: more => by
    have hlength := length_toJSON_encode host text.base
    rw [extraJSON, encodeJSON_eq_arrayText host text, extraJSON_eq_flatMap host more, flatAll,
      List.map_append, List.flatMap_append, texts, flat_eq, List.map_cons, arrayText, joined_cons_eq]
    rw [if_pos (by simp only [List.length_cons, List.length_append]; omega)]
    simp [show utf8 "," = [44] from rfl, ← List.append_assoc]

end

/-! ### What is written and what is shown -/

/-- Elements are seen as their trees. -/
def seesTree : Sees tree tree where
  tag := Tree.tag
  tag_eq := tree_tag
  string := by simp
  flag := by
    intro _ value value'
    cases value <;> cases value' <;> simp [flag]
  int := by simp
  list := by simp
  compound := by simp
  element := by simp
  string_ne := by simp

/-- What the text of an element shows. -/
def shownElement (host : Host) (element : NBTElement) : Spelling := spelling host (tree element)

/-- With its key. -/
def shownMember (host : Host) (element : NBTElement) : Bytes × Spelling :=
  (element.tag, shownElement host element)

section

variable (tag : Bytes) (elements : List NBTElement)

@[simp] theorem shownElement_string (value : Bytes) :
    shownElement host (string tag value) = .string value := rfl

@[simp] theorem shownElement_byte (value : UInt8) :
    shownElement host (byte tag value) = .token (byteText value) := rfl

@[simp] theorem shownElement_int (value : BitVec 32) :
    shownElement host (int tag value) = .token (integerText value.toInt) := rfl

@[simp] theorem shownElement_list : shownElement host (list tag elements) =
    .array (Spelling.shown (elements.map (shownElement host))) := by
  rw [shownElement, tree_of_list, spelling, spellings_eq_map, List.map_map]
  rfl

@[simp] theorem shownElement_compound : shownElement host (compound tag elements) =
    .object (elements.map (shownMember host)) := by
  rw [shownElement, tree_of_compound, spelling, memberSpellings_eq_map, List.map_map]
  refine congrArg Spelling.object (List.map_congr_left fun element _ => ?_)
  rw [Function.comp_apply, tree_tag]
  rfl

end

/-- Elements are seen as their texts. -/
def seesShown (host : Host) : Sees (shownMember host) (shownElement host) where
  tag := Prod.fst
  tag_eq _ := rfl
  string := by simp [shownMember]
  flag := by
    intro _ value value'
    cases value <;> cases value' <;> simp [shownMember, flag, byteText, booleanText]
  int := by simp [shownMember, integerText_inj, BitVec.toInt_inj]
  list h h' := by simp [shownMember, Spelling.shown_inj, h, h']
  compound := by simp [shownMember]
  element := by simp
  string_ne := by simp [shownMember]

variable {t t' : TextComponent}

/-- The components in order, each without its extra components, agree in the members that are
written, where parts that are NBT already are compared by `f` and `g`. -/
def Agree {β γ : Type} (f : NBTElement → β) (g : NBTElement → γ) (t t' : TextComponent) : Prop :=
  t.flat.map (written f g) = t'.flat.map (written f g)

/-- How the extra components of a component are nested. -/
inductive Nesting where
  | node (extra : List Nesting)

mutual

def nesting : TextComponent → Nesting
  | ⟨_, _, _, _, _, _, _, _, _, _, _, _, _, _, extra, _, _, _⟩ => .node (nestings extra)

def nestings : List TextComponent → List Nesting
  | [] => []
  | text :: texts => nesting text :: nestings texts

end

theorem nesting_eq (t : TextComponent) : t.nesting = .node (nestings t.extra) := by
  obtain ⟨_, _, _, _, _, _, _, _, _, _, _, _, _, _, _, _, _, _⟩ := t
  rfl

mutual

/-- Components of the same nesting are as many. -/
theorem length_flat : (t t' : TextComponent) → t.nesting = t'.nesting →
    t.flat.length = t'.flat.length
  | t@⟨_, _, _, _, _, _, _, _, _, _, _, _, _, _, extra, _, _, _⟩, t', h => by
    rw [nesting_eq, nesting_eq] at h
    rw [flat_eq, flat_eq, List.length_cons, List.length_cons,
      length_flatAll extra t'.extra (Nesting.node.inj h)]

theorem length_flatAll : (ts ts' : List TextComponent) → nestings ts = nestings ts' →
    (flatAll ts).length = (flatAll ts').length
  | [], [], _ => rfl
  | t :: ts, t' :: ts', h => by
    obtain ⟨hhead, htail⟩ := List.cons.inj h
    rw [flatAll, flatAll, List.length_append, List.length_append, length_flat t t' hhead,
      length_flatAll ts ts' htail]
  | [], _ :: _, h => by cases h
  | _ :: _, [], h => by cases h

end

theorem members_base (t : TextComponent) : t.base.members = { t.members with extra := [] } := by
  obtain ⟨_, _, _, _, _, _, _, _, _, _, _, _, _, _, _, _, _, _⟩ := t
  rfl

/-- A component writes what it writes without its extra components, and these. -/
theorem written_eq_iff {β γ : Type} (f : NBTElement → β) (g : NBTElement → γ) :
    t.written f g = t'.written f g ↔ t.base.written f g = t'.base.written f g ∧
      t.extra.map (written f g) = t'.extra.map (written f g) := by
  have hextra (t : TextComponent) : t.members.extra = t.extra := rfl
  simp only [written_eq, members_base, Written.mk.injEq, Members.map, Members.mk.injEq, hextra,
    List.map_nil, true_and]
  tauto

mutual

/-- All members agree exactly if they agree in order and in their nesting. -/
theorem written_eq_iff_agree {β γ : Type} (f : NBTElement → β) (g : NBTElement → γ) :
    (t t' : TextComponent) → (t.written f g = t'.written f g ↔
      Agree f g t t' ∧ t.nesting = t'.nesting)
  | t@⟨_, _, _, _, _, _, _, _, _, _, _, _, _, _, extra, _, _, _⟩, t' => by
    rw [written_eq_iff, Agree, flat_eq, flat_eq, nesting_eq, nesting_eq, List.map_cons,
      List.map_cons, List.cons.injEq, Nesting.node.injEq, map_written_eq_iff f g extra t'.extra,
      and_assoc]

theorem map_written_eq_iff {β γ : Type} (f : NBTElement → β) (g : NBTElement → γ) :
    (ts ts' : List TextComponent) → (ts.map (written f g) = ts'.map (written f g) ↔
      (flatAll ts).map (written f g) = (flatAll ts').map (written f g) ∧ nestings ts = nestings ts')
  | [], [] => by simp [flatAll]
  | [], t' :: ts' => by simp [nestings]
  | t :: ts, [] => by simp [nestings]
  | t :: ts, t' :: ts' => by
    rw [List.map_cons, List.map_cons, List.cons.injEq, written_eq_iff_agree f g t t',
      map_written_eq_iff f g ts ts', flatAll, flatAll, List.map_append, List.map_append, nestings,
      nestings, List.cons.injEq]
    constructor
    · rintro ⟨⟨hflat, hnesting⟩, hflats, hnestings⟩
      exact ⟨by rw [← hflats, show t.flat.map (written f g) = _ from hflat], hnesting, hnestings⟩
    · rintro ⟨happend, hnesting, hnestings⟩
      obtain ⟨hflat, hflats⟩ := List.append_inj happend (by simp [length_flat t t' hnesting])
      exact ⟨⟨hflat, hnesting⟩, hflats, hnestings⟩

end

/-- Components have the same tree exactly if they agree in their nesting and, in order, in
their members. -/
theorem tree_encode_iff (t t' : TextComponent) :
    tree t.encode = tree t'.encode ↔ Agree tree tree t t' ∧ t.nesting = t'.nesting := by
  rw [encode_eq_compound, encode_eq_compound, seesTree.compound, written_iff seesTree,
    written_eq_iff_agree]

/-! ### Components without quotes -/

/-- No string that is written holds a quote, here and in all nested components, and no key and
no string in what is NBT already. -/
inductive Quiet : TextComponent → Prop
  | intro {t : TextComponent} (hstrings : ∀ bytes ∈ t.members.strings, 34 ∉ bytes)
      (hseparator : ∀ element ∈ t.members.separator, 34 ∉ element.tag ∧ Quoteless (tree element))
      (hitem : ∀ element ∈ t.members.item, Quoteless (tree element))
      (hnested : ∀ text ∈ t.members.texts, Quiet text) : Quiet t

theorem quoteless_list {tag : Bytes} {elements : List NBTElement}
    (h : ∀ element ∈ elements, Quoteless (tree element)) : Quoteless (tree (list tag elements)) := by
  rw [tree_of_list]
  exact .list (by simpa using h)

theorem quoteless_compound {tag : Bytes} {elements : List NBTElement}
    (h : ∀ element ∈ elements, 34 ∉ element.tag ∧ Quoteless (tree element)) :
    Quoteless (tree (compound tag elements)) := by
  rw [tree_of_compound]
  refine .compound ?_ ?_
  · simpa [tree_tag] using fun element hmem => (h element hmem).1
  · simpa using fun element hmem => (h element hmem).2

theorem admits_quoteless :
    Admits (34 ∉ ·) fun element => 34 ∉ element.tag ∧ Quoteless (tree element) where
  name := by decide +kernel
  uuid := Uuids.quote_notMem_toString
  string tag value htag hvalue := ⟨htag, .scalar fun _ h => Scalar.string.inj h ▸ hvalue⟩
  byte tag value htag := ⟨htag, .scalar fun _ h => by cases h⟩
  int tag value htag := ⟨htag, .scalar fun _ h => by cases h⟩
  compound tag elements htag h := ⟨htag, quoteless_compound h⟩

theorem Quiet.elements (h : t.Quiet) :
    ∀ element ∈ t.elements, 34 ∉ element.tag ∧ Quoteless (tree element) := by
  induction h with
  | intro hstrings hseparator hitem _ ih =>
    refine admits_quoteless.layer hstrings hseparator (fun tag htag texts _ hquiet => ?_)
      (fun tag htag => ⟨htag, quoteless_list hitem⟩) ih
    refine ⟨htag, quoteless_list ?_⟩
    simp only [List.map_map, List.forall_mem_map, Function.comp_apply]
    exact fun text hmem => quoteless_compound (hquiet text hmem)

theorem Quiet.base (h : t.Quiet) : t.base.Quiet := by
  cases h with
  | intro hstrings hseparator hitem hnested =>
    refine .intro ?_ ?_ ?_ ?_ <;> rw [members_base]
    · exact hstrings
    · exact hseparator
    · exact hitem
    · intro text hmem
      refine hnested text ?_
      simp only [Members.texts, List.append_nil, List.mem_append] at hmem ⊢
      exact hmem.imp .inl id

theorem flatAll_eq_flatMap (texts : List TextComponent) : flatAll texts = texts.flatMap flat := by
  induction texts with
  | nil => rfl
  | cons text texts ih => rw [flatAll, ih, List.flatMap_cons]

theorem Quiet.flat (h : t.Quiet) : ∀ text ∈ t.flat, text.Quiet := by
  induction t using nestedInduction with
  | h t ih =>
    rw [flat_eq, flatAll_eq_flatMap, List.forall_mem_cons, List.forall_mem_flatMap]
    refine ⟨h.base, fun text hmem => ?_⟩
    have htext : text ∈ t.members.texts := by simp [Members.texts, members, membersOf, hmem]
    cases h with
    | intro _ _ _ hnested => exact ih text htext (hnested text htext)

/-! ### Comparison and encoding -/

theorem spelling_encode (host : Host) (t : TextComponent) :
    spelling host (tree t.encode) = .object (t.elements.map (shownMember host)) := by
  rw [encode_eq_compound]
  exact shownElement_compound [] t.elements

/-- What the whole text shows. -/
def shownTexts (host : Host) (t : TextComponent) : Spelling :=
  .array (t.flat.map fun text => spelling host (tree text.encode))

theorem encodeJSON_eq_text (host : Host) (t : TextComponent) :
    encodeJSON host t = (t.shownTexts host).text := by
  rw [encodeJSON_eq_arrayText, shownTexts, Spelling.text, Spelling.texts_eq_map, List.map_map, texts]
  exact congrArg arrayText (List.map_congr_left fun text _ => toJSON_eq_text host _ _ rfl)

theorem Quiet.clear (hhost : PrintsNumbers host) (h : t.Quiet) : (t.shownTexts host).Clear := by
  refine .array ?_ ?_
  · rw [flat_eq, List.map_cons, spelling_encode]
    cases flatAll t.extra <;> simp [Hidden, Spelling.text, objectText]
  · rw [List.forall_mem_map]
    intro text hmem
    refine Quoteless.clear hhost ?_
    rw [encode_eq_compound]
    exact quoteless_compound (h.flat text hmem).elements

/-- Components without quotes are equal exactly if, in order, their members show the same. -/
theorem equal_iff (hhost : PrintsNumbers host) (h : t.Quiet) (h' : t'.Quiet) :
    equal host t t' = true ↔ Agree (shownMember host) (shownElement host) t t' := by
  rw [equal, decide_eq_true_eq, encodeJSON_eq_text, encodeJSON_eq_text,
    Spelling.text_inj (h.clear hhost) (h'.clear hhost), shownTexts, shownTexts, Spelling.array.injEq,
    Agree]
  refine map_eq_iff_of_mem fun text _ text' => ?_
  rw [spelling_encode, spelling_encode, Spelling.object.injEq, written_iff (seesShown host)]

/-- The components agree in their members, with all NBT in them, and in their nesting, or no
quote is in them and they differ in a member that the text shows. -/
def Told (host : Host) (t t' : TextComponent) : Prop :=
  Agree tree tree t t' ∧ t.nesting = t'.nesting ∨
    t.Quiet ∧ t'.Quiet ∧ ¬ Agree (shownMember host) (shownElement host) t t'

/-- Equality implies the same tree for components that are told apart, and among the
components without quotes for no others. -/
theorem equal_implies_iff (hhost : PrintsNumbers host) (t t' : TextComponent) :
    (Told host t t' → equal host t t' = true → tree t.encode = tree t'.encode) ∧
      (t.Quiet → t'.Quiet →
        ((equal host t t' = true → tree t.encode = tree t'.encode) ↔ Told host t t')) := by
  have hsufficient : Told host t t' → equal host t t' = true → tree t.encode = tree t'.encode := by
    rintro (hagree | ⟨h, h', hdiffer⟩) heq
    · exact (tree_encode_iff t t').mpr hagree
    · exact absurd ((equal_iff hhost h h').mp heq) hdiffer
  refine ⟨hsufficient, fun h h' => ⟨fun himplies => ?_, hsufficient⟩⟩
  by_cases hagree : Agree (shownMember host) (shownElement host) t t'
  · exact .inl ((tree_encode_iff t t').mp (himplies ((equal_iff hhost h h').mpr hagree)))
  · exact .inr ⟨h, h', hagree⟩

/-- A plain text with extra components. -/
def plainText (text : Bytes) (extra : List TextComponent) : TextComponent :=
  { new with type := some .text, text := some text, extra }

theorem quiet_plainText {text : Bytes} {extra : List TextComponent} (h : 34 ∉ text)
    (hextra : ∀ t ∈ extra, t.Quiet) : (plainText text extra).Quiet :=
  .intro (List.forall_mem_singleton.mpr h) (fun _ hmem => absurd hmem List.not_mem_nil)
    (fun _ hmem => absurd hmem List.not_mem_nil) (by
      intro t ht
      refine hextra t ?_
      simpa [Members.texts, members, membersOf, content, plainText, contentType, Content.texts,
        new] using ht)

theorem printsNumbers_sampleHost : PrintsNumbers sampleHost :=
  ⟨by simp [sampleHost], by simp [sampleHost]⟩

/-- A line break with a letter in an extra component. -/
def brokenLine (letter : UInt8) : TextComponent := plainText [10] [plainText [letter] []]

theorem equal_implies_brokenLine : Told sampleHost (brokenLine 98) (brokenLine 99) ∧
    (equal sampleHost (brokenLine 98) (brokenLine 99) = true →
      tree (brokenLine 98).encode = tree (brokenLine 99).encode) ∧
    ((equal sampleHost (brokenLine 98) (brokenLine 98) = true →
      tree (brokenLine 98).encode = tree (brokenLine 98).encode) ↔
        Told sampleHost (brokenLine 98) (brokenLine 98)) := by
  have hquiet (letter : UInt8) (hletter : 34 ∉ [letter]) : (brokenLine letter).Quiet :=
    quiet_plainText (by decide) (List.forall_mem_singleton.mpr (quiet_plainText hletter (by simp)))
  have hb := hquiet 98 (by decide)
  have htold : Told sampleHost (brokenLine 98) (brokenLine 99) := by
    refine .inr ⟨hb, hquiet 99 (by decide), fun hagree => ?_⟩
    have hextra := (List.cons.inj (List.cons.inj hagree).2).1
    simp [written_eq, Members.map, members, membersOf, content, Content.map, contentType, base,
      new] at hextra
  exact ⟨htold, (equal_implies_iff printsNumbers_sampleHost _ _).1 htold,
    (equal_implies_iff printsNumbers_sampleHost _ _).2 hb hb⟩

/-- An extra component of an extra component, and two extra components. -/
theorem not_equal_implies : ¬ ∀ host t t', equal host t t' = true →
    tree t.encode = tree t'.encode := by
  intro h
  have htree := h sampleHost (plainText [97] [plainText [98] [plainText [99] []]])
    (plainText [97] [plainText [98] [], plainText [99] []]) (by decide +kernel)
  have hnesting := ((tree_encode_iff _ _).mp htree).2
  simp [nesting, nestings, plainText, new] at hnesting

end TextComponent

end Zinc.Text
