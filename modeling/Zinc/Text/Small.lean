import Zinc.Nbt.RoundTrip
import Zinc.Text.Members

/-! Components that NBT can hold. NBT has 16 bits for the length of a string and 32
bits for the length of a list. A component whose members are below these bounds, and
whose parts that are NBT already are well formed, encodes to a well-formed tree. That an
element may stand in a compound is built up like every other property of the elements of a
layer: from its strings, its lists and the layers below. -/

namespace Zinc.Text

open Buffer Nbt Nbt.NBTElement

/-! ### What holds of all elements -/

/-- The texts that a layer brings with it. -/
def names : List String :=
  ["", "type", "text", "translatable", "score", "selector", "keybind", "nbt", "translate", "fallback",
    "with", "name", "objective", "separator", "source", "block", "entity", "storage", "interpret",
    "extra", "color", "font", "bold", "italic", "underlined", "strikethrough", "obfuscated",
    "insertion", "click_event", "action", "open_url", "open_file", "run_command", "suggest_command",
    "change_page", "copy_to_clipboard", "url", "path", "command", "page", "value", "hover_event",
    "show_text", "show_item", "show_entity", "id", "count", "components", "uuid"]

theorem ContentType.name_mem (type : ContentType) : type.name ∈ names := by cases type <;> decide

theorem NBTType.name_mem (type : NBTType) : type.name ∈ names := by cases type <;> decide

theorem ClickAction.name_mem (action : ClickAction) : action.name ∈ names := by
  cases action <;> decide

theorem HoverAction.name_mem (action : HoverAction) : action.name ∈ names := by
  cases action <;> decide

/-- `P` holds of the elements of a layer if `S` holds of its strings. -/
structure Admits (S : Bytes → Prop) (P : NBTElement → Prop) : Prop where
  name : ∀ name ∈ names, S (utf8 name)
  uuid : ∀ uuid, S (Uuids.toString uuid)
  string : ∀ tag value, S tag → S value → P (.string tag value)
  byte : ∀ tag value, S tag → P (.byte tag value)
  int : ∀ tag value, S tag → P (.int tag value)
  compound : ∀ tag elements, S tag → (∀ element ∈ elements, P element) → P (.compound tag elements)

section

theorem forall_mem_pair {α : Type} {p : α → Prop} {a b : α} : (∀ x ∈ [a, b], p x) ↔ p a ∧ p b := by
  rw [List.forall_mem_cons, List.forall_mem_singleton]

variable {S : Bytes → Prop} {P : NBTElement → Prop} {name : String}

namespace Admits

theorem named (h : Admits S P) (hname : name ∈ names) {value : Bytes} (hvalue : S value) :
    P (.string (utf8 name) value) := h.string _ _ (h.name _ hname) hvalue

theorem optionalString (h : Admits S P) (hname : name ∈ names) {value : Option Bytes}
    (hvalue : ∀ bytes ∈ value.toList, S bytes) : ∀ element ∈ optionalString name value, P element := by
  intro element hmem
  obtain ⟨bytes, hbytes, rfl⟩ := List.mem_map.mp hmem
  exact h.named hname (hvalue bytes hbytes)

theorem optionalFlag (h : Admits S P) (hname : name ∈ names) (value : Option Bool) :
    ∀ element ∈ optionalFlag name value, P element := by
  intro element hmem
  obtain ⟨value, -, rfl⟩ := List.mem_map.mp hmem
  exact h.byte _ _ (h.name _ hname)

/-- The elements of a list that is left out when it is empty. -/
theorem listElements {elements : List NBTElement} (hlist : P (.list (utf8 name) elements)) :
    ∀ element ∈ listElements name elements, P element := by
  unfold Text.listElements
  split
  · simp
  · simpa using hlist

theorem content (h : Admits S P) {content : Content NBTElement (List NBTElement)}
    (hstrings : ∀ bytes ∈ content.strings, S bytes)
    (hseparator : ∀ element ∈ content.separator, P element)
    (hlist : P (.list (utf8 "with") (content.texts.map (.compound [])))) :
    ∀ element ∈ content.elements, P element := by
  have hseparator : P (.compound (utf8 "separator") content.separator) :=
    h.compound _ _ (h.name _ (by decide)) hseparator
  cases content with
  | text value =>
    rw [Content.elements, List.forall_mem_singleton]
    exact h.named (by decide) (hstrings value (by simp [Content.strings]))
  | translatable translate fallback withTexts =>
    rw [Content.strings, forall_mem_pair] at hstrings
    rw [Content.elements, List.forall_mem_append, forall_mem_pair]
    exact ⟨⟨h.named (by decide) hstrings.1, h.named (by decide) hstrings.2⟩, listElements hlist⟩
  | score name objective =>
    rw [Content.strings, forall_mem_pair] at hstrings
    rw [Content.elements, List.forall_mem_singleton]
    refine h.compound _ _ (h.name _ (by decide)) ?_
    rw [forall_mem_pair]
    exact ⟨h.named (by decide) hstrings.1, h.named (by decide) hstrings.2⟩
  | selector value separator =>
    rw [Content.elements, forall_mem_pair]
    exact ⟨h.named (by decide) (hstrings value (by simp [Content.strings])), hseparator⟩
  | keybind value =>
    rw [Content.elements, List.forall_mem_singleton]
    exact h.named (by decide) (hstrings value (by simp [Content.strings]))
  | nbt source path value interpret separator =>
    rw [Content.strings, forall_mem_pair] at hstrings
    rw [Content.elements, List.forall_mem_append, List.forall_mem_append, List.forall_mem_cons,
      forall_mem_pair, List.forall_mem_singleton]
    exact ⟨⟨⟨h.named (by decide) (h.name _ source.name_mem), h.named source.name_mem hstrings.1,
      h.named (by decide) hstrings.2⟩, h.optionalFlag (by decide) interpret⟩, hseparator⟩

theorem click (h : Admits S P) {click : Click} (hstrings : ∀ bytes ∈ click.strings, S bytes) :
    P click.element := by
  refine h.compound _ _ (h.name _ (by decide)) ?_
  rw [forall_mem_pair]
  refine ⟨h.named (by decide) (h.name _ click.action.name_mem), ?_⟩
  cases click <;> unfold Click.payload
  case changePage => exact h.int _ _ (h.name _ (by decide))
  all_goals exact h.named (by decide) (hstrings _ List.mem_cons_self)

theorem hover (h : Admits S P) {hover : Hover NBTElement (List NBTElement)}
    (hstrings : ∀ bytes ∈ hover.strings, S bytes)
    (hlist : P (.list (utf8 "components") hover.item))
    (htexts : ∀ elements ∈ hover.texts, ∀ element ∈ elements, P element) : P hover.element := by
  have htext (name : String) (hname : name ∈ names) : ∀ elements ∈ hover.texts,
      P (.compound (utf8 name) elements) :=
    fun elements hmem => h.compound _ _ (h.name _ hname) (htexts elements hmem)
  refine h.compound _ _ (h.name _ (by decide)) ?_
  rw [List.forall_mem_cons]
  refine ⟨h.named (by decide) (h.name _ hover.action.name_mem), ?_⟩
  cases hover with
  | showText value =>
    cases value with
    | none =>
      rw [Hover.payload, List.forall_mem_singleton]
      exact h.named (by decide) (h.name "" (by decide))
    | some elements =>
      rw [Hover.payload, List.forall_mem_singleton]
      exact htext "value" (by decide) elements (by simp [Hover.texts])
  | showItem id count components =>
    simp only [Hover.payload, List.cons_append, List.forall_mem_cons, List.forall_mem_append,
      List.forall_mem_map]
    exact ⟨h.named (by decide) (hstrings _ List.mem_cons_self),
      fun count _ => h.int _ _ (h.name _ (by decide)), listElements hlist⟩
  | showEntity id name uuid =>
    simp only [Hover.payload, List.cons_append, List.forall_mem_cons, List.forall_mem_append,
      List.forall_mem_map]
    exact ⟨h.named (by decide) (hstrings _ List.mem_cons_self), htext "name" (by decide),
      fun uuid _ => h.named (by decide) (h.uuid uuid)⟩

/-- Every element of a layer. -/
theorem elements (h : Admits S P) {m : Members NBTElement NBTElement (List NBTElement)}
    (hstrings : ∀ bytes ∈ m.strings, S bytes) (hseparator : ∀ element ∈ m.separator, P element)
    (hlists : ∀ tag, S tag → ∀ texts ∈ m.lists, P (.list tag (texts.map (.compound []))))
    (hitem : ∀ tag, S tag → P (.list tag m.item))
    (htexts : ∀ elements ∈ m.texts, ∀ element ∈ elements, P element) :
    ∀ element ∈ m.elements, P element := by
  simp only [Members.strings, Style.strings, List.forall_mem_append,
    List.forall_mem_flatMap] at hstrings
  obtain ⟨⟨⟨hcontent, ⟨hcolor, hfont⟩, hinsertion⟩, hclick⟩, hhover⟩ := hstrings
  simp only [Members.elements, Members.pieces, List.flatten_cons, List.flatten_nil,
    List.forall_mem_append, List.forall_mem_singleton, List.forall_mem_map, List.not_mem_nil]
  refine ⟨h.named (by decide) (h.name _ m.content.type.name_mem), h.content hcontent hseparator ?_,
    listElements ?_, h.optionalString (by decide) hcolor, h.optionalString (by decide) hfont,
    h.optionalFlag (by decide) _, h.optionalFlag (by decide) _, h.optionalFlag (by decide) _,
    h.optionalFlag (by decide) _, h.optionalFlag (by decide) _,
    h.optionalString (by decide) hinsertion, fun click hmem => h.click (hclick click hmem),
    fun hover hmem => ?_, ?_⟩
  · exact hlists _ (h.name _ (by decide)) _ (by simp [Members.lists])
  · exact hlists _ (h.name _ (by decide)) _ (by simp [Members.lists])
  · have heq := Option.mem_toList.mp hmem
    refine h.hover (hhover hover hmem) ?_ fun elements helements => htexts elements ?_
    · simpa [Members.item, heq] using hitem _ (h.name "components" (by decide))
    · simp [Members.texts, heq, helements]
  · simp

/-- Every element of a component, if it holds of the elements of the nested ones. -/
theorem layer (h : Admits S P) {t : TextComponent} (hstrings : ∀ bytes ∈ t.members.strings, S bytes)
    (hseparator : ∀ element ∈ t.members.separator, P element)
    (hlists : ∀ tag, S tag → ∀ texts ∈ t.members.lists,
      (∀ text ∈ texts, ∀ element ∈ text.elements, P element) →
        P (.list tag ((texts.map TextComponent.elements).map (.compound []))))
    (hitem : ∀ tag, S tag → P (.list tag t.members.item))
    (htexts : ∀ text ∈ t.members.texts, ∀ element ∈ text.elements, P element) :
    ∀ element ∈ t.elements, P element := by
  rw [TextComponent.elements_eq]
  apply h.elements
  · rwa [Members.strings_map]
  · rwa [Members.separator_map, List.map_id]
  · intro tag htag texts hmem
    rw [Members.lists_map] at hmem
    obtain ⟨texts, hmem', rfl⟩ := List.mem_map.mp hmem
    exact hlists tag htag texts hmem' fun text htext =>
      htexts text (Members.mem_texts_of_mem_lists hmem' htext)
  · rwa [Members.item_map, List.map_id]
  · rwa [Members.texts_map, List.forall_mem_map]

end Admits

end

/-! ### Children -/

/-- A string that fits. -/
abbrev Short (bytes : Bytes) : Prop := bytes.length ≤ 65535

/-- An element that may stand in a compound. -/
def Child (element : NBTElement) : Prop := (tree element).WellFormed ∧ element.type ≠ .endTag

variable {tag : Bytes} {elements : List NBTElement}

theorem wellFormed_compound (htag : Short tag) (h : ∀ element ∈ elements, Child element) :
    (tree (compound tag elements)).WellFormed := by
  rw [tree_of_compound]
  apply Tree.WellFormed.compound htag
  · intro t ht
    rcases List.mem_map.mp ht with ⟨element, hmem, rfl⟩
    rw [tree_type]
    exact (h element hmem).2
  · intro t ht
    rcases List.mem_map.mp ht with ⟨element, hmem, rfl⟩
    exact (h element hmem).1

theorem child_string {value : Bytes} (htag : Short tag) (h : Short value) : Child (string tag value) :=
  ⟨.scalar htag h, by simp [string, blank]⟩

/-- A list may stand under any tag. -/
theorem child_list (htag : Short tag) (h : (tree (list [] elements)).WellFormed) :
    Child (list tag elements) := by
  refine ⟨?_, by simp [list, blank]⟩
  rw [tree_of_list] at h ⊢
  cases h with
  | list _ hlength htype hchildren => exact .list htag hlength htype hchildren

theorem admits_child : Admits Short Child where
  name := by decide +kernel
  uuid uuid := (Uuids.length_toString_le uuid).trans (by decide)
  string _ _ htag hvalue := child_string htag hvalue
  byte tag value htag := ⟨.scalar htag trivial, by simp [byte, blank]⟩
  int tag value htag := ⟨.scalar htag trivial, by simp [int, blank]⟩
  compound tag elements htag h := ⟨wellFormed_compound htag h, by simp [compound, blank]⟩

/-! ### Small components -/

namespace TextComponent

variable {t : TextComponent}

/-- The strings and lists that are written are below the bounds of NBT, here and in all
nested components, and what is NBT already is well formed. -/
inductive Small : TextComponent → Prop
  | intro {t : TextComponent} (hstrings : ∀ bytes ∈ t.members.strings, Short bytes)
      (hlists : ∀ texts ∈ t.members.lists, texts.length < 2 ^ 32)
      (hseparator : ∀ element ∈ t.members.separator, Child element)
      (hitem : (tree (list [] t.members.item)).WellFormed)
      (hnested : ∀ text ∈ t.members.texts, Small text) : Small t

/-- A list of encoded components. -/
theorem wellFormed_list {texts : List TextComponent} (hlength : texts.length < 2 ^ 32)
    (h : ∀ text ∈ texts, ∀ element ∈ text.elements, Child element) :
    (tree (list [] ((texts.map TextComponent.elements).map (compound [])))).WellFormed := by
  have hfirst : ∀ text ∈ texts,
      Tree.elementType (((texts.map TextComponent.elements).map (compound [])).map tree) =
        .compound := by
    intro text hmem
    cases texts with
    | nil => cases hmem
    | cons first rest => simp [Tree.elementType, Tree.type]
  rw [tree_of_list]
  apply Tree.WellFormed.list (Nat.zero_le _)
  · simpa using hlength
  · intro t ht
    simp only [List.map_map, List.mem_map, Function.comp_apply] at ht
    rcases ht with ⟨text, hmem, rfl⟩
    rw [hfirst text hmem]
    simp [Tree.type, Tree.tag]
  · intro t ht
    simp only [List.map_map, List.mem_map, Function.comp_apply] at ht
    rcases ht with ⟨text, hmem, rfl⟩
    exact wellFormed_compound (Nat.zero_le _) (h text hmem)

theorem Small.child (h : t.Small) : ∀ element ∈ t.elements, Child element := by
  induction h with
  | intro hstrings hlists hseparator hitem _ ih =>
    refine admits_child.layer hstrings hseparator (fun tag htag texts hmem hchild => ?_)
      (fun tag htag => child_list htag hitem) ih
    exact child_list htag (wellFormed_list (hlists texts hmem) hchild)

/-- A small component encodes to a tree that the format can hold. -/
theorem Small.wellFormed (h : t.Small) : (tree t.encode).WellFormed := by
  rw [encode_eq_compound]
  exact wellFormed_compound (Nat.zero_le _) h.child

end TextComponent

end Zinc.Text
