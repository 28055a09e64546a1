import Zinc.Base.Pieces
import Zinc.Nbt.RoundTrip
import Zinc.Text.Members

/-! Layers are told apart by their elements. What is seen of an element may be its tree or less
than that, as long as its tag, strings, flags and integers are seen, and elements below it one by
one. Then the elements of two layers look the same exactly if the layers have the same members,
and from layer to layer, two components look the same exactly if what they write does. -/

namespace Zinc.Text

open Buffer Nbt NBTElement Pieces

variable {N E : Type} {φ : NBTElement → N} {ε : NBTElement → E}

/-! ### What is seen -/

/-- What is seen of an element under its tag, and in a list. -/
structure Sees (φ : NBTElement → N) (ε : NBTElement → E) where
  tag : N → Bytes
  tag_eq : ∀ element, tag (φ element) = element.tag
  string : ∀ {tag value value'}, φ (.string tag value) = φ (.string tag value') ↔ value = value'
  flag : ∀ {tag value value'}, φ (.byte tag (Text.flag value)) = φ (.byte tag (Text.flag value')) ↔
    value = value'
  int : ∀ {tag value value'}, φ (.int tag value) = φ (.int tag value') ↔ value = value'
  list : ∀ {tag elements elements'}, elements ≠ [] → elements' ≠ [] →
    (φ (.list tag elements) = φ (.list tag elements') ↔ elements.map ε = elements'.map ε)
  compound : ∀ {tag elements elements'}, φ (.compound tag elements) = φ (.compound tag elements') ↔
    elements.map φ = elements'.map φ
  element : ∀ {elements elements'}, ε (.compound [] elements) = ε (.compound [] elements') ↔
    elements.map φ = elements'.map φ
  string_ne : ∀ {tag tag' value elements}, φ (.string tag value) ≠ φ (.compound tag' elements)

namespace Sees

variable (hs : Sees φ ε)

theorem optional {α δ : Type} (f : α → NBTElement) (g : α → δ)
    (h : ∀ a a', φ (f a) = φ (f a') ↔ g a = g a') (o o' : Option α) :
    (o.toList.map f).map φ = (o'.toList.map f).map φ ↔ o.map g = o'.map g := by
  cases o <;> cases o' <;> simp [h]

theorem optional_eq {α : Type} (f : α → NBTElement) (h : ∀ a a', φ (f a) = φ (f a') ↔ a = a')
    (o o' : Option α) : (o.toList.map f).map φ = (o'.toList.map f).map φ ↔ o = o' := by
  rw [optional f id h, Option.map_id, id, id]

include hs

theorem optionalString {name : String} (value value' : Option Bytes) :
    (optionalString name value).map φ = (optionalString name value').map φ ↔ value = value' :=
  optional_eq _ (fun _ _ => hs.string) value value'

theorem optionalFlag {name : String} (value value' : Option Bool) :
    (optionalFlag name value).map φ = (optionalFlag name value').map φ ↔ value = value' :=
  optional_eq _ (fun _ _ => hs.flag) value value'

theorem listElements {name : String} (elements elements' : List NBTElement) :
    (listElements name elements).map φ = (listElements name elements').map φ ↔
      elements.map ε = elements'.map ε := by
  cases elements <;> cases elements' <;> simp [Text.listElements, hs.list (List.cons_ne_nil _ _)]

/-- Nested components in a list. -/
theorem nested {name : String} (texts texts' : List (List NBTElement)) :
    (Text.listElements name (texts.map (.compound []))).map φ =
        (Text.listElements name (texts'.map (.compound []))).map φ ↔
      texts.map (List.map φ) = texts'.map (List.map φ) := by
  rw [hs.listElements]
  simp only [← List.forall₂_eq_eq_eq, List.forall₂_map_left_iff, List.forall₂_map_right_iff, hs.element]

/-- Elements of two tags, one behind the other. -/
theorem append {a b : Bytes} (hne : b ≠ a) {as bs as' bs' : List NBTElement}
    (has : ∀ x ∈ as, x.tag = a) (has' : ∀ x ∈ as', x.tag = a) (hbs : ∀ x ∈ bs, x.tag = b)
    (hbs' : ∀ x ∈ bs', x.tag = b) : (as ++ bs).map φ = (as' ++ bs').map φ ↔
      as.map φ = as'.map φ ∧ bs.map φ = bs'.map φ := by
  have hall {as : List NBTElement} (has : ∀ x ∈ as, x.tag = a) : ∀ y ∈ as.map φ, hs.tag y = a := by
    simpa [hs.tag_eq] using has
  have hstop {bs : List NBTElement} (hbs : ∀ x ∈ bs, x.tag = b) :
      ∀ y ∈ (bs.map φ).head?, hs.tag y ≠ a := by
    intro y hy
    obtain ⟨x, hx, rfl⟩ := List.mem_map.mp (List.mem_of_mem_head? hy)
    rwa [hs.tag_eq, hbs x hx]
  rw [List.map_append, List.map_append]
  refine ⟨append_inj_of_stop (hall has) (hall has') (hstop hbs) (hstop hbs'), ?_⟩
  rintro ⟨ha, hb⟩
  rw [ha, hb]

end Sees

/-! ### Names -/

theorem ContentType.name_inj {type type' : ContentType} : type.name = type'.name ↔ type = type' := by
  cases type <;> cases type' <;> simp [name]

theorem NBTType.name_inj {type type' : NBTType} : type.name = type'.name ↔ type = type' := by
  cases type <;> cases type' <;> simp [name]

theorem ClickAction.name_inj {action action' : ClickAction} :
    action.name = action'.name ↔ action = action' := by
  cases action <;> cases action' <;> simp [name]

theorem HoverAction.name_inj {action action' : HoverAction} :
    action.name = action'.name ↔ action = action' := by
  cases action <;> cases action' <;> simp [name]

/-! ### The pieces of a layer -/

theorem Content.elements_iff (hs : Sees φ ε) (c c' : Content NBTElement (List NBTElement)) :
    c.type = c'.type ∧ c.elements.map φ = c'.elements.map φ ↔
      c.map φ (List.map φ) = c'.map φ (List.map φ) := by
  cases c <;> cases c' <;> simp [type, elements, map, hs.string, hs.compound, hs.nested]
  case nbt.nbt source path value interpret separator source' path' value' interpret' separator' =>
    rw [NBTType.name_inj, hs.optionalFlag]
    constructor
    · rintro ⟨rfl, hpath, h⟩
      exact ⟨rfl, hs.string.mp hpath, h⟩
    · rintro ⟨rfl, rfl, h⟩
      exact ⟨rfl, rfl, h⟩

theorem Click.element_iff (hs : Sees φ ε) (c c' : Click) : φ c.element = φ c'.element ↔ c = c' := by
  cases c <;> cases c' <;>
    simp [element, action, payload, hs.compound, hs.string, hs.int, ClickAction.name_inj]

theorem tag_of_mem_map {α : Type} (name : String) (f : α → NBTElement)
    (hf : ∀ a, (f a).tag = utf8 name) (l : List α) : ∀ x ∈ l.map f, x.tag = utf8 name := by
  intro x hx
  obtain ⟨a, -, rfl⟩ := List.mem_map.mp hx
  exact hf a

theorem tag_of_mem_listElements {name : String} {elements : List NBTElement} :
    ∀ x ∈ listElements name elements, x.tag = utf8 name := by
  unfold listElements
  split <;> simp [list]

theorem Hover.element_iff (hs : Sees φ ε) (h h' : Hover NBTElement (List NBTElement)) :
    φ h.element = φ h'.element ↔ h.map ε (List.map φ) = h'.map ε (List.map φ) := by
  have hne : utf8 "components" ≠ utf8 "count" ∧ utf8 "uuid" ≠ utf8 "name" := by
    simp only [ne_eq, utf8_inj]
    decide
  cases h <;> cases h' <;>
    simp [element, action, map, hs.compound, hs.string, HoverAction.name_inj]
  case showText.showText value value' =>
    cases value <;> cases value' <;> simp [payload, hs.compound, hs.string_ne, hs.string_ne.symm]
  case showItem.showItem id count components id' count' components' =>
    have htags := tag_of_mem_map "count" (.int (utf8 "count")) fun _ => rfl
    have hcount := Sees.optional_eq (.int (utf8 "count")) (fun _ _ => hs.int) count count'
    rw [payload, payload, List.cons_append, List.cons_append, List.map_cons, List.map_cons,
      List.cons.injEq, hs.string, hs.append hne.1 (htags _) (htags _) tag_of_mem_listElements
        tag_of_mem_listElements, hs.listElements, hcount]
  case showEntity.showEntity id name uuid id' name' uuid' =>
    have htags := tag_of_mem_map "name" (.compound (utf8 "name")) fun _ => rfl
    have htags' := tag_of_mem_map "uuid" (fun uuid => .string (utf8 "uuid") (Uuids.toString uuid))
      fun _ => rfl
    have hname := Sees.optional (.compound (utf8 "name")) (List.map φ) (fun _ _ => hs.compound) name
      name'
    have huuid := Sees.optional_eq (fun uuid => .string (utf8 "uuid") (Uuids.toString uuid))
      (fun _ _ => hs.string.trans Uuids.toString_inj) uuid uuid'
    rw [payload, payload, List.cons_append, List.cons_append, List.map_cons, List.map_cons,
      List.cons.injEq, hs.string, hs.append hne.2 (htags _) (htags _) (htags' _) (htags' _), hname,
      huuid]

/-- The tags of the pieces. -/
def tags : List (List String) :=
  [["type"], ["text", "translate", "fallback", "with", "score", "selector", "separator", "keybind",
      "source", "block", "entity", "storage", "nbt", "interpret"],
    ["extra"], ["color"], ["font"], ["bold"], ["italic"], ["underlined"], ["strikethrough"],
    ["obfuscated"], ["insertion"], ["click_event"], ["hover_event"]]

/-- The piece that a tag belongs to. -/
def rank (tag : Bytes) : ℕ := tags.findIdx fun names => ∃ name ∈ names, utf8 name = tag

theorem rank_utf8 (name : String) : rank (utf8 name) = tags.findIdx (name ∈ ·) := by
  simp [rank, utf8_inj]

theorem Content.rank_elements (c : Content NBTElement (List NBTElement)) :
    ∀ x ∈ c.elements, rank x.tag = 1 := by
  have hrank (name : String) (h : tags.findIdx (name ∈ ·) = 1) : rank (utf8 name) = 1 :=
    (rank_utf8 name).trans h
  have hlist (elements : List NBTElement) : ∀ x ∈ listElements "with" elements, rank x.tag = 1 := by
    intro x hx
    rw [tag_of_mem_listElements x hx]
    exact hrank "with" rfl
  have hflag (value : Option Bool) : ∀ x ∈ optionalFlag "interpret" value, rank x.tag = 1 := by
    intro x hx
    rw [tag_of_mem_map "interpret" _ (fun _ => rfl) _ x hx]
    exact hrank "interpret" rfl
  cases c with
  | text value =>
    rw [elements, List.forall_mem_singleton]
    exact hrank "text" rfl
  | translatable translate fallback withTexts =>
    rw [elements, List.forall_mem_append, List.forall_mem_cons, List.forall_mem_singleton]
    exact ⟨⟨hrank "translate" rfl, hrank "fallback" rfl⟩, hlist _⟩
  | score name objective =>
    rw [elements, List.forall_mem_singleton]
    exact hrank "score" rfl
  | selector value separator =>
    rw [elements, List.forall_mem_cons, List.forall_mem_singleton]
    exact ⟨hrank "selector" rfl, hrank "separator" rfl⟩
  | keybind value =>
    rw [elements, List.forall_mem_singleton]
    exact hrank "keybind" rfl
  | nbt source path value interpret separator =>
    have hsource : rank (utf8 source.name) = 1 := by cases source <;> exact hrank _ rfl
    rw [elements, List.forall_mem_append, List.forall_mem_append, List.forall_mem_cons,
      List.forall_mem_cons, List.forall_mem_singleton, List.forall_mem_singleton]
    exact ⟨⟨⟨hrank "source" rfl, hsource, hrank "nbt" rfl⟩, hflag _⟩, hrank "separator" rfl⟩

/-- The pieces of a layer are told apart by their tags. -/
theorem Members.ranked (hs : Sees φ ε) (m : Members NBTElement NBTElement (List NBTElement)) :
    Ranked (fun y => rank (hs.tag y)) 0 (m.pieces.map (List.map φ)) := by
  have hpiece {n : ℕ} {piece : List NBTElement} (h : ∀ x ∈ piece, rank x.tag = n) :
      ∀ y ∈ piece.map φ, rank (hs.tag y) = n := by
    simpa [hs.tag_eq] using h
  have hname {n : ℕ} {piece : List NBTElement} (name : String)
      (h : ∀ x ∈ piece, x.tag = utf8 name) (hn : tags.findIdx (name ∈ ·) = n) :
      ∀ y ∈ piece.map φ, rank (hs.tag y) = n :=
    hpiece fun x hx => by rw [h x hx, rank_utf8, hn]
  have hoptional {n : ℕ} {α : Type} (name : String) (f : α → NBTElement)
      (hf : ∀ a, (f a).tag = utf8 name) (o : Option α) (hn : tags.findIdx (name ∈ ·) = n) :
      ∀ y ∈ (o.toList.map f).map φ, rank (hs.tag y) = n :=
    hname name (tag_of_mem_map name f hf o.toList) hn
  -- One piece for each rank, so that an empty one is noticed as well.
  exact .cons (hname "type" (by simp [NBTElement.string]) rfl) <|
    .cons (hpiece m.content.rank_elements) <| .cons (hname "extra" tag_of_mem_listElements rfl) <|
    .cons (hoptional "color" _ (fun _ => rfl) _ rfl) <|
    .cons (hoptional "font" _ (fun _ => rfl) _ rfl) <|
    .cons (hoptional "bold" _ (fun _ => rfl) _ rfl) <|
    .cons (hoptional "italic" _ (fun _ => rfl) _ rfl) <|
    .cons (hoptional "underlined" _ (fun _ => rfl) _ rfl) <|
    .cons (hoptional "strikethrough" _ (fun _ => rfl) _ rfl) <|
    .cons (hoptional "obfuscated" _ (fun _ => rfl) _ rfl) <|
    .cons (hoptional "insertion" _ (fun _ => rfl) _ rfl) <|
    .cons (hoptional "click_event" _ (fun _ => rfl) _ rfl) <|
    .cons (hoptional "hover_event" _ (fun _ => rfl) _ rfl) .nil

/-- Layers look the same exactly if their members do. -/
theorem Members.elements_iff (hs : Sees φ ε)
    (m m' : Members NBTElement NBTElement (List NBTElement)) :
    m.elements.map φ = m'.elements.map φ ↔ m.map φ ε (List.map φ) = m'.map φ ε (List.map φ) := by
  have hclick := Sees.optional_eq Click.element (fun c c' => Click.element_iff hs c c') m.click
    m'.click
  have hhover := Sees.optional Hover.element (Hover.map ε (List.map φ))
    (fun h h' => Hover.element_iff hs h h') m.hover m'.hover
  have htype : φ (.string (utf8 "type") (utf8 m.content.type.name)) =
      φ (.string (utf8 "type") (utf8 m'.content.type.name)) ↔ m.content.type = m'.content.type := by
    rw [hs.string, utf8_inj, ContentType.name_inj]
  have hstyle : m.style = m'.style ↔ m.style.color = m'.style.color ∧ m.style.font = m'.style.font ∧
      m.style.bold = m'.style.bold ∧ m.style.italic = m'.style.italic ∧
      m.style.underlined = m'.style.underlined ∧ m.style.strikethrough = m'.style.strikethrough ∧
      m.style.obfuscated = m'.style.obfuscated ∧ m.style.insertion = m'.style.insertion := by
    cases m.style
    cases m'.style
    simp
  rw [elements, elements, List.map_flatten, List.map_flatten,
    (m.ranked hs).flatten_inj (m'.ranked hs) rfl]
  simp only [pieces, List.map_cons, List.map_nil, List.cons.injEq, and_true, htype, hs.nested,
    hs.optionalString, hs.optionalFlag, hclick, hhover, map, Members.mk.injEq, hstyle,
    ← Content.elements_iff hs]
  tauto

/-! ### From layer to layer -/

theorem map_eq_iff_of_mem {T U V : Type} {h : T → U} {k : T → V} {l l' : List T}
    (hl : ∀ x ∈ l, ∀ x', h x = h x' ↔ k x = k x') : l.map h = l'.map h ↔ l.map k = l'.map k := by
  induction l generalizing l' with
  | nil => cases l' <;> simp
  | cons x l ih =>
    cases l' with
    | nil => simp
    | cons x' l' =>
      rw [List.map_cons, List.map_cons, List.map_cons, List.map_cons, List.cons.injEq,
        List.cons.injEq, hl x List.mem_cons_self x', ih fun y hy => hl y (List.mem_cons_of_mem x hy)]

theorem option_map_eq_iff {T U V : Type} {h : T → U} {k : T → V} {o o' : Option T}
    (ho : ∀ x ∈ o, ∀ x', h x = h x' ↔ k x = k x') : o.map h = o'.map h ↔ o.map k = o'.map k := by
  cases o with
  | none => cases o' <;> simp
  | some x => cases o' <;> simp [ho x rfl]

section

variable {β β' γ γ' T U V : Type} {f : β → β'} {g : γ → γ'} {h : T → U} {k : T → V}

theorem Content.map_iff {c c' : Content β T} (hc : ∀ x ∈ c.texts, ∀ x', h x = h x' ↔ k x = k x') :
    c.map f h = c'.map f h ↔ c.map f k = c'.map f k := by
  cases c with
  | translatable translate fallback withTexts =>
    rw [texts] at hc
    cases c' with
    | translatable translate' fallback' withTexts' =>
      rw [map, map, map, map, translatable.injEq, translatable.injEq, map_eq_iff_of_mem hc]
    | _ => simp [map]
  | _ => cases c' <;> simp [map]

theorem Hover.map_iff {c c' : Hover γ T} (hc : ∀ x ∈ c.texts, ∀ x', h x = h x' ↔ k x = k x') :
    c.map g h = c'.map g h ↔ c.map g k = c'.map g k := by
  cases c with
  | showText value =>
    cases c' with
    | showText value' =>
      rw [map, map, map, map, showText.injEq, showText.injEq]
      exact option_map_eq_iff (by simpa [texts] using hc)
    | _ => simp [map]
  | showItem id count components => cases c' <;> simp [map]
  | showEntity id name uuid =>
    cases c' with
    | showEntity id' name' uuid' =>
      rw [map, map, map, map, showEntity.injEq, showEntity.injEq,
        option_map_eq_iff (by simpa [texts] using hc)]
    | _ => simp [map]

/-- What is the same in one form is the same in another if that is so of the nested components. -/
theorem Members.map_iff {m m' : Members β γ T}
    (hnested : ∀ x ∈ m.texts, ∀ x', h x = h x' ↔ k x = k x') :
    m.map f g h = m'.map f g h ↔ m.map f g k = m'.map f g k := by
  simp only [Members.texts, List.forall_mem_append, List.forall_mem_flatMap,
    Option.mem_toList] at hnested
  obtain ⟨⟨hcontent, hextra⟩, hhover⟩ := hnested
  have hevent : m.hover.map (Hover.map g h) = m'.hover.map (Hover.map g h) ↔
      m.hover.map (Hover.map g k) = m'.hover.map (Hover.map g k) :=
    option_map_eq_iff fun event hevent event' => Hover.map_iff (hhover event hevent)
  simp only [map, Members.mk.injEq]
  rw [Content.map_iff hcontent, map_eq_iff_of_mem hextra, hevent]

end

/-- Two components look the same exactly if what they write does. -/
theorem TextComponent.written_iff (hs : Sees φ ε) (t : TextComponent) : ∀ t' : TextComponent,
    t.elements.map φ = t'.elements.map φ ↔ t.written φ ε = t'.written φ ε := by
  induction t using nestedInduction with
  | h t ih =>
    intro t'
    rw [elements_eq, elements_eq, Members.elements_iff hs, written_eq, written_eq, Written.mk.injEq,
      Members.map_map, Members.map_map]
    exact Members.map_iff ih

end Zinc.Text
