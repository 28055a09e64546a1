import Zinc.Text.Component

/-! The members of a component that are written. A component has room for every content and an
event for every action; the types decide which of them `encode` writes, and it puts defaults
where nothing is set. What is left is one layer of members over the nested components:
`encode` is the layer's elements over the encoded components, in a fixed order. The elements of
separators and the components of items are NBT already. -/

namespace Zinc.Text

open Buffer Nbt NBTElement

variable {β β' γ γ' T T' T'' : Type}

/-! ### Members -/

/-- A content, over the elements of separators. -/
inductive Content (β T : Type) where
  | text (text : Bytes)
  | translatable (translate fallback : Bytes) (withTexts : List T)
  | score (name objective : Bytes)
  | selector (selector : Bytes) (separator : List β)
  | keybind (keybind : Bytes)
  | nbt (source : NBTType) (path nbt : Bytes) (interpret : Option Bool) (separator : List β)

structure Style where
  color : Option Bytes
  font : Option Bytes
  bold : Option Bool
  italic : Option Bool
  underlined : Option Bool
  strikethrough : Option Bool
  obfuscated : Option Bool
  insertion : Option Bytes

/-- A click event. -/
inductive Click where
  | openURL (url : Bytes)
  | openFile (path : Bytes)
  | runCommand (command : Bytes)
  | suggestCommand (command : Bytes)
  | changePage (page : BitVec 32)
  | copyToClipboard (value : Bytes)

/-- A hover event, over the components of items. -/
inductive Hover (γ T : Type) where
  | showText (value : Option T)
  | showItem (id : Bytes) (count : Option (BitVec 32)) (components : List γ)
  | showEntity (id : Bytes) (name : Option T) (uuid : Option UUID)

/-- One layer of a component. -/
structure Members (β γ T : Type) where
  content : Content β T
  extra : List T
  style : Style
  click : Option Click
  hover : Option (Hover γ T)

/-- Layer by layer. -/
inductive Written (β γ : Type) where
  | mk (members : Members β γ (Written β γ))

def Content.map (f : β → β') (h : T → T') : Content β T → Content β' T'
  | text value => text value
  | translatable translate fallback withTexts => translatable translate fallback (withTexts.map h)
  | score name objective => score name objective
  | selector value separator => selector value (separator.map f)
  | keybind value => keybind value
  | nbt source path value interpret separator => nbt source path value interpret (separator.map f)

def Hover.map (g : γ → γ') (h : T → T') : Hover γ T → Hover γ' T'
  | showText value => showText (value.map h)
  | showItem id count components => showItem id count (components.map g)
  | showEntity id name uuid => showEntity id (name.map h) uuid

def Members.map (f : β → β') (g : γ → γ') (h : T → T') (m : Members β γ T) : Members β' γ' T' :=
  ⟨m.content.map f h, m.extra.map h, m.style, m.click, m.hover.map (Hover.map g h)⟩

@[simp] theorem Content.map_id (content : Content β T) : content.map id id = content := by
  cases content <;> simp [map]

@[simp] theorem Hover.map_id (hover : Hover γ T) : hover.map id id = hover := by
  cases hover <;> simp [map]

@[simp] theorem Members.map_id (m : Members β γ T) : m.map id id id = m := by
  have hhover : (Hover.map id id : Hover γ T → Hover γ T) = id := funext Hover.map_id
  simp [map, hhover]

theorem Members.map_map {β'' γ'' : Type} (f : β → β') (g : γ → γ') (h : T → T') (f' : β' → β'')
    (g' : γ' → γ'') (h' : T' → T'') (m : Members β γ T) :
    (m.map f g h).map f' g' h' = m.map (f' ∘ f) (g' ∘ g) (h' ∘ h) := by
  have hcontent (content : Content β T) :
      (content.map f h).map f' h' = content.map (f' ∘ f) (h' ∘ h) := by
    cases content <;> simp [Content.map]
  have hhover (hover : Hover γ T) : (hover.map g h).map g' h' = hover.map (g' ∘ g) (h' ∘ h) := by
    cases hover <;> simp [Hover.map]
  cases m with
  | mk content extra style click hover =>
    simp only [map, hcontent, List.map_map, Option.map_map, Members.mk.injEq, true_and]
    exact congrArg (Option.map · hover) (funext hhover)

/-! ### The members of a component -/

/-- The separator of a selector and of NBT. -/
def separatorElements (separator : Option NBTElement) : List NBTElement :=
  (separator.getD defaultSeparator).childElements

/-- The text under the type of the source. -/
def NBT.sourcePath (nbt : NBT) : Bytes :=
  match nbt.sourceType with
  | .block => nbt.block.getD []
  | .entity => nbt.entity.getD []
  | .storage => nbt.storage.getD []

def ClickEvent.click (event : ClickEvent) : Click :=
  match event.actionType with
  | .openURL => .openURL (event.url.getD (utf8 "www.example.com"))
  | .openFile => .openFile (event.path.getD [])
  | .runCommand => .runCommand (event.command.getD (utf8 "/say hi"))
  | .suggestCommand => .suggestCommand (event.command.getD (utf8 "/say hi"))
  | .changePage => .changePage (event.page.getD 0)
  | .copyToClipboard => .copyToClipboard (event.value.getD [])

/-- With the text and the name in another form. -/
def HoverEvent.hover (event : HoverEvent T) (value name : Option T') : Hover NBTElement T' :=
  match event.actionType with
  | .showText => .showText value
  | .showItem =>
    let item := event.showItem.getD .new
    .showItem item.id item.count (item.components.getD [])
  | .showEntity =>
    let entity := event.showEntity.getD .new
    .showEntity entity.id name entity.uuid

theorem HoverEvent.map_hover {event : HoverEvent T} (g : NBTElement → γ) (h : T' → T'')
    (value name : Option T') :
    (event.hover value name).map g h = (event.hover (value.map h) (name.map h)).map g id := by
  unfold HoverEvent.hover
  cases event.actionType <;> simp [Hover.map]

namespace TextComponent

variable (t : TextComponent)

/-- With the components of a translation in another form. -/
def content (withTexts : List T) : Content NBTElement T :=
  match t.contentType with
  | .text => .text (t.text.getD [])
  | .translatable =>
    let translatable := t.translatable.getD .new
    .translatable translatable.translate (translatable.fallback.getD (utf8 "nil")) withTexts
  | .score =>
    let score := t.score.getD .new
    .score score.name score.objective
  | .selector =>
    let selector := t.selector.getD .new
    .selector selector.selector (separatorElements selector.separator)
  | .keybind => .keybind (t.keybind.getD (utf8 "key.inventory"))
  | .nbt =>
    let nbt := t.nbt.getD .new
    .nbt nbt.sourceType nbt.sourcePath nbt.nbt nbt.interpret (separatorElements nbt.separator)

def style : Style :=
  ⟨t.color, t.font, t.bold, t.italic, t.underlined, t.strikethrough, t.obfuscated, t.insertion⟩

/-- The layer with the nested components in another form. -/
def membersOf (withTexts extra : List T) (value name : Option T) : Members NBTElement NBTElement T :=
  ⟨t.content withTexts, extra, t.style, t.clickEvent.map ClickEvent.click,
    t.hoverEvent.map fun event => event.hover value name⟩

/-- The components of a translation. -/
def withTexts : List TextComponent :=
  match t.translatable with
  | some ⟨_, _, some texts⟩ => texts
  | _ => []

/-- The text of a hover event. -/
def hoverValue : Option TextComponent :=
  t.hoverEvent.bind fun event => event.value.bind List.head?

/-- The name in a hover event. -/
def hoverName : Option TextComponent :=
  t.hoverEvent.bind fun event => event.showEntity.bind fun entity => entity.name.bind List.head?

def members : Members NBTElement NBTElement TextComponent :=
  t.membersOf t.withTexts t.extra t.hoverValue t.hoverName

variable {t}

theorem map_membersOf (f : NBTElement → β) (g : NBTElement → γ) (h : T → T') (withTexts extra : List T)
    (value name : Option T) : (t.membersOf withTexts extra value name).map f g h =
      (t.membersOf (withTexts.map h) (extra.map h) (value.map h) (name.map h)).map f g id := by
  unfold membersOf Members.map content
  congr 1
  · cases t.contentType <;> simp [Content.map]
  · simp
  · cases t.hoverEvent with
    | none => rfl
    | some event => exact congrArg some (HoverEvent.map_hover g h value name)

mutual

/-- The members of a component and of all components in it. -/
def written (f : NBTElement → β) (g : NBTElement → γ) : TextComponent → Written β γ
  | t@⟨_, _, translatable, _, _, _, _, _, _, _, _, _, _, _, extra, _, _, hoverEvent⟩ =>
    let withTexts :=
      match translatable with
      | some ⟨_, _, some texts⟩ => writtenAll f g texts
      | _ => []
    let value :=
      match hoverEvent with
      | some ⟨_, some texts, _, _⟩ => (writtenAll f g texts).head?
      | _ => none
    let name :=
      match hoverEvent with
      | some ⟨_, _, _, some ⟨some texts, _, _⟩⟩ => (writtenAll f g texts).head?
      | _ => none
    .mk ((t.membersOf withTexts (writtenAll f g extra) value name).map f g id)

def writtenAll (f : NBTElement → β) (g : NBTElement → γ) : List TextComponent → List (Written β γ)
  | [] => []
  | text :: texts => written f g text :: writtenAll f g texts

end

theorem writtenAll_eq_map (f : NBTElement → β) (g : NBTElement → γ) (texts : List TextComponent) :
    writtenAll f g texts = texts.map (written f g) := by
  induction texts with
  | nil => rfl
  | cons text texts ih => rw [writtenAll, ih, List.map_cons]

theorem head?_writtenAll (f : NBTElement → β) (g : NBTElement → γ) (texts : List TextComponent) :
    (writtenAll f g texts).head? = texts.head?.map (written f g) := by
  cases texts <;> rfl

theorem written_eq (f : NBTElement → β) (g : NBTElement → γ) (t : TextComponent) :
    t.written f g = .mk (t.members.map f g (written f g)) := by
  rw [members, map_membersOf, ← writtenAll_eq_map, ← writtenAll_eq_map]
  rcases t with ⟨_, _, translatable, _, _, _, _, _, _, _, _, _, _, _, _, _, _, hoverEvent⟩
  rcases translatable with _ | ⟨_, _, _ | _⟩ <;>
    rcases hoverEvent with _ | ⟨_, _ | value, _, _ | ⟨_ | name, _, _⟩⟩ <;>
    simp only [hoverValue, hoverName, Option.bind_some, Option.bind_none, ← head?_writtenAll,
      Option.map_none] <;> rfl

end TextComponent

/-! ### Elements -/

def NBTType.name : NBTType → String
  | block => "block"
  | entity => "entity"
  | storage => "storage"

def Content.type : Content β T → ContentType
  | text _ => .text
  | translatable _ _ _ => .translatable
  | score _ _ => .score
  | selector _ _ => .selector
  | keybind _ => .keybind
  | nbt _ _ _ _ _ => .nbt

/-- The elements of a content, over those of the nested components. -/
def Content.elements : Content NBTElement (List NBTElement) → List NBTElement
  | text value => [.string (utf8 "text") value]
  | translatable translate fallback withTexts =>
    [.string (utf8 "translate") translate, .string (utf8 "fallback") fallback] ++
      listElements "with" (withTexts.map (.compound []))
  | score name objective =>
    [.compound (utf8 "score") [.string (utf8 "name") name, .string (utf8 "objective") objective]]
  | selector value separator =>
    [.string (utf8 "selector") value, .compound (utf8 "separator") separator]
  | keybind value => [.string (utf8 "keybind") value]
  | nbt source path value interpret separator =>
    [.string (utf8 "source") (utf8 source.name), .string (utf8 source.name) path,
      .string (utf8 "nbt") value] ++ optionalFlag "interpret" interpret ++
      [.compound (utf8 "separator") separator]

def Click.action : Click → ClickAction
  | openURL _ => .openURL
  | openFile _ => .openFile
  | runCommand _ => .runCommand
  | suggestCommand _ => .suggestCommand
  | changePage _ => .changePage
  | copyToClipboard _ => .copyToClipboard

def Click.payload : Click → NBTElement
  | openURL url => .string (utf8 "url") url
  | openFile path => .string (utf8 "path") path
  | runCommand command => .string (utf8 "command") command
  | suggestCommand command => .string (utf8 "command") command
  | changePage page => .int (utf8 "page") page
  | copyToClipboard value => .string (utf8 "value") value

def Click.element (click : Click) : NBTElement :=
  .compound (utf8 "click_event") [.string (utf8 "action") (utf8 click.action.name), click.payload]

def Hover.action : Hover γ T → HoverAction
  | showText _ => .showText
  | showItem _ _ _ => .showItem
  | showEntity _ _ _ => .showEntity

def Hover.payload : Hover NBTElement (List NBTElement) → List NBTElement
  | showText (some elements) => [.compound (utf8 "value") elements]
  | showText none => [.string (utf8 "value") []]
  | showItem id count components =>
    .string (utf8 "id") id :: count.toList.map (.int (utf8 "count")) ++
      listElements "components" components
  | showEntity id name uuid =>
    .string (utf8 "id") id :: name.toList.map (.compound (utf8 "name")) ++
      uuid.toList.map fun uuid => .string (utf8 "uuid") (Uuids.toString uuid)

def Hover.element (hover : Hover NBTElement (List NBTElement)) : NBTElement :=
  .compound (utf8 "hover_event")
    (.string (utf8 "action") (utf8 hover.action.name) :: hover.payload)

namespace Members

/-- The elements of a layer, piece by piece. -/
def pieces (m : Members NBTElement NBTElement (List NBTElement)) : List (List NBTElement) :=
  [[.string (utf8 "type") (utf8 m.content.type.name)], m.content.elements,
    listElements "extra" (m.extra.map (.compound [])), optionalString "color" m.style.color,
    optionalString "font" m.style.font, optionalFlag "bold" m.style.bold,
    optionalFlag "italic" m.style.italic, optionalFlag "underlined" m.style.underlined,
    optionalFlag "strikethrough" m.style.strikethrough, optionalFlag "obfuscated" m.style.obfuscated,
    optionalString "insertion" m.style.insertion, m.click.toList.map Click.element,
    m.hover.toList.map Hover.element]

def elements (m : Members NBTElement NBTElement (List NBTElement)) : List NBTElement :=
  m.pieces.flatten

end Members

/-- The elements of a component. -/
def TextComponent.elements (t : TextComponent) : List NBTElement := t.encode.childElements

theorem TextComponent.encode_eq_compound (t : TextComponent) : t.encode = compound [] t.elements := by
  rw [elements, encode_eq]
  rfl

theorem NBT.sourceElements_eq (nbt : NBT) : nbt.sourceElements =
    [.string (utf8 "source") (utf8 nbt.sourceType.name),
      .string (utf8 nbt.sourceType.name) nbt.sourcePath] := by
  unfold sourceElements sourcePath
  cases nbt.sourceType <;> rfl

theorem ClickEvent.encode_eq (event : ClickEvent) : event.encode = event.click.element := by
  unfold encode Click.element payload click
  cases event.actionType <;> rfl

theorem HoverEvent.encode_eq (event : HoverEvent T) (value name : Option (List NBTElement)) :
    event.encode (value.map (compound [])) (name.map (compound [])) =
      (event.hover value name).element := by
  unfold encode Hover.element payload hover
  cases event.actionType with
  | showText => cases value <;> rfl
  | showItem => rfl
  | showEntity => cases name <;> rfl

namespace TextComponent

theorem map_encode (texts : List TextComponent) :
    (texts.map elements).map (compound []) = encodeAll texts := by
  rw [encodeAll_eq_map, List.map_map]
  exact List.map_congr_left fun text _ => text.encode_eq_compound.symm

theorem withElements_eq (t : TextComponent) :
    t.withElements = (t.withTexts.map elements).map (compound []) := by
  rw [map_encode, withElements, withTexts]
  rcases t.translatable with _ | ⟨_, _, _ | _⟩ <;> rfl

theorem contentElements_eq (t : TextComponent) :
    t.contentElements t.withElements = (t.content (t.withTexts.map elements)).elements := by
  unfold contentElements content
  cases t.contentType with
  | translatable => rw [withElements_eq]; rfl
  | nbt =>
    simp only [NBT.sourceElements_eq]
    rfl
  | _ => rfl

/-- The first of the encoded components. -/
theorem bind_head?_encodeAll (texts : Option (List TextComponent)) :
    (texts.bind fun texts => (encodeAll texts).head?) =
      ((texts.bind List.head?).map elements).map (compound []) := by
  rcases texts with _ | _ | ⟨text, texts⟩
  · rfl
  · rfl
  · exact congrArg some text.encode_eq_compound

theorem hoverElements_eq (t : TextComponent) : t.hoverElements = (t.hoverEvent.map fun event =>
    event.hover (t.hoverValue.map elements) (t.hoverName.map elements)).toList.map Hover.element := by
  unfold hoverElements hoverValue hoverName
  cases t.hoverEvent with
  | none => rfl
  | some event =>
    have hname : (event.showEntity.bind fun entity => entity.name.bind fun texts =>
        (encodeAll texts).head?) = ((event.showEntity.bind fun entity =>
          entity.name.bind List.head?).map elements).map (compound []) := by
      rw [← Option.bind_assoc, ← Option.bind_assoc, bind_head?_encodeAll]
    refine congrArg (fun e => [e]) ?_
    rw [bind_head?_encodeAll, hname, HoverEvent.encode_eq]
    rfl

theorem clickElements_eq (t : TextComponent) : t.clickEvent.toList.map ClickEvent.encode =
    (t.clickEvent.map ClickEvent.click).toList.map Click.element := by
  cases t.clickEvent with
  | none => rfl
  | some event => exact congrArg (fun e => [e]) event.encode_eq

/-- `encode` writes one layer over the elements of the nested components. -/
theorem elements_eq (t : TextComponent) : t.elements = (t.members.map id id elements).elements := by
  have htype : (t.content (t.withTexts.map elements)).type = t.contentType := by
    unfold content
    cases t.contentType <;> rfl
  rw [members, map_membersOf, Members.map_id, elements, encode_eq, contentElements_eq,
    clickElements_eq, hoverElements_eq, styleElements, ← map_encode]
  simp [Members.elements, Members.pieces, membersOf, style, compound, htype]

end TextComponent

/-! ### The parts of a layer -/

namespace Content

def strings : Content β T → List Bytes
  | text value => [value]
  | translatable translate fallback _ => [translate, fallback]
  | score name objective => [name, objective]
  | selector value _ => [value]
  | keybind value => [value]
  | nbt _ path value _ _ => [path, value]

def texts : Content β T → List T
  | translatable _ _ withTexts => withTexts
  | _ => []

def separator : Content β T → List β
  | selector _ separator => separator
  | nbt _ _ _ _ separator => separator
  | _ => []

end Content

def Style.strings (style : Style) : List Bytes :=
  style.color.toList ++ style.font.toList ++ style.insertion.toList

def Click.strings : Click → List Bytes
  | openURL url => [url]
  | openFile path => [path]
  | runCommand command => [command]
  | suggestCommand command => [command]
  | changePage _ => []
  | copyToClipboard value => [value]

namespace Hover

def strings : Hover γ T → List Bytes
  | showText _ => []
  | showItem id _ _ => [id]
  | showEntity id _ _ => [id]

def texts : Hover γ T → List T
  | showText value => value.toList
  | showItem _ _ _ => []
  | showEntity _ name _ => name.toList

def item : Hover γ T → List γ
  | showItem _ _ components => components
  | _ => []

end Hover

namespace Members

variable (m : Members β γ T)

def strings : List Bytes :=
  m.content.strings ++ m.style.strings ++ m.click.toList.flatMap Click.strings ++
    m.hover.toList.flatMap Hover.strings

/-- The components in the layer. -/
def texts : List T := m.content.texts ++ m.extra ++ m.hover.toList.flatMap Hover.texts

/-- Those of them that stand in lists. -/
def lists : List (List T) := [m.content.texts, m.extra]

theorem mem_texts_of_mem_lists {m : Members β γ T} {texts : List T} (hmem : texts ∈ m.lists) {x : T}
    (hx : x ∈ texts) : x ∈ m.texts := by
  simp only [lists, List.mem_cons, List.not_mem_nil, or_false] at hmem
  rcases hmem with rfl | rfl <;> simp [Members.texts, hx]

def separator : List β := m.content.separator

/-- The components of an item. -/
def item : List γ := m.hover.toList.flatMap Hover.item

variable (f : β → β') (g : γ → γ') (h : T → T')

theorem strings_map : (m.map f g h).strings = m.strings := by
  have hhover (hover : Hover γ T) : (hover.map g h).strings = hover.strings := by cases hover <;> rfl
  have hcontent : (m.content.map f h).strings = m.content.strings := by cases m.content <;> rfl
  rw [strings, strings, map, hcontent]
  cases m.hover <;> simp [hhover]

theorem texts_map : (m.map f g h).texts = m.texts.map h := by
  have hhover (hover : Hover γ T) : (hover.map g h).texts = hover.texts.map h := by
    cases hover <;> simp [Hover.map, Hover.texts, Option.toList_map]
  have hcontent : (m.content.map f h).texts = m.content.texts.map h := by cases m.content <;> rfl
  rw [texts, texts, map, hcontent]
  cases m.hover <;> simp [hhover]

theorem lists_map : (m.map f g h).lists = m.lists.map (List.map h) := by
  rw [lists, lists, map]
  cases m.content <;> rfl

theorem separator_map : (m.map f g h).separator = m.separator.map f := by
  rw [separator, separator, map]
  cases m.content <;> rfl

theorem item_map : (m.map f g h).item = m.item.map g := by
  have hhover (hover : Hover γ T) : (hover.map g h).item = hover.item.map g := by cases hover <;> rfl
  rw [item, item, map]
  cases m.hover <;> simp [hhover]

end Members

/-! ### Nested components -/

theorem HoverEvent.mem_texts_hover {event : HoverEvent T} {value name : Option T'} {text : T'}
    (h : text ∈ (event.hover value name).texts) : text ∈ value ∨ text ∈ name := by
  unfold hover at h
  split at h
  · exact .inl (Option.mem_toList.mp h)
  · exact absurd h List.not_mem_nil
  · exact .inr (Option.mem_toList.mp h)

namespace TextComponent

variable {t text : TextComponent}

theorem mem_texts_content {withTexts : List T} {x : T} (h : x ∈ (t.content withTexts).texts) :
    x ∈ withTexts := by
  unfold content at h
  cases htype : t.contentType <;> simp [htype, Content.texts] at h
  exact h

/-- Where a nested component comes from. -/
theorem mem_texts_members (h : text ∈ t.members.texts) :
    text ∈ t.withTexts ∨ text ∈ t.extra ∨ text ∈ t.hoverValue ∨ text ∈ t.hoverName := by
  simp only [Members.texts, members, membersOf, List.mem_append, List.mem_flatMap,
    Option.mem_toList, Option.map_eq_some_iff] at h
  rcases h with (hcontent | hextra) | ⟨_, ⟨event, -, rfl⟩, hhover⟩
  · exact .inl (mem_texts_content hcontent)
  · exact .inr (.inl hextra)
  · exact .inr (.inr (HoverEvent.mem_texts_hover hhover))

theorem sizeOf_lt_of_mem_texts (h : text ∈ t.members.texts) : sizeOf text < sizeOf t := by
  have hhead : ∀ {texts : List TextComponent}, text ∈ texts.head? → sizeOf text < sizeOf texts := by
    intro texts hmem
    exact List.sizeOf_lt_of_mem (List.mem_of_mem_head? hmem)
  rcases mem_texts_members h with h | h | h | h
  · unfold withTexts at h
    rcases t with ⟨_, _, _ | ⟨_, _, _ | texts⟩, _, _, _, _, _, _, _, _, _, _, _, _, _, _, _⟩ <;>
      simp at h
    have := List.sizeOf_lt_of_mem h
    simp
    omega
  · rcases t with ⟨_, _, _, _, _, _, _, _, _, _, _, _, _, _, _, _, _, _⟩
    have := List.sizeOf_lt_of_mem h
    simp at this ⊢
    omega
  · unfold hoverValue at h
    rcases t with ⟨_, _, _, _, _, _, _, _, _, _, _, _, _, _, _, _, _,
      _ | ⟨_, _ | texts, _, _⟩⟩ <;> simp at h
    have := hhead h
    simp
    omega
  · unfold hoverName at h
    rcases t with ⟨_, _, _, _, _, _, _, _, _, _, _, _, _, _, _, _, _,
      _ | ⟨_, _, _, _ | ⟨_ | texts, _, _⟩⟩⟩ <;> simp at h
    have := hhead h
    simp
    omega

/-- Induction on the nesting. -/
theorem nestedInduction {P : TextComponent → Prop}
    (h : ∀ t, (∀ text ∈ t.members.texts, P text) → P t) (t : TextComponent) : P t :=
  h t fun text _ => nestedInduction h text
termination_by sizeOf t
decreasing_by exact sizeOf_lt_of_mem_texts ‹_›

end TextComponent

end Zinc.Text
