import Zinc.Nbt.Element
import Zinc.Text.Uuid

/-! Text components. `encode` chooses the content by the type, or by the first member
that is there, and always writes the type; `decode` looks for the type first and
reads the members of the content only if it finds none. The same holds of click and
hover events with their actions. Nested components are decoded from the bytes of
their elements. The bound on the recursion of `decode` is part of the model only. -/

namespace Zinc.Text

open Throw Buffer Buffer.ByteBuffer Nbt

/-! ### Components -/

/-- `TextComponent::Type`. -/
inductive ContentType where
  | text
  | translatable
  | score
  | selector
  | keybind
  | nbt
  deriving DecidableEq

/-- `TextComponent::Translatable`. -/
structure Translatable (T : Type) where
  translate : Bytes
  fallback : Option Bytes
  withTexts : Option (List T)

structure Score where
  name : Bytes
  objective : Bytes

structure Selector where
  selector : Bytes
  separator : Option NBTElement

inductive NBTType where
  | block
  | entity
  | storage
  deriving DecidableEq

/-- `TextComponent::NBT`. -/
structure NBT where
  source : Option NBTType
  nbt : Bytes
  interpret : Option Bool
  separator : Option NBTElement
  block : Option Bytes
  entity : Option Bytes
  storage : Option Bytes

inductive ClickAction where
  | openURL
  | openFile
  | runCommand
  | suggestCommand
  | changePage
  | copyToClipboard
  deriving DecidableEq

structure ClickEvent where
  action : Option ClickAction
  url : Option Bytes
  path : Option Bytes
  command : Option Bytes
  page : Option (BitVec 32)
  value : Option Bytes

inductive HoverAction where
  | showText
  | showItem
  | showEntity
  deriving DecidableEq

structure ShowItem where
  id : Bytes
  count : Option (BitVec 32)
  components : Option (List NBTElement)

structure ShowEntity (T : Type) where
  name : Option (List T)
  id : Bytes
  uuid : Option UUID

structure HoverEvent (T : Type) where
  action : Option HoverAction
  value : Option (List T)
  showItem : Option ShowItem
  showEntity : Option (ShowEntity T)

structure TextComponent where
  type : Option ContentType
  text : Option Bytes
  translatable : Option (Translatable TextComponent)
  score : Option Score
  selector : Option Selector
  keybind : Option Bytes
  nbt : Option NBT
  color : Option Bytes
  font : Option Bytes
  bold : Option Bool
  italic : Option Bool
  underlined : Option Bool
  strikethrough : Option Bool
  obfuscated : Option Bool
  extra : List TextComponent
  insertion : Option Bytes
  clickEvent : Option ClickEvent
  hoverEvent : Option (HoverEvent TextComponent)

/-- `DEFAULT_SEPARATOR`. -/
def defaultSeparator : NBTElement := .compound []
  [.string (utf8 "type") (utf8 "text"), .string (utf8 "color") (utf8 "gray"),
    .string (utf8 "text") (utf8 ", ")]

def Translatable.new {T : Type} : Translatable T := ⟨[], none, none⟩

def Score.new : Score := ⟨[], []⟩

def Selector.new : Selector := ⟨[], some defaultSeparator⟩

def NBT.new : NBT := ⟨none, [], some false, some defaultSeparator, none, none, none⟩

def ClickEvent.new : ClickEvent := ⟨none, none, none, none, none, none⟩

def ShowItem.new : ShowItem := ⟨[], none, none⟩

def ShowEntity.new {T : Type} : ShowEntity T := ⟨none, [], none⟩

def HoverEvent.new {T : Type} : HoverEvent T := ⟨none, none, none, none⟩

namespace TextComponent

/-- A fresh component. -/
def new : TextComponent :=
  ⟨none, none, none, none, none, none, none, none, none, none, none, none, none, none, [], none, none,
    none⟩

end TextComponent

/-! ### Encoding -/

def flag (value : Bool) : UInt8 := if value then 1 else 0

/-- The type that is encoded. -/
def TextComponent.contentType (t : TextComponent) : ContentType :=
  t.type.getD (
    if t.text.isSome then .text
    else if t.translatable.isSome then .translatable
    else if t.score.isSome then .score
    else if t.selector.isSome then .selector
    else if t.keybind.isSome then .keybind
    else if t.nbt.isSome then .nbt
    else .text)

/-- The type as it is written. -/
def ContentType.name : ContentType → String
  | text => "text"
  | translatable => "translatable"
  | score => "score"
  | selector => "selector"
  | keybind => "keybind"
  | nbt => "nbt"

def NBT.sourceType (nbt : NBT) : NBTType :=
  nbt.source.getD (
    if nbt.block.isSome then .block
    else if nbt.entity.isSome then .entity
    else if nbt.storage.isSome then .storage
    else .block)

def NBT.sourceElements (nbt : NBT) : List NBTElement :=
  match nbt.sourceType with
  | .block => [.string (utf8 "source") (utf8 "block"), .string (utf8 "block") (nbt.block.getD [])]
  | .entity => [.string (utf8 "source") (utf8 "entity"), .string (utf8 "entity") (nbt.entity.getD [])]
  | .storage =>
    [.string (utf8 "source") (utf8 "storage"), .string (utf8 "storage") (nbt.storage.getD [])]

/-- The separator of a selector and of NBT. -/
def separatorElement (separator : Option NBTElement) : NBTElement :=
  .compound (utf8 "separator") (separator.getD defaultSeparator).childElements

/-- A list that is left out when it is empty. -/
def listElements (tag : String) (elements : List NBTElement) : List NBTElement :=
  if elements.isEmpty then [] else [.list (utf8 tag) elements]

/-- The elements behind the type, with the encoded components of a translation. -/
def TextComponent.contentElements (t : TextComponent) (withElements : List NBTElement) :
    List NBTElement :=
  match t.contentType with
  | .text => [.string (utf8 "text") (t.text.getD [])]
  | .translatable =>
    let translatable := t.translatable.getD .new
    [.string (utf8 "translate") translatable.translate,
      .string (utf8 "fallback") (translatable.fallback.getD (utf8 "nil"))] ++
      listElements "with" withElements
  | .score =>
    let score := t.score.getD .new
    [.compound (utf8 "score")
      [.string (utf8 "name") score.name, .string (utf8 "objective") score.objective]]
  | .selector =>
    let selector := t.selector.getD .new
    [.string (utf8 "selector") selector.selector, separatorElement selector.separator]
  | .keybind => [.string (utf8 "keybind") (t.keybind.getD (utf8 "key.inventory"))]
  | .nbt =>
    let nbt := t.nbt.getD .new
    nbt.sourceElements ++ [.string (utf8 "nbt") nbt.nbt] ++
      nbt.interpret.toList.map (fun value => .byte (utf8 "interpret") (flag value)) ++
      [separatorElement nbt.separator]

/-- A member that is left out when it is not there. -/
def optionalString (tag : String) (value : Option Bytes) : List NBTElement :=
  value.toList.map (.string (utf8 tag))

def optionalFlag (tag : String) (value : Option Bool) : List NBTElement :=
  value.toList.map fun value => .byte (utf8 tag) (flag value)

def TextComponent.styleElements (t : TextComponent) : List NBTElement :=
  optionalString "color" t.color ++ optionalString "font" t.font ++ optionalFlag "bold" t.bold ++
    optionalFlag "italic" t.italic ++ optionalFlag "underlined" t.underlined ++
    optionalFlag "strikethrough" t.strikethrough ++ optionalFlag "obfuscated" t.obfuscated ++
    optionalString "insertion" t.insertion

namespace ClickAction

def name : ClickAction → String
  | openURL => "open_url"
  | openFile => "open_file"
  | runCommand => "run_command"
  | suggestCommand => "suggest_command"
  | changePage => "change_page"
  | copyToClipboard => "copy_to_clipboard"

end ClickAction

/-- The action that is encoded. -/
def ClickEvent.actionType (event : ClickEvent) : ClickAction :=
  event.action.getD (
    if event.url.isSome then .openURL
    else if event.path.isSome then .openFile
    else if event.page.isSome then .changePage
    else if event.value.isSome then .copyToClipboard
    else .suggestCommand)

def ClickEvent.payload (event : ClickEvent) : NBTElement :=
  match event.actionType with
  | .openURL => .string (utf8 "url") (event.url.getD (utf8 "www.example.com"))
  | .openFile => .string (utf8 "path") (event.path.getD [])
  | .runCommand => .string (utf8 "command") (event.command.getD (utf8 "/say hi"))
  | .suggestCommand => .string (utf8 "command") (event.command.getD (utf8 "/say hi"))
  | .changePage => .int (utf8 "page") (event.page.getD 0)
  | .copyToClipboard => .string (utf8 "value") (event.value.getD [])

def ClickEvent.encode (event : ClickEvent) : NBTElement :=
  .compound (utf8 "click_event")
    [.string (utf8 "action") (utf8 event.actionType.name), event.payload]

namespace HoverAction

def name : HoverAction → String
  | showText => "show_text"
  | showItem => "show_item"
  | showEntity => "show_entity"

end HoverAction

/-- The action that is encoded. -/
def HoverEvent.actionType {T : Type} (event : HoverEvent T) : HoverAction :=
  event.action.getD (
    if event.showItem.isSome then .showItem
    else if event.showEntity.isSome then .showEntity
    else .showText)

/-- An encoded component under another tag. -/
def retag (tag : String) (element : NBTElement) : NBTElement := { element with tag := utf8 tag }

@[simp] theorem retag_tag (tag : String) (element : NBTElement) :
    (retag tag element).tag = utf8 tag := rfl

/-- The elements behind the action, with the encoded text and the encoded name. -/
def HoverEvent.payload {T : Type} (event : HoverEvent T) (value name : Option NBTElement) :
    List NBTElement :=
  match event.actionType with
  | .showText =>
    [match value with
      | some element => retag "value" element
      | none => .string (utf8 "value") []]
  | .showItem =>
    let item := event.showItem.getD .new
    [.string (utf8 "id") item.id] ++ item.count.toList.map (.int (utf8 "count")) ++
      listElements "components" (item.components.getD [])
  | .showEntity =>
    let entity := event.showEntity.getD .new
    [.string (utf8 "id") entity.id] ++ name.toList.map (retag "name") ++
      entity.uuid.toList.map fun uuid => .string (utf8 "uuid") (Uuids.toString uuid)

def HoverEvent.encode {T : Type} (event : HoverEvent T) (value name : Option NBTElement) : NBTElement :=
  .compound (utf8 "hover_event")
    (.string (utf8 "action") (utf8 event.actionType.name) :: event.payload value name)

namespace TextComponent

mutual

/-- `encode`. -/
def encode : TextComponent → NBTElement
  | t@⟨_, _, translatable, _, _, _, _, _, _, _, _, _, _, _, extra, _, clickEvent, hoverEvent⟩ =>
    let withElements :=
      match translatable with
      | some ⟨_, _, some texts⟩ => encodeAll texts
      | _ => []
    let hoverElements :=
      match hoverEvent with
      | some event@⟨_, value, _, showEntity⟩ =>
        let valueElement :=
          match value with
          | some texts => (encodeAll texts).head?
          | none => none
        let nameElement :=
          match showEntity with
          | some ⟨some texts, _, _⟩ => (encodeAll texts).head?
          | _ => none
        [event.encode valueElement nameElement]
      | none => []
    .compound [] (.string (utf8 "type") (utf8 t.contentType.name) :: t.contentElements withElements ++
      listElements "extra" (encodeAll extra) ++ t.styleElements ++
      clickEvent.toList.map ClickEvent.encode ++ hoverElements)

def encodeAll : List TextComponent → List NBTElement
  | [] => []
  | text :: texts => encode text :: encodeAll texts

end

/-- The encoded components of a translation. -/
def withElements (t : TextComponent) : List NBTElement :=
  match t.translatable with
  | some ⟨_, _, some texts⟩ => encodeAll texts
  | _ => []

def hoverElements (t : TextComponent) : List NBTElement :=
  match t.hoverEvent with
  | some event =>
    [event.encode (event.value.bind fun texts => (encodeAll texts).head?)
      (event.showEntity.bind fun entity => entity.name.bind fun texts => (encodeAll texts).head?)]
  | none => []

theorem encode_eq (t : TextComponent) : t.encode = .compound []
    (.string (utf8 "type") (utf8 t.contentType.name) :: t.contentElements t.withElements ++
      listElements "extra" (encodeAll t.extra) ++ t.styleElements ++
      t.clickEvent.toList.map ClickEvent.encode ++ t.hoverElements) := by
  rcases t with ⟨_, _, translatable, _, _, _, _, _, _, _, _, _, _, _, _, _, _, hoverEvent⟩
  rcases translatable with _ | ⟨_, _, _ | _⟩ <;>
    rcases hoverEvent with _ | ⟨_, _ | _, _, _ | ⟨_ | _, _, _⟩⟩ <;> rfl

theorem encodeAll_eq_map (texts : List TextComponent) : encodeAll texts = texts.map encode := by
  induction texts with
  | nil => rfl
  | cons text texts ih => rw [encodeAll, ih, List.map_cons]

end TextComponent

/-! ### Decoding -/

/-- The string of the last element with a tag; empty without one. -/
def lastString (tag : String) (elements : List NBTElement) : Bytes :=
  elements.foldl (fun found element => if element.tag = utf8 tag then element.stringValue else found) []

def ClickAction.ofName (name : Bytes) : Option ClickAction :=
  [openURL, openFile, runCommand, suggestCommand, changePage, copyToClipboard].find? fun action =>
    utf8 action.name = name

/-- A member of a click event without an action. -/
def ClickEvent.decodeMember (event : ClickEvent × Bytes) (element : NBTElement) : ClickEvent × Bytes :=
  if element.tag = utf8 "url" then
    ({ event.1 with url := some element.stringValue }, utf8 "open_url")
  else if element.tag = utf8 "path" then
    ({ event.1 with path := some element.stringValue }, utf8 "open_file")
  else if element.tag = utf8 "command" then
    ({ event.1 with command := some element.stringValue }, utf8 "suggest_command")
  else if element.tag = utf8 "page" then
    ({ event.1 with page := some element.intValue }, utf8 "change_page")
  else if element.tag = utf8 "value" then
    ({ event.1 with value := some element.stringValue }, utf8 "copy_to_clipboard")
  else event

def ClickEvent.decode (element : NBTElement) : ClickEvent :=
  let actionString := lastString "action" element.childElements
  let (event, actionString) :=
    if actionString = [] then element.childElements.foldl decodeMember (.new, actionString)
    else (.new, actionString)
  match ClickAction.ofName actionString with
  | some action => { event with action := some action }
  | none => event

/-- The variables of `decode` for a hover event. -/
structure HoverDecoding where
  event : HoverEvent TextComponent
  showItem : ShowItem
  showEntity : ShowEntity TextComponent
  id : Bytes
  actionString : Bytes

namespace HoverDecoding

variable (decodeText : NBTElement → Except Fault TextComponent)

/-- A member of a hover event without an action. -/
def member (s : HoverDecoding) (element : NBTElement) : Except Fault HoverDecoding :=
  if element.tag = utf8 "value" then do
    let text ← decodeText element
    return { s with event := { s.event with value := some [text] }, actionString := utf8 "show_text" }
  else if element.tag = utf8 "components" then
    return { s with showItem := { s.showItem with components := some element.childElements },
                    actionString := utf8 "show_item" }
  else if element.tag = utf8 "count" then
    return { s with showItem := { s.showItem with count := some element.intValue },
                    actionString := utf8 "show_item" }
  else if element.tag = utf8 "id" then return { s with id := element.stringValue }
  else if element.tag = utf8 "uuid" then
    return { s with
      showEntity := { s.showEntity with uuid := Uuids.fromString element.stringValue },
      actionString := utf8 "show_entity" }
  else if element.tag = utf8 "name" then do
    let text ← decodeText element
    return { s with showEntity := { s.showEntity with name := some [text] },
                    actionString := utf8 "show_entity" }
  else return s

def result (s : HoverDecoding) : HoverEvent TextComponent :=
  if s.actionString = utf8 "show_text" then { s.event with action := some .showText }
  else if s.actionString = utf8 "show_item" then
    { s.event with action := some .showItem, showItem := some { s.showItem with id := s.id } }
  else if s.actionString = utf8 "show_entity" then
    { s.event with action := some .showEntity, showEntity := some { s.showEntity with id := s.id } }
  else s.event

def decode (element : NBTElement) : Except Fault (HoverEvent TextComponent) := do
  let actionString := lastString "action" element.childElements
  let s : HoverDecoding := ⟨.new, .new, .new, [], actionString⟩
  if actionString = [] then
    let s ← element.childElements.foldlM (member decodeText) s
    return s.result
  else return s.result

end HoverDecoding

/-- The variables of `decode` for the content. -/
structure ContentDecoding where
  component : TextComponent
  typeString : Bytes
  translatable : Translatable TextComponent
  withTexts : List TextComponent
  separator : NBTElement
  score : Score
  selector : Selector
  nbt : NBT

namespace ContentDecoding

variable (decodeText : NBTElement → Except Fault TextComponent)

def scoreMember (score : Score) (element : NBTElement) : Score :=
  if element.tag = utf8 "name" then { score with name := element.stringValue }
  else if element.tag = utf8 "objective" then { score with objective := element.stringValue }
  else score

/-- The source of NBT; an unknown one leaves it as it was. -/
def sourceMember (nbt : NBT) (source : Bytes) : NBT :=
  if source = utf8 "block" then { nbt with source := some .block }
  else if source = utf8 "entity" then { nbt with source := some .entity }
  else if source = utf8 "storage" then { nbt with source := some .storage }
  else nbt

/-- A member of the content of a component without a type. -/
def member (s : ContentDecoding) (element : NBTElement) : Except Fault ContentDecoding :=
  let tag := element.tag
  let string := element.stringValue
  if tag = utf8 "text" then
    return { s with component := { s.component with text := some string }, typeString := utf8 "text" }
  else if tag = utf8 "source" then
    return { s with nbt := sourceMember s.nbt string, typeString := utf8 "nbt" }
  else if tag = utf8 "nbt" then
    return { s with nbt := { s.nbt with nbt := string }, typeString := utf8 "nbt" }
  else if tag = utf8 "block" then
    return { s with nbt := { s.nbt with block := some string }, typeString := utf8 "nbt" }
  else if tag = utf8 "entity" then
    return { s with nbt := { s.nbt with entity := some string }, typeString := utf8 "nbt" }
  else if tag = utf8 "storage" then
    return { s with nbt := { s.nbt with storage := some string }, typeString := utf8 "nbt" }
  else if tag = utf8 "interpret" then
    return { s with nbt := { s.nbt with interpret := some (element.byteValue ≠ 0) },
                    typeString := utf8 "nbt" }
  else if tag = utf8 "score" then
    return { s with score := element.childElements.foldl scoreMember s.score,
                    typeString := utf8 "score" }
  else if tag = utf8 "separator" then return { s with separator := element }
  else if tag = utf8 "selector" then
    return { s with selector := { s.selector with selector := string },
                    typeString := utf8 "selector" }
  else if tag = utf8 "keybind" then
    return { s with component := { s.component with keybind := some string },
                    typeString := utf8 "keybind" }
  else if tag = utf8 "translate" then
    return { s with translatable := { s.translatable with translate := string },
                    typeString := utf8 "translatable" }
  else if tag = utf8 "fallback" then
    return { s with translatable := { s.translatable with fallback := some string },
                    typeString := utf8 "translatable" }
  else if tag = utf8 "with" then do
    let texts ← element.childElements.mapM decodeText
    return { s with withTexts := s.withTexts ++ texts, typeString := utf8 "translatable" }
  else return s

/-- The type that is set is `Text` for every content. -/
def result (s : ContentDecoding) : TextComponent :=
  let translatable :=
    if s.withTexts = [] then s.translatable else { s.translatable with withTexts := some s.withTexts }
  if s.typeString = utf8 "text" then { s.component with type := some .text }
  else if s.typeString = utf8 "translatable" then
    { s.component with type := some .text, translatable := some translatable }
  else if s.typeString = utf8 "keybind" then { s.component with type := some .text }
  else if s.typeString = utf8 "selector" then
    { s.component with
      type := some .text, selector := some { s.selector with separator := some s.separator } }
  else if s.typeString = utf8 "score" then
    { s.component with type := some .text, score := some s.score }
  else if s.typeString = utf8 "nbt" then
    { s.component with
      type := some .text, nbt := some { s.nbt with separator := some s.separator } }
  else s.component

def decode (element : NBTElement) (component : TextComponent) (typeString : Bytes) :
    Except Fault TextComponent := do
  let s : ContentDecoding := ⟨component, typeString, .new, [], .new .new, .new, .new, .new⟩
  if typeString = [] then
    let s ← element.childElements.foldlM (member decodeText) s
    return s.result
  else return s.result

end ContentDecoding

namespace TextComponent

/-- A member of a component: the component and the type string behind it. -/
def decodeMember (decodeText : NBTElement → Except Fault TextComponent) (s : TextComponent × Bytes)
    (element : NBTElement) : Except Fault (TextComponent × Bytes) :=
  let tag := element.tag
  let string := element.stringValue
  let bool := element.byteValue ≠ 0
  if tag = utf8 "extra" then do
    let texts ← element.childElements.mapM decodeText
    return ({ s.1 with extra := s.1.extra ++ texts }, s.2)
  else if tag = utf8 "type" then return (s.1, string)
  else if tag = utf8 "color" then return ({ s.1 with color := some string }, s.2)
  else if tag = utf8 "font" then return ({ s.1 with font := some string }, s.2)
  else if tag = utf8 "bold" then return ({ s.1 with bold := some bool }, s.2)
  else if tag = utf8 "italic" then return ({ s.1 with italic := some bool }, s.2)
  else if tag = utf8 "underlined" then return ({ s.1 with underlined := some bool }, s.2)
  else if tag = utf8 "strikethrough" then return ({ s.1 with strikethrough := some bool }, s.2)
  else if tag = utf8 "obfuscated" then return ({ s.1 with obfuscated := some bool }, s.2)
  else if tag = utf8 "insertion" then return ({ s.1 with insertion := some string }, s.2)
  else if tag = utf8 "click_event" then
    return ({ s.1 with clickEvent := some (ClickEvent.decode element) }, s.2)
  else if tag = utf8 "hover_event" then do
    let event ← HoverDecoding.decode decodeText element
    return ({ s.1 with hoverEvent := some event }, s.2)
  else return s

/-- A nested component: its element is written to a buffer of its own and read again. -/
def decodeNested (n : ℕ) (decode : NBTElement → TextComponent → Except Fault TextComponent)
    (text : NBTElement) : Except Fault TextComponent := do
  let ((), buffer) ← writeNBTElement text .new
  let (element, _) ← readNBTElement n buffer
  decode element .new

/-- `decode(const NBTElement&)` on a component. -/
def decode : ℕ → NBTElement → TextComponent → Except Fault TextComponent
  | 0, _, _ => .error .stuck
  | n + 1, element, component => do
    let decodeText := decodeNested n (decode n)
    let (component, typeString) ←
      element.childElements.foldlM (decodeMember decodeText) (component, [])
    ContentDecoding.decode decodeText element component typeString

end TextComponent

end Zinc.Text
