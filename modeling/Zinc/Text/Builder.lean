import Zinc.Base.Overwriting
import Zinc.Network.Message
import Zinc.Text.Equality

/-! Builders of text components, events and NBT contents. A chain of calls writes the members of
one value, and a call that chooses a content or an action leaves the members of the ones before
it where they are. Of what is left only the chosen content is encoded, so the last call of each
kind decides, in whatever order the kinds stand, and appended components keep their order. -/

namespace Zinc.Text

open Buffer Nbt NBTElement Network Overwriting

/-! ### Contents from NBT -/

/-- The methods of `NBTBuilder`. -/
inductive NBTCall where
  | nbt (nbt : Bytes)
  | block (block : Bytes)
  | entity (entity : Bytes)
  | storage (storage : Bytes)
  | separator (separator : TextComponent)
  | interpret (state : Bool)

namespace NBT

def apply (content : NBT) : NBTCall → NBT
  | .nbt nbt => { content with nbt }
  | .block block => { content with block := some block, source := some .block }
  | .entity entity => { content with entity := some entity, source := some .entity }
  | .storage storage => { content with storage := some storage, source := some .storage }
  | .separator separator => { content with separator := some separator.encode }
  | .interpret state => { content with interpret := some state }

/-- `NBTBuilder`, from its constructor to `build`. -/
def build (calls : List NBTCall) : NBT := calls.foldl apply .new

end NBT

/-- What a call of `NBTBuilder` is about. -/
inductive NBTKind where
  | nbt
  | source
  | separator
  | interpret
  deriving DecidableEq

def NBTCall.kind : NBTCall → NBTKind
  | nbt _ => .nbt
  | block _ | entity _ | storage _ => .source
  | separator _ => .separator
  | interpret _ => .interpret

/-- The last call of a kind. -/
def NBTCall.last (kind : NBTKind) (calls : List NBTCall) : Option NBTCall :=
  lastCall (fun call => call.kind = kind) calls

/-- What is encoded of a kind. -/
def NBT.said (kind : NBTKind) (content : NBT) : List NBTElement :=
  match kind with
  | .nbt => [.string (utf8 "nbt") content.nbt]
  | .source => content.sourceElements
  | .separator => [separatorElement content.separator]
  | .interpret => content.interpret.toList.map fun value => .byte (utf8 "interpret") (flag value)

theorem NBT.said_build {calls calls' : List NBTCall} (kind : NBTKind)
    (h : NBTCall.last kind calls = NBTCall.last kind calls') :
    (NBT.build calls).said kind = (NBT.build calls').said kind := by
  refine read_foldl_congr (NBT.said kind) (fun call => (NBT.new.apply call).said kind) ?_ ?_ NBT.new h
  · intro content call hkind
    obtain rfl := of_decide_eq_true hkind
    cases call <;> rfl
  · intro content call hkind
    cases call <;> cases kind <;> first | rfl | exact absurd rfl hkind

/-! ### Click events -/

/-- The methods of `ClickEventBuilder`. -/
inductive ClickCall where
  | openUrl (url : Bytes)
  | openFile (path : Bytes)
  | runCommand (command : Bytes)
  | suggestCommand (command : Bytes)
  | changePage (page : BitVec 32)
  | copyToClipboard (value : Bytes)

namespace ClickEvent

def apply (event : ClickEvent) : ClickCall → ClickEvent
  | .openUrl url => { event with action := some .openURL, url := some url }
  | .openFile path => { event with action := some .openFile, path := some path }
  | .runCommand command => { event with action := some .runCommand, command := some command }
  | .suggestCommand command => { event with action := some .suggestCommand, command := some command }
  | .changePage page => { event with action := some .changePage, page := some page }
  | .copyToClipboard value => { event with action := some .copyToClipboard, value := some value }

/-- `ClickEventBuilder`, from its constructor to `build`. -/
def build (calls : List ClickCall) : ClickEvent := calls.foldl apply .new

theorem encode_build {calls calls' : List ClickCall} (h : calls.getLast? = calls'.getLast?) :
    (build calls).encode = (build calls').encode := by
  refine read_foldl_getLast encode (fun call => (new.apply call).encode) ?_ new h
  intro event call
  cases call <;> rfl

end ClickEvent

/-! ### Hover events -/

/-- The methods of `HoverEventBuilder`. -/
inductive HoverCall where
  | showText (text : TextComponent)
  | showItem (item : ShowItem)
  | showEntity (entity : ShowEntity TextComponent)

namespace HoverEvent

def apply (event : HoverEvent TextComponent) : HoverCall → HoverEvent TextComponent
  | .showText text => { event with action := some .showText, value := some [text] }
  | .showItem item => { event with action := some .showItem, showItem := some item }
  | .showEntity entity => { event with action := some .showEntity, showEntity := some entity }

/-- `HoverEventBuilder`, from its constructor to `build`. -/
def build (calls : List HoverCall) : HoverEvent TextComponent := calls.foldl apply .new

/-- The event as a component encodes it. -/
def element (event : HoverEvent TextComponent) : NBTElement :=
  event.encode (event.value.bind fun texts => (TextComponent.encodeAll texts).head?)
    (event.showEntity.bind fun entity =>
      entity.name.bind fun texts => (TextComponent.encodeAll texts).head?)

theorem element_build {calls calls' : List HoverCall} (h : calls.getLast? = calls'.getLast?) :
    (build calls).element = (build calls').element := by
  refine read_foldl_getLast element (fun call => (apply new call).element) ?_ new h
  intro event call
  cases call <;> rfl

end HoverEvent

/-! ### Text components -/

/-- The methods of `TextComponentBuilder`. -/
inductive TextCall where
  | text (text : Bytes)
  | translatable (translatable : Translatable TextComponent)
  | score (score : Score)
  | selector (selector : Selector)
  | keybind (keybind : Bytes)
  | nbt (nbt : NBT)
  | bold (state : Bool)
  | italic (state : Bool)
  | underlined (state : Bool)
  | strikethrough (state : Bool)
  | obfuscated (state : Bool)
  | font (font : Identifier)
  | color (color : Bytes)
  | append (text : TextComponent)
  | insertion (insertion : Bytes)
  | clickEvent (clickEvent : ClickEvent)
  | hoverEvent (hoverEvent : HoverEvent TextComponent)

namespace TextComponent

def apply (t : TextComponent) : TextCall → TextComponent
  | .text text => { t with text := some text, type := some .text }
  | .translatable translatable =>
    { t with translatable := some translatable, type := some .translatable }
  | .score score => { t with score := some score, type := some .score }
  | .selector selector => { t with selector := some selector, type := some .selector }
  | .keybind keybind => { t with keybind := some keybind, type := some .keybind }
  | .nbt nbt => { t with nbt := some nbt, type := some .nbt }
  | .bold state => { t with bold := some state }
  | .italic state => { t with italic := some state }
  | .underlined state => { t with underlined := some state }
  | .strikethrough state => { t with strikethrough := some state }
  | .obfuscated state => { t with obfuscated := some state }
  | .font font => { t with font := some font.toString }
  | .color color => { t with color := some color }
  | .append text => { t with extra := t.extra ++ [text] }
  | .insertion insertion => { t with insertion := some insertion }
  | .clickEvent clickEvent => { t with clickEvent := some clickEvent }
  | .hoverEvent hoverEvent => { t with hoverEvent := some hoverEvent }

/-- `TextComponentBuilder`, from its constructor to `build`. -/
def build (calls : List TextCall) : TextComponent := calls.foldl apply new

end TextComponent

/-- What a call of `TextComponentBuilder` is about, when it overwrites something. -/
inductive TextKind where
  | content
  | bold
  | italic
  | underlined
  | strikethrough
  | obfuscated
  | font
  | color
  | insertion
  | clickEvent
  | hoverEvent
  deriving DecidableEq

namespace TextCall

def kind : TextCall → Option TextKind
  | text _ | translatable _ | score _ | selector _ | keybind _ | nbt _ => some .content
  | bold _ => some .bold
  | italic _ => some .italic
  | underlined _ => some .underlined
  | strikethrough _ => some .strikethrough
  | obfuscated _ => some .obfuscated
  | font _ => some .font
  | color _ => some .color
  | append _ => none
  | insertion _ => some .insertion
  | clickEvent _ => some .clickEvent
  | hoverEvent _ => some .hoverEvent

/-- The last call of a kind. -/
def last (kind : TextKind) (calls : List TextCall) : Option TextCall :=
  lastCall (fun call => call.kind = some kind) calls

def appended : TextCall → List TextComponent
  | append component => [component]
  | _ => []

end TextCall

namespace TextComponent

/-- What is encoded of a kind. -/
def said (kind : TextKind) (t : TextComponent) : List NBTElement :=
  match kind with
  | .content => .string (utf8 "type") (utf8 t.contentType.name) :: t.contentElements t.withElements
  | .bold => optionalFlag "bold" t.bold
  | .italic => optionalFlag "italic" t.italic
  | .underlined => optionalFlag "underlined" t.underlined
  | .strikethrough => optionalFlag "strikethrough" t.strikethrough
  | .obfuscated => optionalFlag "obfuscated" t.obfuscated
  | .font => optionalString "font" t.font
  | .color => optionalString "color" t.color
  | .insertion => optionalString "insertion" t.insertion
  | .clickEvent => t.clickEvent.toList.map ClickEvent.encode
  | .hoverEvent => t.hoverElements

theorem encode_eq_said (t : TextComponent) : t.encode = .compound []
    (t.said .content ++ listElements "extra" (encodeAll t.extra) ++
      (t.said .color ++ t.said .font ++ t.said .bold ++ t.said .italic ++ t.said .underlined ++
        t.said .strikethrough ++ t.said .obfuscated ++ t.said .insertion) ++
      t.said .clickEvent ++ t.said .hoverEvent) :=
  encode_eq t

/-- Components that say the same are encoded alike. -/
theorem encode_congr {t t' : TextComponent} (h : ∀ kind, t.said kind = t'.said kind)
    (hextra : t.extra = t'.extra) : t.encode = t'.encode := by
  rw [encode_eq_said, encode_eq_said, hextra]
  simp only [h]

theorem said_base (kind : TextKind) (t : TextComponent) : t.base.said kind = t.said kind := by
  cases kind <;> rfl

theorem encodeJSON_congr (host : Host) {t t' : TextComponent}
    (h : ∀ kind, t.said kind = t'.said kind) (hextra : t.extra = t'.extra) :
    encodeJSON host t = encodeJSON host t' := by
  have hbase : t.base.encode = t'.base.encode :=
    encode_congr (fun kind => by rw [said_base, said_base, h]) rfl
  rw [encodeJSON_eq, encodeJSON_eq, hbase, hextra]

end TextComponent

/-- What is encoded of a kind behind this call. -/
def TextCall.said (kind : TextKind) (call : TextCall) : List NBTElement :=
  (TextComponent.new.apply call).said kind

theorem TextCall.said_nbt (content : NBT) : (TextCall.nbt content).said .content =
    .string (utf8 "type") (utf8 "nbt") :: (content.said .source ++ content.said .nbt ++
      content.said .interpret ++ content.said .separator) :=
  rfl

theorem TextCall.said_clickEvent (event : ClickEvent) :
    (TextCall.clickEvent event).said .clickEvent = [event.encode] :=
  rfl

theorem TextCall.said_hoverEvent (event : HoverEvent TextComponent) :
    (TextCall.hoverEvent event).said .hoverEvent = [event.element] :=
  rfl

namespace TextComponent

theorem said_build (kind : TextKind) (calls : List TextCall) : (build calls).said kind =
    ((TextCall.last kind calls).map (TextCall.said kind)).getD (new.said kind) := by
  refine read_foldl (said kind) (TextCall.said kind) ?_ ?_ new calls
  · intro t call hkind
    have hkind := of_decide_eq_true hkind
    cases call <;> cases hkind <;> rfl
  · intro t call hkind
    cases call <;> cases kind <;> first | rfl | exact absurd rfl hkind

theorem extra_build (calls : List TextCall) :
    (build calls).extra = calls.flatMap TextCall.appended := by
  refine (collected_foldl extra TextCall.appended ?_ new calls).trans (List.nil_append _)
  intro t call
  cases call <;> first | rfl | exact (List.append_nil _).symm

/-- Chains whose last calls of each kind say the same, with the same appended components, build
components that are encoded alike and compare equal. What a call says of an event or of an NBT
content that was built by a chain is decided by the last calls of that chain. -/
theorem builders_alike :
    (∀ calls calls' : List TextCall,
      (∀ kind, (TextCall.last kind calls).map (TextCall.said kind) =
        (TextCall.last kind calls').map (TextCall.said kind)) →
      calls.flatMap TextCall.appended = calls'.flatMap TextCall.appended →
        (build calls).encode = (build calls').encode ∧
          ∀ host, (build calls).equal host (build calls') = true) ∧
    (∀ calls calls' : List NBTCall, (∀ kind, NBTCall.last kind calls = NBTCall.last kind calls') →
      (TextCall.nbt (NBT.build calls)).said .content =
        (TextCall.nbt (NBT.build calls')).said .content) ∧
    (∀ calls calls' : List ClickCall, calls.getLast? = calls'.getLast? →
      (TextCall.clickEvent (ClickEvent.build calls)).said .clickEvent =
        (TextCall.clickEvent (ClickEvent.build calls')).said .clickEvent) ∧
    ∀ calls calls' : List HoverCall, calls.getLast? = calls'.getLast? →
      (TextCall.hoverEvent (HoverEvent.build calls)).said .hoverEvent =
        (TextCall.hoverEvent (HoverEvent.build calls')).said .hoverEvent := by
  refine ⟨fun calls calls' hlast happended => ?_, fun calls calls' hlast => ?_,
    fun calls calls' hlast => ?_, fun calls calls' hlast => ?_⟩
  · have hsaid : ∀ kind, (build calls).said kind = (build calls').said kind := by
      intro kind
      rw [said_build, said_build, hlast]
    have hextra : (build calls).extra = (build calls').extra := by
      rw [extra_build, extra_build, happended]
    have hequal : ∀ host, (build calls).equal host (build calls') = true :=
      fun host => decide_eq_true (encodeJSON_congr host hsaid hextra)
    exact ⟨encode_congr hsaid hextra, hequal⟩
  · simp only [TextCall.said_nbt, NBT.said_build _ (hlast _)]
  · rw [TextCall.said_clickEvent, TextCall.said_clickEvent, ClickEvent.encode_build hlast]
  · rw [TextCall.said_hoverEvent, TextCall.said_hoverEvent, HoverEvent.element_build hlast]

/-- Two contents, of which the second one stays, and styles in another order. -/
theorem builders_alike_reordered :
    (build [.score ⟨[97], [98]⟩, .bold true, .append new, .text [99], .bold false]).encode =
      (build [.bold false, .text [99], .append new]).encode :=
  (builders_alike.1 _ _ (fun kind => by cases kind <;> rfl) rfl).1

theorem foldl_append (texts : List TextComponent) (t : TextComponent) :
    (texts.map TextCall.append).foldl apply t = { t with extra := t.extra ++ texts } := by
  induction texts generalizing t with
  | nil =>
    cases t
    rw [List.append_nil]
    rfl
  | cons text texts ih =>
    rw [List.map_cons, List.foldl_cons, ih]
    simp only [apply, List.append_assoc, List.singleton_append]

/-- The texts of the server's messages are what chains of these calls build. -/
theorem full_eq_build (text : Bytes) (color : Option Bytes) (bold : Option Bool)
    (extra : List Network.TextComponent) :
    (Network.TextComponent.mk text color bold extra).full =
      build (.text text :: (color.toList.map .color ++ (bold.toList.map .bold ++
        (Network.TextComponent.fullAll extra).map .append))) := by
  rw [build, List.foldl_cons, List.foldl_append, List.foldl_append, foldl_append]
  cases color <;> cases bold <;> rfl

end TextComponent

end Zinc.Text
