import Zinc.Buffer.RoundTrip
import Zinc.Text.Codec

/-! Text components on the NBT layer. `encode` builds a well-formed tree with an empty root
tag, so that an element with the same tree is read from the bytes of the component, if
every list of components has a number of elements that the 32 bits in front of it can
hold. A longer list is announced with the rest of its number: what is read is the tree of
a shorter list, and the elements behind it are taken for members or left over. -/

namespace Zinc.Text

open Throw Buffer Buffer.ByteBuffer Nbt Nbt.NBTElement

/-- Elements that can stand in one list. -/
def Homogeneous (elements : List NBTElement) : Prop :=
  ∀ element ∈ elements, (tree element).WellFormed ∧
    element.type = Tree.elementType (elements.map tree) ∧ element.type ≠ .endTag ∧ element.tag = []

theorem Homogeneous.wellFormed {elements : List NBTElement} (h : Homogeneous elements)
    (hlength : elements.length < 2 ^ 32) : (tree (list [] elements)).WellFormed := by
  rw [tree_of_list]
  apply Tree.WellFormed.list (Nat.zero_le _)
  · rwa [List.length_map]
  · intro t ht
    rcases List.mem_map.mp ht with ⟨element, hmem, rfl⟩
    rw [tree_type, tree_tag]
    exact (h element hmem).2
  · intro t ht
    rcases List.mem_map.mp ht with ⟨element, hmem, rfl⟩
    exact (h element hmem).1

/-! ### What a component holds -/

/-- The strings of the parts of a component. -/
def Translatable.strings {T : Type} (x : Translatable T) : List Bytes :=
  x.translate :: x.fallback.toList

def Score.strings (x : Score) : List Bytes := [x.name, x.objective]

def Selector.strings (x : Selector) : List Bytes := [x.selector]

def NBT.strings (x : NBT) : List Bytes :=
  x.nbt :: x.block.toList ++ x.entity.toList ++ x.storage.toList

def ClickEvent.strings (x : ClickEvent) : List Bytes :=
  x.url.toList ++ x.path.toList ++ x.command.toList ++ x.value.toList

def HoverEvent.strings {T : Type} (x : HoverEvent T) : List Bytes :=
  x.showItem.toList.map (·.id) ++ x.showEntity.toList.map (·.id)

namespace TextComponent

/-- The strings of a component itself. -/
def strings (t : TextComponent) : List Bytes :=
  t.text.toList ++ t.translatable.toList.flatMap (·.strings) ++ t.score.toList.flatMap (·.strings) ++
    t.selector.toList.flatMap (·.strings) ++ t.keybind.toList ++ t.nbt.toList.flatMap (·.strings) ++
    t.color.toList ++ t.font.toList ++ t.insertion.toList ++
    t.clickEvent.toList.flatMap (·.strings) ++ t.hoverEvent.toList.flatMap (·.strings)

/-- The lists of components. -/
def lists (t : TextComponent) : List (List TextComponent) :=
  t.extra :: t.translatable.toList.flatMap (fun x => x.withTexts.toList) ++
    t.hoverEvent.toList.flatMap (fun x =>
      x.value.toList ++ x.showEntity.toList.flatMap (fun y => y.name.toList))

/-- The separators. -/
def separators (t : TextComponent) : List NBTElement :=
  t.selector.toList.flatMap (fun x => x.separator.toList) ++
    t.nbt.toList.flatMap (fun x => x.separator.toList)

/-- The components of an item. -/
def items (t : TextComponent) : List (List NBTElement) :=
  t.hoverEvent.toList.flatMap fun x => x.showItem.toList.flatMap fun y => y.components.toList

/-- Strings are below the bound of NBT, here and in all nested components, and what is NBT
already is well formed. -/
inductive Admitted : TextComponent → Prop
  | intro {t : TextComponent} (hstrings : ∀ bytes ∈ t.strings, Short bytes)
      (hseparators : ∀ separator ∈ t.separators, ∀ element ∈ separator.childElements, Child element)
      (hitems : ∀ elements ∈ t.items, Homogeneous elements)
      (hnested : ∀ texts ∈ t.lists, ∀ text ∈ texts, Admitted text) : Admitted t

/-- Lists are below the bound of NBT, here and in all nested components. -/
inductive Bounded : TextComponent → Prop
  | intro {t : TextComponent} (hlists : ∀ texts ∈ t.lists, texts.length < 2 ^ 32)
      (hitems : ∀ elements ∈ t.items, elements.length < 2 ^ 32)
      (hnested : ∀ texts ∈ t.lists, ∀ text ∈ texts, Bounded text) : Bounded t

/-- The tree of a component is formed, its root has no tag, and an element with this tree is
read from the bytes that are written, and nothing behind them. -/
structure Survives (t : TextComponent) : Prop where
  formed : (tree t.encode).Formed
  tag : (tree t.encode).tag = []
  restores : Restores true (writeTextComponent t) readNBTElement fun element =>
    tree element = tree t.encode

end TextComponent

/-! ### What of it is written -/

theorem forall_toList {α : Type} {P : α → Prop} {value : Option α} :
    (∀ a ∈ value.toList, P a) ↔ ∀ a ∈ value, P a := by
  simp only [Option.mem_toList, Option.mem_def]

theorem forall_getD {α : Type} (P : α → Prop) {value : Option α} {default : α} (hdefault : P default)
    (h : ∀ a ∈ value, P a) : P (value.getD default) := by
  cases value with
  | none => exact hdefault
  | some a => exact h a rfl

namespace TextComponent

variable {t : TextComponent}

/-- What holds of the strings holds of the strings of each part. -/
theorem forall_strings {P : Bytes → Prop} : (∀ bytes ∈ t.strings, P bytes) ↔
    (∀ bytes ∈ t.text, P bytes) ∧ (∀ x ∈ t.translatable, ∀ bytes ∈ x.strings, P bytes) ∧
      (∀ x ∈ t.score, ∀ bytes ∈ x.strings, P bytes) ∧
      (∀ x ∈ t.selector, ∀ bytes ∈ x.strings, P bytes) ∧ (∀ bytes ∈ t.keybind, P bytes) ∧
      (∀ x ∈ t.nbt, ∀ bytes ∈ x.strings, P bytes) ∧ (∀ bytes ∈ t.color, P bytes) ∧
      (∀ bytes ∈ t.font, P bytes) ∧ (∀ bytes ∈ t.insertion, P bytes) ∧
      (∀ x ∈ t.clickEvent, ∀ bytes ∈ x.strings, P bytes) ∧
      ∀ x ∈ t.hoverEvent, ∀ bytes ∈ x.strings, P bytes := by
  simp only [strings, List.forall_mem_append, List.forall_mem_flatMap, forall_toList, and_assoc]

theorem short_content (h : ∀ bytes ∈ t.strings, Short bytes) {T : Type} (withTexts : List T) :
    ∀ bytes ∈ (t.content withTexts).strings, Short bytes := by
  obtain ⟨htext, htranslatable, hscore, hselector, hkeybind, hnbt, -⟩ := forall_strings.mp h
  unfold content
  cases t.contentType with
  | text => simpa [Content.strings] using forall_getD Short (by decide) htext
  | translatable =>
    have hstrings : ∀ bytes ∈ (t.translatable.getD .new).strings, Short bytes :=
      forall_getD (fun x : Translatable TextComponent => ∀ bytes ∈ x.strings, Short bytes)
        (by simp [Translatable.strings, Translatable.new]) htranslatable
    rw [Translatable.strings, List.forall_mem_cons, forall_toList] at hstrings
    exact forall_mem_pair.mpr ⟨hstrings.1, forall_getD Short (by decide) hstrings.2⟩
  | score =>
    exact forall_getD (fun x : Score => ∀ bytes ∈ x.strings, Short bytes)
      (by simp [Score.strings, Score.new]) hscore
  | selector =>
    exact forall_getD (fun x : Selector => ∀ bytes ∈ x.strings, Short bytes)
      (by simp [Selector.strings, Selector.new]) hselector
  | keybind => simpa [Content.strings] using forall_getD Short (by decide) hkeybind
  | nbt =>
    have hstrings : ∀ bytes ∈ (t.nbt.getD .new).strings, Short bytes :=
      forall_getD (fun x : NBT => ∀ bytes ∈ x.strings, Short bytes)
        (by simp [NBT.strings, NBT.new]) hnbt
    simp only [NBT.strings, List.cons_append, List.forall_mem_cons, List.forall_mem_append,
      forall_toList] at hstrings
    obtain ⟨hnbt, ⟨hblock, hentity⟩, hstorage⟩ := hstrings
    refine forall_mem_pair.mpr ⟨?_, hnbt⟩
    unfold NBT.sourcePath
    cases (t.nbt.getD .new).sourceType with
    | block => exact forall_getD Short (by decide) hblock
    | entity => exact forall_getD Short (by decide) hentity
    | storage => exact forall_getD Short (by decide) hstorage

end TextComponent

theorem ClickEvent.short {event : ClickEvent} (h : ∀ bytes ∈ event.strings, Short bytes) :
    ∀ bytes ∈ event.click.strings, Short bytes := by
  simp only [strings, List.forall_mem_append, forall_toList] at h
  obtain ⟨⟨⟨hurl, hpath⟩, hcommand⟩, hvalue⟩ := h
  unfold click
  cases event.actionType with
  | openURL => simpa [Click.strings] using forall_getD Short (by decide) hurl
  | openFile => simpa [Click.strings] using forall_getD Short (by decide) hpath
  | runCommand => simpa [Click.strings] using forall_getD Short (by decide) hcommand
  | suggestCommand => simpa [Click.strings] using forall_getD Short (by decide) hcommand
  | changePage => simp [Click.strings]
  | copyToClipboard => simpa [Click.strings] using forall_getD Short (by decide) hvalue

theorem HoverEvent.short {T T' : Type} {event : HoverEvent T} (h : ∀ bytes ∈ event.strings, Short bytes)
    (value name : Option T') : ∀ bytes ∈ (event.hover value name).strings, Short bytes := by
  simp only [strings, List.forall_mem_append, List.forall_mem_map, forall_toList] at h
  unfold hover
  cases event.actionType with
  | showText => simp [Hover.strings]
  | showItem =>
    simpa [Hover.strings] using forall_getD (fun x : ShowItem => Short x.id) (by decide) h.1
  | showEntity =>
    simpa [Hover.strings] using
      forall_getD (fun x : ShowEntity T => Short x.id) (by simp [ShowEntity.new]) h.2

namespace TextComponent

variable {t text : TextComponent}

theorem short_members (h : ∀ bytes ∈ t.strings, Short bytes) :
    ∀ bytes ∈ t.members.strings, Short bytes := by
  obtain ⟨-, -, -, -, -, -, hcolor, hfont, hinsertion, hclick, hhover⟩ := forall_strings.mp h
  simp only [Members.strings, Style.strings, members, membersOf, style, List.forall_mem_append,
    List.forall_mem_flatMap, forall_toList, Option.mem_def, Option.map_eq_some_iff]
  refine ⟨⟨⟨short_content h _, ⟨hcolor, hfont⟩, hinsertion⟩, ?_⟩, ?_⟩
  · rintro _ ⟨event, hevent, rfl⟩
    exact ClickEvent.short (hclick event hevent)
  · rintro _ ⟨event, hevent, rfl⟩
    exact HoverEvent.short (hhover event hevent) _ _

theorem child_defaultSeparator : ∀ element ∈ defaultSeparator.childElements, Child element := by
  have hnames : ∀ value ∈ [utf8 "text", utf8 "gray", utf8 ", "], Short value := by decide
  simp only [List.forall_mem_cons] at hnames
  simp only [defaultSeparator, compound, List.forall_mem_cons]
  exact ⟨admits_child.named (by decide) hnames.1, admits_child.named (by decide) hnames.2.1,
    admits_child.named (by decide) hnames.2.2.1, by simp⟩

theorem child_separator
    (h : ∀ separator ∈ t.separators, ∀ element ∈ separator.childElements, Child element) :
    ∀ element ∈ t.members.separator, Child element := by
  simp only [separators, List.forall_mem_append, List.forall_mem_flatMap, forall_toList] at h
  have hseparator {separator : Option NBTElement}
      (h : ∀ x ∈ separator, ∀ element ∈ x.childElements, Child element) :
      ∀ element ∈ separatorElements separator, Child element := by
    cases separator with
    | none => exact child_defaultSeparator
    | some element => exact h element rfl
  change ∀ element ∈ (t.content t.withTexts).separator, Child element
  unfold content
  cases t.contentType with
  | selector =>
    refine hseparator (forall_getD (fun x : Selector => ∀ y ∈ x.separator, ∀ element ∈ y.childElements,
      Child element) ?_ h.1)
    simpa [Selector.new] using child_defaultSeparator
  | nbt =>
    refine hseparator (forall_getD (fun x : NBT => ∀ y ∈ x.separator, ∀ element ∈ y.childElements,
      Child element) ?_ h.2)
    simpa [NBT.new] using child_defaultSeparator
  | _ => simp [Content.separator]

theorem item_members (t : TextComponent) : t.members.item = [] ∨ t.members.item ∈ t.items := by
  rw [Members.item, members, membersOf, items]
  cases t.hoverEvent with
  | none => exact .inl rfl
  | some event =>
    have hitem : (event.showItem.getD .new).components.getD [] = [] ∨
        (event.showItem.getD .new).components.getD [] ∈
          event.showItem.toList.flatMap fun y => y.components.toList := by
      rcases event.showItem with _ | ⟨_, _, _ | components⟩
      · exact .inl rfl
      · exact .inl rfl
      · exact .inr (by simp)
    simp only [Option.map_some, Option.toList_some, List.flatMap_singleton, HoverEvent.hover]
    cases event.actionType with
    | showItem => exact hitem
    | _ => exact .inl rfl

theorem lists_members {texts : List TextComponent} (h : texts ∈ t.members.lists) :
    texts = [] ∨ texts ∈ t.lists := by
  have hwith : t.withTexts = [] ∨ t.withTexts ∈ t.lists := by
    rw [withTexts, lists]
    rcases t.translatable with _ | ⟨_, _, _ | texts⟩
    · exact .inl rfl
    · exact .inl rfl
    · exact .inr (by simp)
  have hcontent : (t.content t.withTexts).texts = [] ∨ (t.content t.withTexts).texts = t.withTexts := by
    unfold content
    cases t.contentType <;> simp [Content.texts]
  simp only [Members.lists, members, membersOf, List.mem_cons, List.not_mem_nil, or_false] at h
  rcases h with rfl | rfl
  · rcases hcontent with hempty | heq
    · exact .inl hempty
    · rwa [heq]
  · exact .inr (by simp [lists])

/-- A component that is written stands in one of the lists. -/
theorem exists_lists_of_mem_texts (h : text ∈ t.members.texts) :
    ∃ texts ∈ t.lists, text ∈ texts := by
  rcases mem_texts_members h with h | h | h | h
  · unfold withTexts at h
    rcases htranslatable : t.translatable with _ | ⟨_, _, _ | texts⟩ <;> rw [htranslatable] at h
    · cases h
    · cases h
    · exact ⟨texts, by simp [lists, htranslatable], h⟩
  · exact ⟨t.extra, by simp [lists], h⟩
  · obtain ⟨event, hevent, h⟩ := Option.bind_eq_some_iff.mp (Option.mem_def.mp h)
    obtain ⟨texts, htexts, h⟩ := Option.bind_eq_some_iff.mp h
    exact ⟨texts, by simp [lists, hevent, htexts], List.mem_of_mem_head? h⟩
  · obtain ⟨event, hevent, h⟩ := Option.bind_eq_some_iff.mp (Option.mem_def.mp h)
    obtain ⟨entity, hentity, h⟩ := Option.bind_eq_some_iff.mp h
    obtain ⟨texts, htexts, h⟩ := Option.bind_eq_some_iff.mp h
    exact ⟨texts, by simp [lists, hevent, hentity, htexts], List.mem_of_mem_head? h⟩

theorem Admitted.small {t : TextComponent} (h : t.Admitted) (hb : t.Bounded) : t.Small := by
  induction h with
  | @intro t hstrings hseparators hitems _ ih =>
    cases hb with
    | intro hlists hlengths hnested =>
      refine .intro (short_members hstrings) (fun texts hmem => ?_) (child_separator hseparators) ?_
        fun text hmem => ?_
      · rcases lists_members hmem with rfl | hmem
        · simp
        · exact hlists texts hmem
      · rcases item_members t with hempty | hmem
        · rw [hempty]
          exact Tree.wellFormed_of_fits _ (by decide)
        · exact (hitems _ hmem).wellFormed (hlengths _ hmem)
      · obtain ⟨texts, htexts, hmem⟩ := exists_lists_of_mem_texts hmem
        exact ih texts htexts text hmem (hnested texts htexts text hmem)
/-- A component below the bounds of NBT survives, and the format holds its tree. -/
theorem survives_of_bounded {t : TextComponent} (h : t.Admitted) (hb : t.Bounded) :
    (tree t.encode).WellFormed ∧ t.Survives := by
  have hsmall := h.small hb
  refine ⟨hsmall.wellFormed, hsmall.wellFormed.formed, ?_, ?_⟩
  · rw [tree_tag, encode_tag]
  · exact restores_of_consumes (produces_writeTextComponent (writable_stored true) hsmall)
      (fun _ hn => consumes_readNBTElement hsmall.wellFormed (encode_tag t) hn)
      (tree_decoded hsmall.wellFormed _)

/-- A translation of a bold text, with an extra component that shows an entity of that name. -/
def sampleText : TextComponent := { new with bold := some true }

def sampleEntity : TextComponent :=
  { new with hoverEvent := some ⟨none, none, none, some ⟨some [sampleText], [], none⟩⟩ }

def sampleNested : TextComponent :=
  { new with translatable := some ⟨[37, 115], none, some [sampleText]⟩, extra := [sampleEntity] }

theorem survives_of_bounded_nested :
    (tree sampleNested.encode).WellFormed ∧ sampleNested.Survives := by
  have htext : sampleText.Admitted ∧ sampleText.Bounded := by
    constructor <;> constructor <;> simp [sampleText, new, strings, separators, items, lists]
  have hentity : sampleEntity.Admitted ∧ sampleEntity.Bounded := by
    constructor <;> constructor <;> simp [sampleEntity, new, strings, separators, items, lists,
      HoverEvent.strings, htext.1, htext.2]
  have hnested : sampleNested.Admitted ∧ sampleNested.Bounded := by
    constructor <;> constructor <;> simp [sampleNested, new, strings, separators, items, lists,
      Translatable.strings, hentity.1, hentity.2, htext.1, htext.2]
  exact survives_of_bounded hnested.1 hnested.2

/-! ### A list that is too long -/

/-- A component with `n` empty components behind it. -/
def trailed (n : ℕ) : TextComponent := { new with extra := List.replicate n new }

theorem admitted_new : new.Admitted := by
  constructor <;> simp [new, strings, separators, items, lists]

theorem admitted_trailed (n : ℕ) : (trailed n).Admitted := by
  constructor <;> simp [trailed, new, strings, separators, items, lists]
  exact fun _ => admitted_new

/-- The elements of an empty component. -/
def emptyElements : List NBTElement := [string (utf8 "type") (utf8 "text"), string (utf8 "text") []]

theorem encode_new : new.encode = compound [] emptyElements := by
  rw [encode_eq]
  rfl

theorem encode_trailed (n : ℕ) : (trailed (n + 1)).encode =
    compound [] (emptyElements ++ [list (utf8 "extra") (List.replicate (n + 1) new.encode)]) := by
  rw [encode_eq, encodeAll_eq_map, trailed, List.map_replicate]
  rfl

/-- What is read instead: the second component behind the list closes the root. -/
def shortened : NBTElement :=
  compound [] (emptyElements ++ list (utf8 "extra") [new.encode] :: emptyElements)

theorem wellFormed_shortened : (tree shortened).WellFormed :=
  Tree.wellFormed_of_fits _ (by decide)

theorem formed_trailed (n : ℕ) : (tree (trailed (n + 1)).encode).Formed := by
  have hnew : (tree new.encode).WellFormed := Tree.wellFormed_of_fits _ (by decide)
  have hlist : (tree (list (utf8 "extra") (List.replicate (n + 1) new.encode))).Formed := by
    rw [tree_of_list, List.map_replicate]
    refine .list (fun t ht => ?_) fun t ht => ?_
    · rw [List.eq_of_mem_replicate ht]
      exact ⟨rfl, by decide, rfl⟩
    · rw [List.eq_of_mem_replicate ht]
      exact hnew.formed
  rw [encode_trailed, tree_of_compound]
  have hchildren : ∀ element ∈
      emptyElements ++ [list (utf8 "extra") (List.replicate (n + 1) new.encode)],
      element.type ≠ .endTag ∧ (tree element).Formed := by
    simp only [emptyElements, List.cons_append, List.nil_append, List.forall_mem_cons]
    exact ⟨⟨by decide, .scalar trivial⟩, ⟨by decide, .scalar trivial⟩,
      ⟨by simp [list, blank], hlist⟩, fun _ h => absurd h List.not_mem_nil⟩
  refine .compound (fun t ht => ?_) fun t ht => ?_
  · rcases List.mem_map.mp ht with ⟨element, hmem, rfl⟩
    rw [tree_type]
    exact (hchildren element hmem).1
  · rcases List.mem_map.mp ht with ⟨element, hmem, rfl⟩
    exact (hchildren element hmem).2

/-- The members of a compound behind each other. -/
theorem entries_append {e : Bool} (ts ts' : List Tree) :
    Tree.entries e (ts ++ ts') = Tree.entries e ts ++ Tree.entries e ts' := by
  induction ts with
  | nil => rfl
  | cons t ts ih => rw [List.cons_append, Tree.entries, Tree.entries, ih, List.append_assoc]

/-- If the rest of a number is one, the elements behind the first are not in the list. -/
theorem payload_of_rest {e : Bool} {tag : Bytes} {n : ℕ} (children : List Tree)
    (hn : count32 e (n + 2) = count32 e 1) :
    (Tree.compound [] (children ++
      [.list tag (List.replicate (n + 2) (.compound [] children))])).payload e =
    (Tree.compound [] (children ++ .list tag [.compound [] children] :: children)).payload e ++
      (Tree.payloads e (List.replicate n (.compound [] children)) ++ [0]) := by
  simp [Tree.payload, Tree.payloads, Tree.entries, entries_append, Tree.elementType, Tree.type,
    Tree.tag, List.replicate_succ, hn]

/-- The elements that do not fit in the list are left over. -/
theorem not_survives {n : ℕ} (hn : count32 true (n + 2) = count32 true 1) :
    ¬ (trailed (n + 2)).Survives := by
  intro h
  have hbytes : nbtBytes (trailed (n + 2)).encode = nbtBytes shortened ++
      (Tree.payloads true (List.replicate n (tree new.encode)) ++ [0]) := by
    have htree := @payload_of_rest true (utf8 "extra") n (emptyElements.map tree) hn
    rw [encode_trailed, encode_new, shortened, nbtBytes, nbtBytes]
    simp only [tree_of_compound, tree_of_list, List.map_append, List.map_cons, List.map_nil,
      List.map_replicate, encode_new, htree]
    exact (List.append_assoc _ _ _).symm
  have hwrite := encodeWith_produces_of_head (writable_stored true) (formed_trailed (n + 1))
    (trailed (n + 2)).encode networkSettings _ rfl (fun _ => rfl) rfl
    (encodeHead_produces (writable_stored true) (placed_network (encode_tag _)))
  rw [← nbtBytes, hbytes] at hwrite
  have hread := (restores_iff hwrite fun _ hn =>
    consumes_readNBTElement wellFormed_shortened rfl hn).mp h.restores
  exact absurd hread.1 (by simp)

/-- A number whose rest is one. -/
theorem count32_rest {e : Bool} {n : ℕ} (hn : n + 1 = 2 ^ 32) : count32 e (n + 2) = count32 e 1 := by
  have hrest : BitVec.ofNat 32 (n + 2) = BitVec.ofNat 32 1 := by
    apply BitVec.eq_of_toNat_eq
    rw [BitVec.toNat_ofNat, BitVec.toNat_ofNat]
    omega
  rw [count32, count32, hrest]

theorem not_survives_of_admitted : ¬ ∀ t : TextComponent, t.Admitted → t.Survives := by
  intro h
  obtain ⟨n, hn⟩ : ∃ n, n + 1 = 2 ^ 32 := ⟨2 ^ 32 - 1, by decide⟩
  exact not_survives (count32_rest hn) (h _ (admitted_trailed _))

end TextComponent

end Zinc.Text
