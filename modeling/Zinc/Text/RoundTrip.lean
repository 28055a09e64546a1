import Zinc.Text.Small

/-! What is left of a text component that is encoded and decoded. The type and the
actions are always written, and a type or an action that is found keeps `decode` from
reading what belongs to it; besides, the type that is set is always `Text`. So the
style and the nested components survive, and the content and the payloads of events
do only when they are the defaults. -/

namespace Zinc.Text

open Throw Buffer Buffer.ByteBuffer Nbt Nbt.NBTElement

/-! ### Folds over elements -/

section Folds

variable {σ : Type} {f : σ → NBTElement → Except Fault σ} {s s' s'' : σ}
variable {element : NBTElement} {elements elements' : List NBTElement}

/-- A fold over any elements with the same trees leads from one state to another. -/
def Folds (f : σ → NBTElement → Except Fault σ) (elements : List NBTElement) (s s' : σ) : Prop :=
  ∀ xs : List NBTElement, xs.map tree = elements.map tree → xs.foldlM f s = .ok s'

theorem Folds.nil : Folds f [] s s := by
  intro xs h
  rw [List.map_eq_nil_iff.mp h]
  rfl

theorem Folds.append (h : Folds f elements s s') (h' : Folds f elements' s' s'') :
    Folds f (elements ++ elements') s s'' := by
  intro xs hxs
  rw [List.map_append] at hxs
  rcases List.map_eq_append_iff.mp hxs with ⟨xs₁, xs₂, rfl, h₁, h₂⟩
  rw [List.foldlM_append, h xs₁ h₁, ok_bind, h' xs₂ h₂]

theorem Folds.single (h : ∀ x, tree x = tree element → f s x = .ok s') : Folds f [element] s s' := by
  intro xs hxs
  rcases List.map_eq_cons_iff.mp hxs with ⟨x, rest, rfl, hx, hrest⟩
  rw [List.map_eq_nil_iff.mp hrest, List.foldlM_cons, h x hx, ok_bind, List.foldlM_nil]
  rfl

/-- Elements that a fold does not look at. -/
theorem Folds.ignored (h : ∀ element ∈ elements, ∀ x, tree x = tree element → f s x = .ok s) :
    Folds f elements s s := by
  induction elements with
  | nil => exact Folds.nil
  | cons element elements ih =>
    apply (Folds.single (h element List.mem_cons_self)).append
    exact ih fun element' hmem => h element' (List.mem_cons_of_mem element hmem)

end Folds

/-! ### Elements with a given tree -/

theorem tag_of_tree {x y : NBTElement} (h : tree x = tree y) : x.tag = y.tag := by
  rw [← tree_tag, ← tree_tag, h]

theorem type_of_tree {x y : NBTElement} (h : tree x = tree y) : x.type = y.type := by
  rw [← tree_type, ← tree_type, h]

theorem string_of_tree {x : NBTElement} {tag value : Bytes} (h : tree x = tree (string tag value)) :
    x.tag = tag ∧ x.stringValue = value := by
  refine ⟨tag_of_tree h, ?_⟩
  have htype : x.type = .string := type_of_tree h
  rw [tree_scalar (by rw [htype]; decide) (by rw [htype]; decide)] at h
  have hscalar : x.scalar = .string value := (Tree.scalar.inj h).2
  rw [scalar, htype] at hscalar
  exact Scalar.string.inj hscalar

theorem byte_of_tree {x : NBTElement} {tag : Bytes} {value : UInt8}
    (h : tree x = tree (byte tag value)) : x.tag = tag ∧ x.byteValue = value := by
  refine ⟨tag_of_tree h, ?_⟩
  have htype : x.type = .byte := type_of_tree h
  rw [tree_scalar (by rw [htype]; decide) (by rw [htype]; decide)] at h
  have hscalar : x.scalar = .byte value := (Tree.scalar.inj h).2
  rw [scalar, htype] at hscalar
  exact Scalar.byte.inj hscalar

theorem list_of_tree {x : NBTElement} {tag : Bytes} {children : List NBTElement}
    (h : tree x = tree (list tag children)) :
    x.tag = tag ∧ x.childElements.map tree = children.map tree := by
  refine ⟨tag_of_tree h, ?_⟩
  have htype : x.type = .list := type_of_tree h
  rw [tree_list htype, tree_list rfl] at h
  exact (Tree.list.inj h).2

theorem compound_of_tree {x : NBTElement} {tag : Bytes} {children : List NBTElement}
    (h : tree x = tree (compound tag children)) :
    x.tag = tag ∧ x.childElements.map tree = children.map tree := by
  refine ⟨tag_of_tree h, ?_⟩
  have htype : x.type = .compound := type_of_tree h
  rw [tree_compound htype, tree_compound rfl] at h
  exact (Tree.compound.inj h).2

/-! ### What is left -/

/-- The action without what belongs to it. -/
def ClickEvent.stripped (event : ClickEvent) : ClickEvent :=
  { ClickEvent.new with action := some event.actionType }

def HoverEvent.stripped {T U : Type} (event : HoverEvent T) : HoverEvent U :=
  { HoverEvent.new with
    action := some event.actionType
    showItem := if event.actionType = .showItem then some .new else none
    showEntity := if event.actionType = .showEntity then some .new else none }

namespace TextComponent

/-- The members of the content that `decode` sets although it reads none of them. -/
def strippedContent (t : TextComponent) : TextComponent :=
  { new with
    type := some .text
    translatable := if t.contentType = .translatable then some .new else none
    score := if t.contentType = .score then some .new else none
    selector := if t.contentType = .selector then some ⟨[], some (.new .new)⟩ else none
    nbt := if t.contentType = .nbt then some { NBT.new with separator := some (.new .new) } else none }

/-- What is left of a component, given what is left of the nested ones. -/
def strippedWith (t : TextComponent) (extra : List TextComponent) : TextComponent :=
  { t.strippedContent with
    color := t.color
    font := t.font
    bold := t.bold
    italic := t.italic
    underlined := t.underlined
    strikethrough := t.strikethrough
    obfuscated := t.obfuscated
    extra := extra
    insertion := t.insertion
    clickEvent := t.clickEvent.map ClickEvent.stripped
    hoverEvent := t.hoverEvent.map HoverEvent.stripped }

mutual

def stripped : TextComponent → TextComponent
  | t@⟨_, _, _, _, _, _, _, _, _, _, _, _, _, _, extra, _, _, _⟩ => t.strippedWith (strippedAll extra)

def strippedAll : List TextComponent → List TextComponent
  | [] => []
  | text :: texts => stripped text :: strippedAll texts

end

theorem strippedAll_eq_map (texts : List TextComponent) : strippedAll texts = texts.map stripped := by
  induction texts with
  | nil => rfl
  | cons text texts ih => rw [strippedAll, ih, List.map_cons]

theorem stripped_eq (t : TextComponent) : t.stripped = t.strippedWith (t.extra.map stripped) := by
  rw [← strippedAll_eq_map]
  rcases t with ⟨_, _, _, _, _, _, _, _, _, _, _, _, _, _, _, _, _, _⟩
  rfl

/-- The encoded nested components fit the format. -/
inductive Fits : TextComponent → Prop
  | intro {t : TextComponent} (hextra : ∀ text ∈ t.extra, Fits text)
      (htree : ∀ text ∈ t.extra, (tree text.encode).WellFormed) : Fits t

end TextComponent

/-! ### Decoding what was encoded -/

theorem lastString_action {action : String} {rest xs : List NBTElement}
    (hrest : ∀ element ∈ rest, element.tag ≠ utf8 "action")
    (hxs : xs.map tree = (string (utf8 "action") (utf8 action) :: rest).map tree) :
    lastString "action" xs = utf8 action := by
  rcases List.map_eq_cons_iff.mp hxs with ⟨x, ys, rfl, hx, hys⟩
  have hkeep : ∀ ys : List NBTElement, (∀ y ∈ ys, y.tag ≠ utf8 "action") → ∀ found,
      ys.foldl (fun found element => if element.tag = utf8 "action" then element.stringValue else found)
        found = found := by
    intro ys
    induction ys with
    | nil => exact fun _ _ => rfl
    | cons y ys ih =>
      intro h found
      rw [List.foldl_cons, if_neg (h y List.mem_cons_self)]
      exact ih (fun z hz => h z (List.mem_cons_of_mem y hz)) found
  rcases string_of_tree hx with ⟨htag, hvalue⟩
  rw [lastString, List.foldl_cons, if_pos htag, hvalue]
  apply hkeep
  intro y hy htag'
  have hmem : tree y ∈ rest.map tree := hys ▸ List.mem_map_of_mem hy
  rcases List.mem_map.mp hmem with ⟨element, helement, htree⟩
  exact hrest element helement ((tag_of_tree htree).trans htag')

theorem ClickAction.ofName_name (action : ClickAction) :
    ClickAction.ofName (utf8 action.name) = some action := by
  cases action <;> simp [ClickAction.ofName, ClickAction.name]

theorem ClickEvent.decode_of_tree {event : ClickEvent} {x : NBTElement}
    (h : tree x = tree event.encode) : ClickEvent.decode x = event.stripped := by
  have hpayload : ∀ element ∈ [event.payload], element.tag ≠ utf8 "action" := by
    unfold ClickEvent.payload
    split <;> simp
  have haction := lastString_action hpayload (compound_of_tree h).2
  have hne : utf8 event.actionType.name ≠ [] := by
    rw [show ([] : Bytes) = utf8 "" from rfl, Ne, utf8_inj]
    cases event.actionType <;> decide
  rw [ClickEvent.decode, haction, if_neg hne]
  simp only [ClickAction.ofName_name]
  rfl

theorem HoverEvent.payload_tag {T : Type} (event : HoverEvent T) (value name : Option NBTElement) :
    ∀ element ∈ event.payload value name, element.tag ≠ utf8 "action" := by
  intro element hmem
  unfold HoverEvent.payload listElements at hmem
  split at hmem
  · cases value <;> simp_all
  · simp only [List.mem_append, List.mem_singleton, List.mem_map] at hmem
    rcases hmem with (rfl | ⟨count, -, rfl⟩) | hlist
    · simp
    · simp
    · split at hlist <;> simp_all
  · simp only [List.mem_append, List.mem_singleton, List.mem_map] at hmem
    rcases hmem with (rfl | ⟨text, -, rfl⟩) | ⟨uuid, -, rfl⟩ <;> simp

theorem HoverDecoding.decode_of_tree {T : Type} {event : HoverEvent T} {value name : Option NBTElement}
    {x : NBTElement} (decodeText : NBTElement → Except Fault TextComponent)
    (h : tree x = tree (event.encode value name)) :
    HoverDecoding.decode decodeText x = .ok event.stripped := by
  have haction := lastString_action (event.payload_tag value name) (compound_of_tree h).2
  have hne : utf8 event.actionType.name ≠ [] := by
    rw [show ([] : Bytes) = utf8 "" from rfl, Ne, utf8_inj]
    cases event.actionType <;> decide
  rw [HoverDecoding.decode, haction, if_neg hne]
  cases haction' : event.actionType <;>
    simp [HoverDecoding.result, HoverAction.name, HoverEvent.stripped, haction', HoverEvent.new,
      ShowItem.new, ShowEntity.new]

namespace TextComponent

variable {d : NBTElement → Except Fault TextComponent} {s t : TextComponent} {typeString : Bytes}

/-- The tags of the content. -/
def contentTags : List String :=
  ["text", "translate", "fallback", "with", "score", "selector", "separator", "keybind", "source",
    "block", "entity", "storage", "nbt", "interpret"]

theorem contentElements_tag (t : TextComponent) (elements : List NBTElement) :
    ∀ element ∈ t.contentElements elements, ∃ tag ∈ contentTags, element.tag = utf8 tag := by
  intro element hmem
  unfold contentElements listElements separatorElement NBT.sourceElements at hmem
  split at hmem
  · simp_all [contentTags]
  · simp only [List.mem_append, List.mem_cons, List.not_mem_nil, or_false] at hmem
    rcases hmem with (rfl | rfl) | hwith
    · simp [contentTags]
    · simp [contentTags]
    · split at hwith <;> simp_all [contentTags]
  · simp_all [contentTags]
  · simp only [List.mem_cons, List.not_mem_nil, or_false] at hmem
    rcases hmem with rfl | rfl <;> simp [contentTags]
  · simp_all [contentTags]
  · simp only [List.mem_append, List.mem_singleton, List.mem_map] at hmem
    rcases hmem with ((hsource | rfl) | ⟨value, -, rfl⟩) | rfl
    · split at hsource <;> simp only [List.mem_cons, List.not_mem_nil, or_false] at hsource <;>
        rcases hsource with rfl | rfl <;> simp [contentTags]
    all_goals simp [contentTags]

/-- The first pass does not look at the content. -/
theorem decodeMember_content {x : NBTElement} (h : ∃ tag ∈ contentTags, x.tag = utf8 tag)
    (s : TextComponent × Bytes) : decodeMember d s x = .ok s := by
  rcases h with ⟨tag, hmem, htag⟩
  simp only [contentTags, List.mem_cons, List.not_mem_nil, or_false] at hmem
  rcases hmem with rfl | rfl | rfl | rfl | rfl | rfl | rfl | rfl | rfl | rfl | rfl | rfl | rfl | rfl <;>
    simp [decodeMember, htag]

theorem folds_optionalString (tag : String) (set : TextComponent → Option Bytes → TextComponent)
    (hset : ∀ s typeString x, x.tag = utf8 tag →
      decodeMember d (s, typeString) x = .ok (set s (some x.stringValue), typeString))
    (hnone : set s none = s) (value : Option Bytes) :
    Folds (decodeMember d) (optionalString tag value) (s, typeString) (set s value, typeString) := by
  cases value with
  | none =>
    rw [hnone]
    exact Folds.nil
  | some value =>
    refine Folds.single fun x hx => ?_
    rcases string_of_tree hx with ⟨htag, hvalue⟩
    rw [hset s typeString x htag, hvalue]

theorem folds_optionalFlag (tag : String) (set : TextComponent → Option Bool → TextComponent)
    (hset : ∀ s typeString x, x.tag = utf8 tag →
      decodeMember d (s, typeString) x = .ok (set s (some (x.byteValue ≠ 0)), typeString))
    (hnone : set s none = s) (value : Option Bool) :
    Folds (decodeMember d) (optionalFlag tag value) (s, typeString) (set s value, typeString) := by
  cases value with
  | none =>
    rw [hnone]
    exact Folds.nil
  | some value =>
    refine Folds.single fun x hx => ?_
    rcases byte_of_tree hx with ⟨htag, hvalue⟩
    rw [hset s typeString x htag, hvalue]
    cases value <;> rfl

theorem mapM_of_tree {texts : List TextComponent}
    (h : ∀ text ∈ texts, ∀ x, tree x = tree text.encode → d x = .ok text.stripped) {xs : List NBTElement}
    (hxs : xs.map tree = (encodeAll texts).map tree) : xs.mapM d = .ok (texts.map stripped) := by
  induction texts generalizing xs with
  | nil =>
    rw [List.map_eq_nil_iff.mp hxs]
    rfl
  | cons text texts ih =>
    rcases List.map_eq_cons_iff.mp hxs with ⟨x, ys, rfl, hx, hys⟩
    have hrest := ih (fun text' hmem => h text' (List.mem_cons_of_mem text hmem)) hys
    rw [List.mapM_cons, h text List.mem_cons_self x hx, ok_bind, hrest]
    rfl

theorem folds_extra {texts : List TextComponent}
    (h : ∀ text ∈ texts, ∀ x, tree x = tree text.encode → d x = .ok text.stripped)
    (hextra : s.extra = []) :
    Folds (decodeMember d) (listElements "extra" (encodeAll texts)) (s, typeString)
      ({ s with extra := texts.map stripped }, typeString) := by
  unfold listElements
  cases texts with
  | nil =>
    have hs : { s with extra := [] } = s := by
      cases s
      simp_all
    rw [encodeAll, List.map_nil, hs]
    exact Folds.nil
  | cons text texts =>
    rw [if_neg (by rw [encodeAll]; simp)]
    refine Folds.single fun x hx => ?_
    rcases list_of_tree hx with ⟨htag, hchildren⟩
    have hmap := mapM_of_tree h hchildren
    simp [decodeMember, htag, hmap, hextra]

theorem folds_click (event : Option ClickEvent) (hclick : s.clickEvent = none) :
    Folds (decodeMember d) (event.toList.map ClickEvent.encode) (s, typeString)
      ({ s with clickEvent := event.map ClickEvent.stripped }, typeString) := by
  cases event with
  | none =>
    have hs : { s with clickEvent := none } = s := by
      cases s
      simp_all
    rw [Option.map_none, hs]
    exact Folds.nil
  | some event =>
    refine Folds.single fun x hx => ?_
    have htag : x.tag = utf8 "click_event" := tag_of_tree hx
    simp [decodeMember, htag, ClickEvent.decode_of_tree hx]

theorem folds_hover (t : TextComponent) (hhover : s.hoverEvent = none) :
    Folds (decodeMember d) t.hoverElements (s, typeString)
      ({ s with hoverEvent := t.hoverEvent.map HoverEvent.stripped }, typeString) := by
  unfold hoverElements
  cases t.hoverEvent with
  | none =>
    have hs : { s with hoverEvent := none } = s := by
      cases s
      simp_all
    rw [Option.map_none, hs]
    exact Folds.nil
  | some event =>
    refine Folds.single fun x hx => ?_
    have htag : x.tag = utf8 "hover_event" := tag_of_tree hx
    simp [decodeMember, htag, HoverDecoding.decode_of_tree d hx]

/-- All members of a component that is encoded. -/
theorem folds_encode (t : TextComponent)
    (h : ∀ text ∈ t.extra, ∀ x, tree x = tree text.encode → d x = .ok text.stripped) :
    Folds (decodeMember d) t.encode.childElements (new, [])
      ({ t.strippedWith (t.extra.map stripped) with
          type := none, translatable := none, score := none, selector := none, nbt := none },
        utf8 t.contentType.name) := by
  have htype : Folds (decodeMember d) [string (utf8 "type") (utf8 t.contentType.name)] (new, [])
      (new, utf8 t.contentType.name) := by
    refine Folds.single fun x hx => ?_
    rcases string_of_tree hx with ⟨htag, hvalue⟩
    simp [decodeMember, htag, hvalue]
  have hignored : Folds (decodeMember d) (t.contentElements t.withElements)
      (new, utf8 t.contentType.name) (new, utf8 t.contentType.name) := by
    apply Folds.ignored
    intro element hmem x hx
    apply decodeMember_content
    rw [tag_of_tree hx]
    exact contentElements_tag t _ element hmem
  have hcontent := htype.append hignored
  have hextra := hcontent.append (@folds_extra d new (utf8 t.contentType.name) t.extra h rfl)
  have hcolor := hextra.append (folds_optionalString "color" (fun s value => { s with color := value })
    (fun s typeString x htag => by simp [decodeMember, htag]) rfl t.color)
  have hfont := hcolor.append (folds_optionalString "font" (fun s value => { s with font := value })
    (fun s typeString x htag => by simp [decodeMember, htag]) rfl t.font)
  have hbold := hfont.append (folds_optionalFlag "bold" (fun s value => { s with bold := value })
    (fun s typeString x htag => by simp [decodeMember, htag]) rfl t.bold)
  have hitalic := hbold.append (folds_optionalFlag "italic" (fun s value => { s with italic := value })
    (fun s typeString x htag => by simp [decodeMember, htag]) rfl t.italic)
  have hunderlined := hitalic.append (folds_optionalFlag "underlined"
    (fun s value => { s with underlined := value })
    (fun s typeString x htag => by simp [decodeMember, htag]) rfl t.underlined)
  have hstrikethrough := hunderlined.append (folds_optionalFlag "strikethrough"
    (fun s value => { s with strikethrough := value })
    (fun s typeString x htag => by simp [decodeMember, htag]) rfl t.strikethrough)
  have hobfuscated := hstrikethrough.append (folds_optionalFlag "obfuscated"
    (fun s value => { s with obfuscated := value })
    (fun s typeString x htag => by simp [decodeMember, htag]) rfl t.obfuscated)
  have hinsertion := hobfuscated.append (folds_optionalString "insertion"
    (fun s value => { s with insertion := value })
    (fun s typeString x htag => by simp [decodeMember, htag]) rfl t.insertion)
  have hall : Folds (decodeMember d) _ (new, [])
      ({ t.strippedWith (t.extra.map stripped) with
          type := none, translatable := none, score := none, selector := none, nbt := none },
        utf8 t.contentType.name) :=
    (hinsertion.append (folds_click t.clickEvent rfl)).append (folds_hover t rfl)
  rw [encode_eq]
  simpa [styleElements, compound, List.append_assoc] using hall

/-- The second pass finds a type, so it reads nothing. -/
theorem decode_content (t : TextComponent) (x : NBTElement) (extra : List TextComponent) :
    ContentDecoding.decode d x
        { t.strippedWith extra with
          type := none, translatable := none, score := none, selector := none, nbt := none }
        (utf8 t.contentType.name) = .ok (t.strippedWith extra) := by
  have hne : utf8 t.contentType.name ≠ [] := by
    rw [show ([] : Bytes) = utf8 "" from rfl, Ne, utf8_inj]
    cases t.contentType <;> decide
  rw [ContentDecoding.decode, if_neg hne, ContentDecoding.result]
  cases htype : t.contentType <;>
    simp [ContentType.name, strippedWith, strippedContent, htype, Translatable.new, Score.new, Selector.new,
      NBT.new]

theorem decode_of_nested {n : ℕ} {x : NBTElement} (hx : tree x = tree t.encode)
    (h : ∀ text ∈ t.extra, ∀ x, tree x = tree text.encode →
      decodeNested n (decode n) x = .ok text.stripped) :
    decode (n + 1) x new = .ok t.stripped := by
  have hchildren : x.childElements.map tree = t.encode.childElements.map tree := by
    rw [encode_eq] at hx ⊢
    exact (compound_of_tree hx).2
  rw [decode]
  simp only [folds_encode t h _ hchildren, ok_bind, decode_content, stripped_eq]

/-- A nested component that fits the format is read as its tree. -/
theorem decodeNested_of_tree {n : ℕ} {text : TextComponent} {x : NBTElement}
    (htree : (tree text.encode).WellFormed) (hx : tree x = tree text.encode)
    (hn : fuel (tree text.encode) ≤ n) (f : NBTElement → TextComponent → Except Fault TextComponent)
    (h : ∀ y, tree y = tree text.encode → f y new = .ok text.stripped) :
    decodeNested n f x = .ok text.stripped := by
  have htag : (tree text.encode).tag = [] := by rw [tree_tag, encode_eq]; rfl
  have htype : (tree text.encode).type = .compound := by rw [tree_type, encode_eq]; rfl
  have hplaced : Placed true networkSettings (tree text.encode) :=
    ⟨fun _ => ⟨rfl, htag⟩, fun harray => absurd harray (by decide), fun _ => rfl⟩
  rcases encodeWith_produces (writable_stored true) htree x networkSettings hx hplaced .new []
    ⟨InternalByteBuffer.holds_new, rfl⟩ with ⟨buffer, hwrite, hstored⟩
  rcases decode_consumes htree networkSettings n hplaced
    (fun hend => absurd (htype.symm.trans hend) (by decide)) hn buffer [] (by simpa using hstored) with
    ⟨buffer', hread, -⟩
  unfold decodeNested
  rw [show writeNBTElement x .new = _ from hwrite, ok_bind]
  simp only [show readNBTElement n buffer = _ from hread, ok_bind]
  exact h _ (tree_decoded htree _)

/-- What decoding makes of an encoded component, by induction on the nesting. -/
theorem decode_stripped (h : t.Fits) :
    ∃ bound, ∀ n ≥ bound, ∀ x, tree x = tree t.encode → decode n x new = .ok t.stripped := by
  induction h with
  | @intro t hextra htree ih =>
    rcases exists_bound (P := fun text n => ∀ x, tree x = tree text.encode →
      decode n x new = .ok text.stripped) t.extra ih with ⟨bound, hbound⟩
    rcases exists_bound (P := fun text n => fuel (tree text.encode) ≤ n) t.extra
      fun text _ => ⟨fuel (tree text.encode), fun n hn => hn⟩ with ⟨bound', hbound'⟩
    refine ⟨max bound bound' + 1, fun n hn x hx => ?_⟩
    obtain ⟨n, rfl⟩ : ∃ m, n = m + 1 := ⟨n - 1, by omega⟩
    apply decode_of_nested hx
    intro text hmem y hy
    apply decodeNested_of_tree (htree text hmem) hy (hbound' text hmem n (by omega))
    exact hbound text hmem n (by omega)

/-! ### What survives -/

/-- The nested components encode to the same elements. -/
theorem stripped_extra (t : TextComponent) : t.stripped.extra = t.extra.map stripped := by
  rw [stripped_eq]
  rfl

theorem stripped_encode (t : TextComponent) : t.stripped.encode = .compound []
    (.string (utf8 "type") (utf8 "text") :: [.string (utf8 "text") []] ++
      listElements "extra" (t.extra.map fun text => text.stripped.encode) ++ t.styleElements ++
      (t.clickEvent.toList.map fun event => event.stripped.encode) ++
      (t.hoverEvent.toList.map fun event =>
        (event.stripped : HoverEvent TextComponent).encode none none)) := by
  rw [encode_eq, stripped_extra, encodeAll_eq_map, List.map_map, stripped_eq]
  congr 2
  · congr 1
    cases hclick : t.clickEvent <;> simp [strippedWith, hclick]
  · unfold hoverElements
    cases hevent : t.hoverEvent with
    | none => simp [strippedWith, hevent]
    | some event =>
      cases haction : event.actionType <;>
        simp [strippedWith, hevent, HoverEvent.stripped, haction, HoverEvent.new, ShowEntity.new]

end TextComponent

/-- Nothing but the action and defaults. -/
def ClickEvent.Bare (event : ClickEvent) : Prop :=
  match event.actionType with
  | .openURL => event.url.getD (utf8 "www.example.com") = utf8 "www.example.com"
  | .openFile => event.path.getD [] = []
  | .runCommand => event.command.getD (utf8 "/say hi") = utf8 "/say hi"
  | .suggestCommand => event.command.getD (utf8 "/say hi") = utf8 "/say hi"
  | .changePage => event.page.getD 0 = 0
  | .copyToClipboard => event.value.getD [] = []

def HoverEvent.Bare {T : Type} (event : HoverEvent T) : Prop :=
  match event.actionType with
  | .showText => event.value.getD [] = []
  | .showItem =>
    let item := event.showItem.getD .new
    item.id = [] ∧ item.count = none ∧ item.components.getD [] = []
  | .showEntity =>
    let entity := event.showEntity.getD .new
    entity.id = [] ∧ entity.name.getD [] = [] ∧ entity.uuid = none

theorem ClickEvent.bare_iff (event : ClickEvent) :
    tree event.encode = tree event.stripped.encode ↔ event.Bare := by
  have haction : event.stripped.actionType = event.actionType := rfl
  unfold ClickEvent.encode ClickEvent.payload ClickEvent.Bare
  rw [haction]
  cases event.actionType <;> simp [ClickEvent.stripped, ClickEvent.new]

/-- The tree of an encoded component under another tag. -/
theorem tree_retag (tag : String) (text : TextComponent) :
    tree (retag tag text.encode) = .compound (utf8 tag) (text.encode.childElements.map tree) := by
  rw [TextComponent.encode_eq]
  exact tree_compound rfl

theorem head?_encodeAll (texts : Option (List TextComponent)) :
    (texts.bind fun texts => (TextComponent.encodeAll texts).head?) =
      (texts.getD []).head?.map TextComponent.encode := by
  cases texts with
  | none => rfl
  | some texts => cases texts <;> simp [TextComponent.encodeAll]

theorem HoverEvent.bare_iff (event : HoverEvent TextComponent) :
    tree (event.encode (event.value.bind fun texts => (TextComponent.encodeAll texts).head?)
        (event.showEntity.bind fun entity =>
          entity.name.bind fun texts => (TextComponent.encodeAll texts).head?)) =
      tree ((event.stripped : HoverEvent TextComponent).encode none none) ↔ event.Bare := by
  have haction : (event.stripped : HoverEvent TextComponent).actionType = event.actionType := rfl
  unfold HoverEvent.encode HoverEvent.payload HoverEvent.Bare
  rw [haction, head?_encodeAll]
  cases htype : event.actionType with
  | showText =>
    cases hvalue : event.value.getD [] <;> simp [tree_retag]
  | showItem =>
    cases (event.showItem.getD .new).count <;>
      cases (event.showItem.getD .new).components.getD [] <;>
      simp [HoverEvent.stripped, htype, ShowItem.new, listElements]
  | showEntity =>
    rcases hentity : event.showEntity with _ | ⟨_ | _ | _, id, _ | uuid⟩ <;>
      simp [HoverEvent.stripped, htype, ShowEntity.new, TextComponent.encodeAll, tree_retag]

namespace TextComponent

variable {t : TextComponent}

/-- An empty text whose events and nested components keep nothing back. -/
inductive Kept : TextComponent → Prop
  | intro {t : TextComponent} (hcontent : t.contentType = .text) (htext : t.text.getD [] = [])
      (hclick : ∀ event ∈ t.clickEvent, event.Bare) (hhover : ∀ event ∈ t.hoverEvent, event.Bare)
      (hextra : ∀ text ∈ t.extra, Kept text) : Kept t

/-- Decoding what `encode` makes gives a component that encodes to the same tree. -/
def RoundTrips (t : TextComponent) : Prop :=
  ∃ bound, ∀ n ≥ bound, ∃ t', decode n t.encode new = .ok t' ∧ tree t'.encode = tree t.encode

theorem map_listElements (tag : String) (elements : List NBTElement) :
    (listElements tag elements).map tree =
      if elements.isEmpty then [] else [.list (utf8 tag) (elements.map tree)] := by
  unfold listElements
  split <;> simp

theorem extra_iff (texts : List TextComponent) :
    (listElements "extra" (texts.map encode)).map tree =
        (listElements "extra" (texts.map fun text => text.stripped.encode)).map tree ↔
      ∀ text ∈ texts, tree text.encode = tree text.stripped.encode := by
  rw [map_listElements, map_listElements]
  cases texts with
  | nil => simp
  | cons text texts => simp [List.map_inj_left]

theorem click_iff (event : Option ClickEvent) :
    (event.toList.map ClickEvent.encode).map tree =
        (event.toList.map fun event => event.stripped.encode).map tree ↔
      ∀ event' ∈ event, event'.Bare := by
  cases event with
  | none => simp
  | some event => simp [ClickEvent.bare_iff]

theorem hover_iff (t : TextComponent) :
    t.hoverElements.map tree = (t.hoverEvent.toList.map fun event =>
        (event.stripped : HoverEvent TextComponent).encode none none).map tree ↔
      ∀ event ∈ t.hoverEvent, event.Bare := by
  unfold hoverElements
  cases t.hoverEvent with
  | none => simp
  | some event => simp [HoverEvent.bare_iff]

theorem ContentType.name_eq {type : ContentType} : type.name = "text" ↔ type = .text := by
  cases type <;> simp [ContentType.name]

/-- One level of the nesting. -/
theorem tree_stripped_iff (t : TextComponent) : tree t.encode = tree t.stripped.encode ↔
    t.contentType = .text ∧ t.text.getD [] = [] ∧
      (∀ text ∈ t.extra, tree text.encode = tree text.stripped.encode) ∧
      (∀ event ∈ t.clickEvent, event.Bare) ∧ ∀ event ∈ t.hoverEvent, event.Bare := by
  rw [encode_eq, stripped_encode, ← extra_iff, ← click_iff, ← hover_iff, encodeAll_eq_map]
  simp only [tree_of_compound, List.map_append, List.map_cons, List.cons_append, List.append_assoc,
    Tree.compound.injEq, true_and, List.cons.injEq, List.nil_append]
  constructor
  · rintro ⟨htype, h⟩
    have hcontent : t.contentType = .text := by
      simpa [ContentType.name_eq] using htype
    rw [contentElements, hcontent] at h
    simp only [List.map_cons, List.map_nil, List.cons_append, List.nil_append, List.cons.injEq] at h
    rcases h with ⟨htext, h⟩
    rcases List.append_inj h (by simp [map_listElements]; split <;> simp) with ⟨hextra, h⟩
    rcases List.append_inj (List.append_cancel_left h) (by simp) with ⟨hclick, hhover⟩
    refine ⟨hcontent, by simpa using htext, hextra, hclick, hhover⟩
  · rintro ⟨hcontent, htext, hextra, hclick, hhover⟩
    rw [contentElements, hcontent, htext, hextra, hclick, hhover]
    exact ⟨rfl, rfl⟩

theorem Kept.tree_eq (h : t.Kept) : tree t.encode = tree t.stripped.encode := by
  induction h with
  | @intro t hcontent htext hclick hhover _ ih =>
    exact (tree_stripped_iff t).mpr ⟨hcontent, htext, ih, hclick, hhover⟩

theorem kept_of_tree (h : t.Fits) (htree : tree t.encode = tree t.stripped.encode) : t.Kept := by
  induction h with
  | @intro t _ _ ih =>
    rcases (tree_stripped_iff t).mp htree with ⟨hcontent, htext, hextra, hclick, hhover⟩
    exact .intro hcontent htext hclick hhover fun text hmem => ih text hmem (hextra text hmem)

/-- A component that comes back has nothing that decoding would read. -/
theorem RoundTrips.kept (hrun : t.RoundTrips) (h : t.Fits) : t.Kept := by
  rcases decode_stripped h with ⟨bound, hbound⟩
  rcases hrun with ⟨bound', hrun⟩
  rcases hrun (max bound bound') (le_max_right _ _) with ⟨t', ht', htree⟩
  have hdecode := hbound (max bound bound') (le_max_left _ _) t.encode rfl
  obtain rfl : t' = t.stripped := Except.ok.inj (ht'.symm.trans hdecode)
  exact kept_of_tree h htree.symm

theorem Small.fits (h : t.Small) : t.Fits := by
  induction h with
  | @intro t _ _ _ _ hnested ih =>
    have hextra (text : TextComponent) (hmem : text ∈ t.extra) : text ∈ t.members.texts := by
      simp [Members.texts, members, membersOf, hmem]
    exact .intro (fun text hmem => ih text (hextra text hmem)) fun text hmem =>
      (hnested text (hextra text hmem)).wellFormed

/-- A component whose nested components are small survives exactly when decoding has
nothing to read. -/
theorem roundTrips_iff (h : ∀ text ∈ t.extra, text.Small) : t.RoundTrips ↔ t.Kept := by
  have hfits : t.Fits :=
    .intro (fun text hmem => (h text hmem).fits) fun text hmem => (h text hmem).wellFormed
  constructor
  · exact fun hrun => hrun.kept hfits
  · intro hkept
    rcases decode_stripped hfits with ⟨bound, hbound⟩
    exact ⟨bound, fun n hn => ⟨t.stripped, hbound n hn t.encode rfl, hkept.tree_eq.symm⟩⟩

/-- A red component without a text around a bold one. -/
def sample : TextComponent :=
  { new with color := some (utf8 "red"), extra := [{ new with bold := some true }] }

theorem roundTrips_sample : sample.RoundTrips ↔ sample.Kept := by
  apply roundTrips_iff
  intro text hmem
  rw [List.mem_singleton.mp hmem]
  refine .intro ?_ ?_ ?_ ?_ ?_
  · decide
  · decide
  · exact fun element hmem => absurd hmem List.not_mem_nil
  · exact Tree.wellFormed_of_fits _ (by decide)
  · exact fun text hmem => absurd hmem List.not_mem_nil

/-- A text is lost. -/
theorem not_roundTrips : ¬ ∀ t : TextComponent, t.RoundTrips := by
  intro h
  have hfits : Fits { new with text := some (utf8 "a") } :=
    .intro (fun text hmem => absurd hmem List.not_mem_nil) fun text hmem => absurd hmem List.not_mem_nil
  cases (h _).kept hfits with
  | intro _ htext => exact absurd htext (by decide)

end TextComponent

end Zinc.Text
