import Zinc.Text.Codec

/-! Chat types: a decoration for the chat and one for the narrator. The writer of a chat type
writes the parameters of the chat in both decorations, and the reader reads each decoration with
parameters of its own; so the narrator's parameters come back as the chat's. -/

namespace Zinc.Game

open Throw Buffer Buffer.ByteBuffer Nbt Nbt.NBTElement Text

/-- `ChatTypeDecoration::Parameter`; a cast makes one of any `int`. -/
inductive Parameter where
  | sender
  | target
  | content
  | other (value : BitVec 32) (h : 2 < value.toNat)

namespace Parameter

def toInt : Parameter → BitVec 32
  | sender => 0
  | target => 1
  | content => 2
  | other value _ => value

def ofInt (value : BitVec 32) : Parameter :=
  if value = 0 then sender
  else if value = 1 then target
  else if value = 2 then content
  else if h : 2 < value.toNat then other value h
  else sender

theorem ofInt_toInt (parameter : Parameter) : ofInt parameter.toInt = parameter := by
  cases parameter with
  | sender | target | content => rfl
  | other value h =>
    have hne : ∀ n : BitVec 32, n.toNat ≤ 2 → value ≠ n := by
      rintro n hn rfl
      omega
    rw [toInt, ofInt, if_neg (hne 0 (by decide)), if_neg (hne 1 (by decide)),
      if_neg (hne 2 (by decide)), dif_pos h]

end Parameter

structure ChatTypeDecoration where
  translationKey : Bytes
  parameters : List Parameter
  style : NBTElement

structure ChatType where
  chat : ChatTypeDecoration
  narration : ChatTypeDecoration

def writeChatType (chatType : ChatType) : Action Unit := do
  writeString chatType.chat.translationKey
  writePrefixedArray (chatType.chat.parameters.map Parameter.toInt) writeVarInt
  writeNBTElement chatType.chat.style
  writeString chatType.narration.translationKey
  -- the parameters of the chat once more
  writePrefixedArray (chatType.chat.parameters.map Parameter.toInt) writeVarInt
  writeNBTElement chatType.narration.style

/-- One half of `readChatType`. -/
def readDecoration (n : ℕ) : Action ChatTypeDecoration := do
  let translationKey ← readString
  let parameters ← readPrefixedArray readVarInt
  let style ← readNBTElement n
  pure ⟨translationKey, parameters.map Parameter.ofInt, style⟩

def readChatType (n : ℕ) : Action ChatType := do
  let chat ← readDecoration n
  let narration ← readDecoration n
  pure ⟨chat, narration⟩

/-- The fields of a decoration; a style is the tree that it stands for. -/
def ChatTypeDecoration.Agrees (decoration decoration' : ChatTypeDecoration) : Prop :=
  decoration'.translationKey = decoration.translationKey ∧
    decoration'.parameters = decoration.parameters ∧
    tree decoration'.style = tree decoration.style

def ChatType.Agrees (chatType chatType' : ChatType) : Prop :=
  chatType.chat.Agrees chatType'.chat ∧ chatType.narration.Agrees chatType'.narration

/-- A style that NBT can hold, without a tag. -/
def ChatTypeDecoration.Styled (decoration : ChatTypeDecoration) : Prop :=
  (tree decoration.style).WellFormed ∧ decoration.style.tag = []

/-- An `int` can announce the key and the parameters. -/
def ChatTypeDecoration.Sized (decoration : ChatTypeDecoration) : Prop :=
  decoration.translationKey.length < 2 ^ 31 ∧ Counted decoration.parameters.length

/-! ### Decorations -/

namespace ChatTypeDecoration

variable {view : ByteBuffer → Bytes → Prop} {decoration : ChatTypeDecoration}

/-- The word of a decoration. -/
def bytes (decoration : ChatTypeDecoration) : Bytes :=
  stringBytes decoration.translationKey ++
    (prefixedBytes varIntBytes (decoration.parameters.map Parameter.toInt) ++
      nbtBytes decoration.style)

theorem produces (hv : Writable true view) (h : decoration.Styled) :
    Produces view (do
      writeString decoration.translationKey
      writePrefixedArray (decoration.parameters.map Parameter.toInt) writeVarInt
      writeNBTElement decoration.style) decoration.bytes :=
  (hv.writeString _).bind <| (hv.writePrefixedArray fun value _ => hv.writeVarInt value).bind
    (produces_writeNBTElement hv h.1 h.2)

/-- What is read of a decoration. -/
def readBack (decoration : ChatTypeDecoration) : ChatTypeDecoration :=
  { decoration with style := decoded networkSettings (tree decoration.style) }

theorem agrees_readBack (h : decoration.Styled) : decoration.Agrees decoration.readBack :=
  ⟨rfl, rfl, tree_decoded h.1 _⟩

/-- A decoration is read from its word. -/
theorem consumes (h : decoration.Styled) (hsized : decoration.Sized) {n : ℕ}
    (hn : fuel (tree decoration.style) ≤ n) :
    Consumes (Stored true) (readDecoration n) decoration.bytes decoration.readBack := by
  have hv := readable_stored true
  have hcount : Counted (decoration.parameters.map Parameter.toInt).length := by
    rw [List.length_map]
    exact hsized.2
  have harray : Consumes (Stored true) (readPrefixedArray readVarInt)
      (prefixedBytes varIntBytes (decoration.parameters.map Parameter.toInt))
      ((decoration.parameters.map Parameter.toInt).map id) :=
    hv.readPrefixedArray_map hcount fun value _ => hv.readVarInt value
  have hparameters : (decoration.parameters.map Parameter.toInt).map Parameter.ofInt =
      decoration.parameters := by
    simp [Function.comp_def, Parameter.ofInt_toInt]
  apply (hv.readString hsized.1).bind
  rw [List.map_id] at harray
  apply harray.bind
  rw [hparameters]
  exact (consumes_readNBTElement h.1 h.2 hn).bind_pure _

/-- What was read was announced by an `int`. -/
theorem yields_readDecoration (n : ℕ) : Yields Sized (readDecoration n) := by
  have hkey := yields_readString
  have hparameters : Yields (fun values : List (BitVec 32) =>
      Counted values.length ∧ ∀ value ∈ values, True) (readPrefixedArray readVarInt) :=
    yields_readPrefixedArray fun _ _ _ => trivial
  refine hkey.bind fun translationKey hlength => hparameters.bind fun parameters hcount =>
    Yields.of_bind fun style => Yields.pure ⟨hlength, ?_⟩
  rw [List.length_map]
  exact hcount.1

theorem Agrees.sized {decoration' : ChatTypeDecoration} (h : decoration.Agrees decoration')
    (hsized : decoration'.Sized) : decoration.Sized := by
  unfold Sized at *
  rwa [h.1, h.2.1] at hsized

end ChatTypeDecoration

/-! ### Chat types -/

namespace ChatType

variable {chatType : ChatType}

/-- What the writer makes of the narration: it has the parameters of the chat. -/
def writtenNarration (chatType : ChatType) : ChatTypeDecoration :=
  { chatType.narration with parameters := chatType.chat.parameters }

theorem produces_writeChatType (hchat : chatType.chat.Styled)
    (hnarration : chatType.narration.Styled) :
    Produces (Stored true) (writeChatType chatType)
      (chatType.chat.bytes ++ chatType.writtenNarration.bytes) := by
  have hv := writable_stored true
  have hwritten : chatType.writtenNarration.Styled := hnarration
  have h := (ChatTypeDecoration.produces hv hchat).bind (ChatTypeDecoration.produces hv hwritten)
  simp only [bind_assoc] at h
  exact h

/-- If all sizes can be announced, the narrator's parameters decide. -/
theorem restores_of_sized (hchat : chatType.chat.Styled) (hnarration : chatType.narration.Styled)
    (hsized : chatType.chat.Sized) (hwritten : chatType.writtenNarration.Sized) :
    Restores true (writeChatType chatType) readChatType chatType.Agrees ↔
      chatType.narration.parameters = chatType.chat.parameters := by
  have hwrite := produces_writeChatType hchat hnarration
  have hstyled : chatType.writtenNarration.Styled := hnarration
  have hread : ∀ n ≥ max (fuel (tree chatType.chat.style)) (fuel (tree chatType.narration.style)),
      Consumes (Stored true) (readChatType n) (chatType.chat.bytes ++
        chatType.writtenNarration.bytes)
        ⟨chatType.chat.readBack, chatType.writtenNarration.readBack⟩ := fun n hn =>
    (ChatTypeDecoration.consumes hchat hsized (le_trans (le_max_left _ _) hn)).bind <|
      (ChatTypeDecoration.consumes hstyled hwritten (le_trans (le_max_right _ _) hn)).bind_pure _
  rw [restores_iff (v := []) (by rwa [List.append_nil]) hread, and_iff_right rfl]
  constructor
  · rintro ⟨-, -, hparameters, -⟩
    exact hparameters.symm
  · intro hparameters
    exact ⟨ChatTypeDecoration.agrees_readBack hchat, rfl, hparameters.symm,
      (ChatTypeDecoration.agrees_readBack hnarration).2.2⟩

/-- A chat type comes back exactly when the narrator has the parameters of the chat. -/
theorem restores_chatType_iff (chatType : ChatType) (hchat : chatType.chat.Styled)
    (hnarration : chatType.narration.Styled) :
    Restores true (writeChatType chatType) readChatType chatType.Agrees ↔
      chatType.narration.parameters = chatType.chat.parameters ∧
        chatType.chat.Sized ∧ chatType.narration.Sized := by
  constructor
  · intro h
    have hyields : ∀ n, Yields (fun c : ChatType => c.chat.Sized ∧ c.narration.Sized)
        (readChatType n) := fun n =>
      (ChatTypeDecoration.yields_readDecoration n).bind fun _ hfirst =>
        (ChatTypeDecoration.yields_readDecoration n).map _ fun _ hsecond => ⟨hfirst, hsecond⟩
    obtain ⟨chatType', ⟨hagrees, hagrees'⟩, hfirst, hsecond⟩ := h.exists_yields hyields
    have hsized := hagrees.sized hfirst
    have hsized' := hagrees'.sized hsecond
    have hwritten : chatType.writtenNarration.Sized := ⟨hsized'.1, hsized.2⟩
    exact ⟨(restores_of_sized hchat hnarration hsized hwritten).mp h, hsized, hsized'⟩
  · rintro ⟨hparameters, hsized, hsized'⟩
    have hwritten : chatType.writtenNarration.Sized := ⟨hsized'.1, hsized.2⟩
    exact (restores_of_sized hchat hnarration hsized hwritten).mpr hparameters

/-- Decorations that differ in all parts, with untagged compounds as styles. -/
def sample (parameters : List Parameter) : ChatType :=
  ⟨⟨utf8 "hi", [.sender, .content], compound [] []⟩, ⟨utf8 "hello", parameters, compound [] []⟩⟩

theorem styled_compound (translationKey : Bytes) (parameters : List Parameter) :
    ChatTypeDecoration.Styled ⟨translationKey, parameters, compound [] []⟩ :=
  ⟨wellFormed_compound (by decide) (by simp), rfl⟩

theorem restores_chatType_iff_sample :
    Restores true (writeChatType (sample [.target])) readChatType (sample [.target]).Agrees ↔
      (sample [.target]).narration.parameters = (sample [.target]).chat.parameters ∧
        (sample [.target]).chat.Sized ∧ (sample [.target]).narration.Sized :=
  restores_chatType_iff (sample [.target]) (styled_compound _ _) (styled_compound _ _)

/-- The narrator's parameters are another list. -/
theorem not_restores_sample : (sample [.target]).chat.Styled ∧ (sample [.target]).narration.Styled ∧
    ¬ Restores true (writeChatType (sample [.target])) readChatType (sample [.target]).Agrees := by
  refine ⟨styled_compound _ _, styled_compound _ _, ?_⟩
  have hsized : (sample [.target]).chat.Sized :=
    ⟨by decide +kernel, counted_of_lt (by decide)⟩
  have hwritten : (sample [.target]).writtenNarration.Sized :=
    ⟨by decide +kernel, counted_of_lt (by decide)⟩
  rw [restores_of_sized (styled_compound _ _) (styled_compound _ _) hsized hwritten]
  intro h
  cases h

end ChatType

end Zinc.Game
