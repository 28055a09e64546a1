import Zinc.Game.Lookups

/-! Failed encodings. An encoding stops at the first type that it comes to and that is not
registered, and leaves entries for it. So the registries are as before exactly when an earlier
encoding has left these entries already. -/

namespace Zinc.Game

open Throw Buffer Buffer.ByteBuffer Indexed

variable (order : Order Bytes)

/-- What holds for a tree if it holds for its children holds for all trees. -/
theorem SlotDisplay.induction {P : SlotDisplay → Prop}
    (h : ∀ display : SlotDisplay, (∀ child ∈ display.children, P child) → P display)
    (display : SlotDisplay) : P display :=
  @SlotDisplay.rec P (fun displays => ∀ child ∈ displays, P child)
    (fun _ _ _ _ _ _ ih => h _ ih)
    (fun _ hchild => absurd hchild List.not_mem_nil)
    (fun _ _ hdisplay ih => List.forall_mem_cons.mpr ⟨hdisplay, ih⟩) display

/-! ### Types on the way -/

/-- The types that an encoding comes to, with those that the writer of its type does. -/
def typedKeys (registry : RegistryName) (text : Bytes) (keys : registry.Kind → List Key) :
    List Key :=
  ⟨registry, text⟩ :: match Kinds.ofText text with
    | none => []
    | some kind => keys kind

def ConsumeEffect.keys (effect : ConsumeEffect) : List Key :=
  typedKeys .consumeEffect effect.type.toString fun _ => []

mutual

/-- The types of the displays that are written. -/
def SlotDisplay.keys : SlotDisplay → List Key
  | ⟨type, _, _, _, children, _⟩ =>
    typedKeys .slotDisplay type.toString fun kind : SlotDisplayType =>
      (kind.written [⟨.slotDisplay, Kinds.text SlotDisplayType.empty⟩] (displayKeys children)).flatten

def displayKeys : List SlotDisplay → List (List Key)
  | [] => []
  | display :: displays => display.keys :: displayKeys displays

end

def RecipeDisplay.keys (recipe : RecipeDisplay) : List Key :=
  typedKeys .recipeDisplay recipe.type.toString fun kind : RecipeDisplayType =>
    (kind.written recipe.toRecipeDisplayData).flatMap SlotDisplay.keys

theorem displayKeys_eq (displays : List SlotDisplay) :
    displayKeys displays = displays.map SlotDisplay.keys := by
  induction displays with
  | nil => rfl
  | cons display displays ih => rw [displayKeys, ih, List.map_cons]

theorem map_fixed {α β : Type} (f : α → β) (n : ℕ) (new : α) (as : List α) :
    (fixed n new as).map f = fixed n (f new) (as.map f) := by
  unfold fixed
  rw [List.length_map]
  split
  · exact List.map_replicate
  · rfl

namespace SlotDisplayType

theorem map_written {α β : Type} (f : α → β) (new : α) (children : List α)
    (type : SlotDisplayType) :
    (type.written new children).map f = type.written (f new) (children.map f) := by
  cases type with
  | smithingTrim | withRemainder => exact map_fixed f _ new children
  | _ => rfl

theorem mem_written {α : Type} {new a : α} {children : List α} {type : SlotDisplayType}
    (h : a ∈ type.written new children) : a = new ∨ a ∈ children := by
  have hfixed : ∀ {n}, a ∈ fixed n new children → a = new ∨ a ∈ children := by
    intro n hmem
    unfold fixed at hmem
    split at hmem
    · exact .inl (List.eq_of_mem_replicate hmem)
    · exact .inr hmem
  cases type with
  | smithingTrim | withRemainder => exact hfixed h
  | composite => exact .inr h
  | _ => exact absurd h List.not_mem_nil

end SlotDisplayType

theorem SlotDisplay.keys_new :
    SlotDisplay.new.keys = [⟨.slotDisplay, Kinds.text SlotDisplayType.empty⟩] := by
  rw [SlotDisplay.new, SlotDisplay.keys]
  have htype : Identifier.toString ⟨utf8 "minecraft", utf8 "empty"⟩ =
      Kinds.text SlotDisplayType.empty := by decide +kernel
  rw [htype, typedKeys, show Kinds.ofText (K := RegistryName.slotDisplay.Kind)
    (Kinds.text SlotDisplayType.empty) = some .empty from Kinds.ofText_eq_some.mpr rfl]
  rfl

theorem SlotDisplay.keys_eq (display : SlotDisplay) : display.keys =
    typedKeys .slotDisplay display.type.toString fun kind : SlotDisplayType =>
      (kind.written .new display.data.children).flatMap SlotDisplay.keys := by
  obtain ⟨type, itemType, itemStack, tag, children, customData⟩ := display
  rw [SlotDisplay.keys]
  congr 1
  funext kind
  rw [displayKeys_eq, ← SlotDisplay.keys_new, ← SlotDisplayType.map_written, ← List.flatMap_def]
  rfl

/-! ### Stops -/

/-- The computation stops at the first of the types that is not registered. -/
def StopsAt {α : Type} (keys : List Key) (x : Live α) : Prop :=
  x.Stops Registries.Standing Key.absent (Registries.touch order) .badFunctionCall keys

section

variable {order}

theorem stopsAt_bytesOf {write : Action Unit} (h : ∃ w, Produces (Fresh true) write w) :
    StopsAt order [] (Process.lift (bytesOf write)) := by
  obtain ⟨w, hw⟩ := h
  rw [bytesOf_eq hw]
  exact Process.Stops.lift w

theorem stopsAt_toBytes {registry : RegistryName} (type : Identifier)
    {write : registry.Kind → Live Bytes} {keys : registry.Kind → List Key}
    (h : ∀ kind, Kinds.ofText type.toString = some kind → StopsAt order (keys kind) (write kind)) :
    StopsAt order (typedKeys registry type.toString keys)
      (Live.toBytes order registry type write) := by
  intro registries hstanding
  have hv := writable_fresh true
  rw [hstanding.toBytes_apply, typedKeys, List.find?_cons, Key.absent]
  cases hkind : Kinds.ofText (K := registry.Kind) type.toString with
  | none => rfl
  | some kind =>
    have hsame : registries.touch order ⟨registry, type.toString⟩ = registries :=
      hstanding.touch_eq_self (by simp [Key.absent, hkind])
    have hbytes : ∀ bytes, StopsAt order [] (Process.lift (bytesOf do
        writeVarInt (Kinds.number kind)
        writeByteArray bytes)) := fun bytes =>
      stopsAt_bytesOf ⟨_, (hv.writeVarInt _).bind (hv.writeBytes bytes)⟩
    have hbind := (h kind hkind).bind hbytes
    rw [List.append_nil] at hbind
    rw [hsame]
    exact hbind registries hstanding

/-- An effect of a type that is not registered. -/
theorem ConsumeEffect.toBytesLive_of_absent {effect : ConsumeEffect} {registries : Registries}
    (hstanding : registries.Standing)
    (h : (⟨.consumeEffect, effect.type.toString⟩ : Key).absent) :
    effect.toBytesLive order registries =
      (.error .badFunctionCall, registries.touch order ⟨.consumeEffect, effect.type.toString⟩) := by
  rw [ConsumeEffect.toBytesLive, hstanding.toBytes_apply, Option.isNone_iff_eq_none.mp h]

theorem ConsumeEffect.stopsAt_keys (effect : ConsumeEffect) :
    StopsAt order effect.keys (effect.toBytesLive order) :=
  stopsAt_toBytes effect.type fun kind _ =>
    stopsAt_bytesOf ⟨_, ConsumeEffectType.produces_write kind effect.toConsumeEffectData⟩

/-- The words of displays, between what is in front of them and what is behind them. -/
theorem stopsAt_each {toBytes : SlotDisplay → Live Bytes} {displays : List SlotDisplay}
    {write : List Bytes → Action Unit} (hwrite : ∀ words, ∃ w, Produces (Fresh true) (write words) w)
    (h : ∀ display ∈ displays, StopsAt order display.keys (toBytes display)) :
    StopsAt order (displays.flatMap SlotDisplay.keys)
      (Process.each toBytes displays >>= fun words => Process.lift (bytesOf (write words))) := by
  have hbytes : ∀ words, StopsAt order [] (Process.lift (bytesOf (write words))) :=
    fun words => stopsAt_bytesOf (hwrite words)
  have hbind := (Process.Stops.each displays h).bind hbytes
  rwa [List.append_nil] at hbind

theorem produces_words (words : List Bytes) :
    Produces (Fresh true) (forEach writeByteArray words) (words.flatMap id) :=
  Produces.forEach id words fun w _ => (writable_fresh true).writeBytes w

theorem SlotDisplayType.stopsAt_writeLive {toBytes : SlotDisplay → Live Bytes}
    (data : SlotDisplayData) (type : SlotDisplayType)
    (h : ∀ display ∈ type.written .new data.children, StopsAt order display.keys (toBytes display)) :
    StopsAt order ((type.written .new data.children).flatMap SlotDisplay.keys)
      (type.writeLive toBytes data) := by
  obtain ⟨w, hfront⟩ := type.exists_produces_writeFront data
  exact stopsAt_each (fun words => ⟨_, hfront.bind (produces_words words)⟩) h

theorem RecipeDisplayType.stopsAt_writeLive {toBytes : SlotDisplay → Live Bytes}
    (data : RecipeDisplayData) (type : RecipeDisplayType)
    (h : ∀ display ∈ type.written data, StopsAt order display.keys (toBytes display)) :
    StopsAt order ((type.written data).flatMap SlotDisplay.keys) (type.writeLive toBytes data) := by
  obtain ⟨w, hfront⟩ := type.exists_produces_writeFront data
  obtain ⟨w', hback⟩ := type.exists_produces_writeBack data
  exact stopsAt_each (fun words => ⟨_, hfront.bind ((produces_words words).bind hback)⟩) h

/-- A tree of which some displays have all that are written. -/
theorem SlotDisplay.exists_stopsAt_of_written (display : SlotDisplay) (displays : List SlotDisplay)
    (hmem : ∀ kind : SlotDisplayType, Kinds.ofText display.type.toString = some kind →
      ∀ child ∈ kind.written .new display.data.children, child ∈ displays)
    (h : ∀ child ∈ displays, ∃ bound, ∀ n ≥ bound,
      StopsAt order child.keys (child.toBytesLive order n)) :
    ∃ bound, ∀ n ≥ bound, StopsAt order display.keys (display.toBytesLive order n) := by
  obtain ⟨bound, hbound⟩ := exists_bound displays h
  refine ⟨bound + 1, fun n hn => ?_⟩
  obtain ⟨m, rfl⟩ : ∃ m, n = m + 1 := ⟨n - 1, by omega⟩
  rw [SlotDisplay.keys_eq]
  exact stopsAt_toBytes display.type fun kind hkind =>
    kind.stopsAt_writeLive display.data fun child hchild =>
      hbound child (hmem kind hkind child hchild) m (by omega)

/-- With enough fuel the encoding of a tree comes to its types. -/
theorem SlotDisplay.exists_stopsAt (order : Order Bytes) (display : SlotDisplay) :
    ∃ bound, ∀ n ≥ bound, StopsAt order display.keys (display.toBytesLive order n) := by
  have hnew : ∃ bound, ∀ n ≥ bound,
      StopsAt order SlotDisplay.new.keys (SlotDisplay.new.toBytesLive order n) := by
    refine SlotDisplay.exists_stopsAt_of_written .new [] (fun kind hkind => ?_) fun _ h =>
      absurd h List.not_mem_nil
    have htext : Kinds.text kind = Kinds.text SlotDisplayType.empty :=
      (Kinds.ofText_eq_some.mp hkind).trans (by decide +kernel)
    obtain rfl := Kinds.text_injective htext
    exact fun _ h => h
  induction display using SlotDisplay.induction with
  | h display ih =>
    refine display.exists_stopsAt_of_written (.new :: display.children) (fun kind _ child h => ?_)
      (List.forall_mem_cons.mpr ⟨hnew, ih⟩)
    exact List.mem_cons.mpr (SlotDisplayType.mem_written h)

theorem RecipeDisplay.exists_stopsAt (order : Order Bytes) (recipe : RecipeDisplay) :
    ∃ bound, ∀ n ≥ bound, StopsAt order recipe.keys (recipe.toBytesLive order n) := by
  let displays : RecipeDisplayType → List SlotDisplay := fun kind =>
    kind.written recipe.toRecipeDisplayData
  have hall : ∀ kind ∈ (Kinds.all : List RecipeDisplayType), ∃ bound, ∀ n ≥ bound,
      ∀ display ∈ displays kind, StopsAt order display.keys (display.toBytesLive order n) := by
    intro kind _
    obtain ⟨bound, hbound⟩ := exists_bound (displays kind) fun display _ =>
      display.exists_stopsAt order
    exact ⟨bound, fun n hn display hdisplay => hbound display hdisplay n hn⟩
  obtain ⟨bound, hbound⟩ := exists_bound _ hall
  exact ⟨bound, fun n hn => stopsAt_toBytes recipe.type fun kind _ =>
    kind.stopsAt_writeLive recipe.toRecipeDisplayData (hbound kind (Kinds.mem_all kind) n hn)⟩

end

/-! ### Runs -/

/-- What is done with the registries: an encoding, or the lookup of a reader, which is all that
a decoding changes. -/
inductive Step where
  | consumeEffect (effect : ConsumeEffect)
  | slotDisplay (n : ℕ) (display : SlotDisplay)
  | recipeDisplay (n : ℕ) (recipe : RecipeDisplay)
  | reader (registry : RegistryName) (text : Bytes)

def Step.apply : Step → Registries → Registries
  | .consumeEffect effect, registries => (effect.toBytesLive order registries).2
  | .slotDisplay n display, registries => (display.toBytesLive order n registries).2
  | .recipeDisplay n recipe, registries => (recipe.toBytesLive order n registries).2
  | .reader registry text, registries => (Live.readers order registry text registries).2

namespace Registries

def run (steps : List Step) : Registries :=
  steps.foldl (fun registries step => step.apply order registries) (initial order)

variable {order}

theorem Standing.apply {registries : Registries} (h : registries.Standing) (step : Step) :
    (step.apply order registries).Standing := by
  cases step with
  | consumeEffect effect => exact (effect.answers_toBytesLive registries h).2
  | slotDisplay n display => exact (display.answers_toBytesLive n registries h).2
  | recipeDisplay n recipe => exact (recipe.answers_toBytesLive n registries h).2
  | reader registry text =>
    have htables := h registry
    exact standing_update h
      ⟨htables.number_eq, htables.writer_eq, htables.mem_registryData, htables.mem_writers⟩

theorem Standing.foldl {registries : Registries} (h : registries.Standing) (steps : List Step) :
    (steps.foldl (fun registries step => step.apply order registries) registries).Standing := by
  induction steps generalizing registries with
  | nil => exact h
  | cons step steps ih => exact ih (h.apply step)

theorem standing_run (order : Order Bytes) (steps : List Step) : (run order steps).Standing :=
  (standing_initial order).foldl steps

/-- At first there are no entries for types that are not registered. -/
theorem notMem_initial {key : Key} (h : key.absent) :
    key.text ∉ (initial order key.registry).registryData := by
  have hnone : Kinds.ofText (K := key.registry.Kind) key.text = none :=
    Option.isNone_iff_eq_none.mp h
  rw [← AList.lookup_eq_none, initial, order.lookup_arrange, lookup_table, hnone]
  rfl

end Registries

/-- Whatever was done, the results of encodings are those of the encodings without state. -/
theorem toBytesLive_run (steps : List Step) :
    (∀ effect : ConsumeEffect,
      (effect.toBytesLive order (Registries.run order steps)).1 = effect.toBytes) ∧
    (∀ (n : ℕ) (display : SlotDisplay),
      (display.toBytesLive order n (Registries.run order steps)).1 = display.toBytes n) ∧
    ∀ (n : ℕ) (recipe : RecipeDisplay),
      (recipe.toBytesLive order n (Registries.run order steps)).1 = recipe.toBytes n := by
  have h := Registries.standing_run order steps
  exact ⟨fun effect => (effect.answers_toBytesLive _ h).1,
    fun n display => (display.answers_toBytesLive n _ h).1,
    fun n recipe => (recipe.answers_toBytesLive n _ h).1⟩

/-- The number of a registered type stands for it at all times, unless it is 0. -/
theorem getIdentifierFromValue_run (steps : List Step) {registry : RegistryName}
    (kind : registry.Kind) (hkind : Kinds.number kind ≠ 0) :
    (Registries.run order steps registry).getIdentifierFromValue (Kinds.number kind) =
      Identifier.ofString (Kinds.text kind) :=
  (Registries.standing_run order steps registry).getIdentifierFromValue_eq kind hkind

/-! ### Intact registries -/

/-- The encoding fails and the registries are as before. -/
def FailsIntact (toBytes : Live Bytes) (registries : Registries) : Prop :=
  toBytes registries = (.error .badFunctionCall, registries)

/-- The first of the types that is not registered has entries all the same. -/
def EnteredAtStop (keys : List Key) (registries : Registries) : Prop :=
  ∃ key, keys.find? Key.absent = some key ∧ key.Entered registries

theorem StopsAt.intact_iff {keys : List Key} {toBytes : Live Bytes} {registries : Registries}
    (h : StopsAt order keys toBytes) (hstanding : registries.Standing) :
    FailsIntact toBytes registries ↔ EnteredAtStop keys registries := by
  rw [FailsIntact, h.error_and_eq_iff hstanding]
  simp only [Registries.touch_eq_self_iff, EnteredAtStop]

/-- An encoding that has failed once leaves the registries as they are when it fails again. -/
theorem StopsAt.enteredAtStop_again {keys : List Key} {toBytes : Live Bytes}
    {registries : Registries} {key : Key} (h : StopsAt order keys toBytes)
    (hstanding : registries.Standing) (hkey : keys.find? Key.absent = some key) :
    EnteredAtStop keys (toBytes registries).2 := by
  have hstop := h registries hstanding
  rw [hkey] at hstop
  rw [hstop]
  exact ⟨key, hkey, Registries.entered_touch⟩

/-- Whatever was done before, an encoding fails and leaves the registries as they were exactly
when the first unregistered type that it comes to has entries already. -/
theorem failsIntact_iff (steps : List Step) :
    (∀ effect : ConsumeEffect,
      FailsIntact (effect.toBytesLive order) (Registries.run order steps) ↔
        EnteredAtStop effect.keys (Registries.run order steps)) ∧
    (∀ display : SlotDisplay, ∃ bound, ∀ n ≥ bound,
      (FailsIntact (display.toBytesLive order n) (Registries.run order steps) ↔
        EnteredAtStop display.keys (Registries.run order steps))) ∧
    ∀ recipe : RecipeDisplay, ∃ bound, ∀ n ≥ bound,
      (FailsIntact (recipe.toBytesLive order n) (Registries.run order steps) ↔
        EnteredAtStop recipe.keys (Registries.run order steps)) := by
  have h := Registries.standing_run order steps
  refine ⟨fun effect => effect.stopsAt_keys.intact_iff order h, fun display => ?_,
    fun recipe => ?_⟩
  · obtain ⟨bound, hbound⟩ := display.exists_stopsAt order
    exact ⟨bound, fun n hn => (hbound n hn).intact_iff order h⟩
  · obtain ⟨bound, hbound⟩ := recipe.exists_stopsAt order
    exact ⟨bound, fun n hn => (hbound n hn).intact_iff order h⟩

/-- Never before anything was looked up. -/
theorem not_enteredAtStop_initial (keys : List Key) :
    ¬ EnteredAtStop keys (Registries.initial order) := by
  rintro ⟨key, hfound, hentered⟩
  exact Registries.notMem_initial (List.find?_some hfound) hentered.1

/-- What is read of an effect whose number stands for a type. -/
theorem readConsumeEffectLive_fst {buffer buffer' : ByteBuffer} {registries : Registries}
    {number : BitVec 32} {type : Identifier} (hnumber : readVarInt buffer = .ok (number, buffer'))
    (htype : (registries .consumeEffect).getIdentifierFromValue number = .ok type) :
    (readConsumeEffectLive order buffer registries).1 =
      match value none (registries .consumeEffect).readers type.toString with
      | none => .error .badFunctionCall
      | some kind => (ConsumeEffectType.read kind buffer').map fun data =>
          ({ data.1 with type }, data.2) := by
  rw [readConsumeEffectLive, hnumber, Process.lift_ok_bind, Process.bind_apply]
  simp only [htype]
  rw [Process.bind_apply]
  simp only [Live.readers, index_fst]
  cases value none (registries .consumeEffect).readers type.toString with
  | none => rfl
  | some kind =>
    simp only [Process.bind_apply, Process.lift]
    cases ConsumeEffectType.read kind buffer' <;> rfl

/-- An effect of an unregistered type, where the newest entry comes first. Number 0 stood for the
potion effects; then it stands for the new type, and an effect of number 0 is not read any more. -/
theorem not_failsIntact_unregistered : ∃ (order : Order Bytes) (effect : ConsumeEffect)
    (after : Registries) (buffer : ByteBuffer), effect.type.toString = utf8 "zinc:glow" ∧
    Stored true buffer [0] ∧
    effect.toBytesLive order (.initial order) = (.error .badFunctionCall, after) ∧
    ¬ FailsIntact (effect.toBytesLive order) (.initial order) ∧
    (Registries.initial order .consumeEffect).getIdentifierFromValue 0 =
      .ok ⟨utf8 "minecraft", utf8 "apply_effects"⟩ ∧
    (after .consumeEffect).getIdentifierFromValue 0 = .ok ⟨utf8 "zinc", utf8 "glow"⟩ ∧
    (∃ p, (readConsumeEffectLive order buffer (.initial order)).1 = .ok p) ∧
    (readConsumeEffectLive order buffer after).1 = .error .badFunctionCall := by
  let effect : ConsumeEffect :=
    { ConsumeEffectData.new with type := ⟨utf8 "zinc", utf8 "glow"⟩ }
  let key : Key := ⟨.consumeEffect, effect.type.toString⟩
  let before := Registries.initial .newest
  have hkey : key.absent := by decide +kernel
  have hnew : key.text ∉ (before .consumeEffect).registryData := Registries.notMem_initial hkey
  have hencode : effect.toBytesLive .newest before =
      (.error .badFunctionCall, before.touch .newest key) :=
    ConsumeEffect.toBytesLive_of_absent (Registries.standing_initial .newest) hkey
  obtain ⟨buffer, -, hstored⟩ := (writable_stored true).writeBytes [0] _ _ (stored_new true)
  have hword : Stored true buffer (varIntBytes 0 ++ []) := by
    rwa [show varIntBytes 0 ++ [] = [0] by decide]
  obtain ⟨buffer', hnumber, -⟩ := (readable_stored true).readVarInt 0 buffer [] hword
  have hbefore : (before .consumeEffect).getIdentifierFromValue 0 =
      .ok ⟨utf8 "minecraft", utf8 "apply_effects"⟩ := by decide +kernel
  have hafter : (before.touch .newest key .consumeEffect).getIdentifierFromValue 0 =
      .ok ⟨utf8 "zinc", utf8 "glow"⟩ := by
    rw [Registries.touch, Function.update_self]
    exact Tables.getIdentifierFromValue_touch_newest hnew
  -- a failed encoding adds no reader
  have hreaders : ∀ text, value none (before.touch .newest key .consumeEffect).readers text =
      Kinds.ofText (K := RegistryName.consumeEffect.Kind) text :=
    value_table_some (K := RegistryName.consumeEffect.Kind) .newest
  refine ⟨.newest, effect, before.touch .newest key, buffer, by decide +kernel, hstored, hencode,
    fun h => ?_, hbefore, hafter, ?_, ?_⟩
  · have hintact := (Prod.mk.inj (hencode.symm.trans h)).2
    exact hnew (Registries.touch_eq_self_iff.mp hintact).1
  · rw [readConsumeEffectLive_fst _ hnumber hbefore]
    exact ⟨_, rfl⟩
  · have hnone : Kinds.ofText (K := RegistryName.consumeEffect.Kind)
        (Identifier.toString ⟨utf8 "zinc", utf8 "glow"⟩) = none := Option.isNone_iff_eq_none.mp hkey
    rw [readConsumeEffectLive_fst _ hnumber hafter, hreaders, hnone]

end Zinc.Game
