import Zinc.Base.Simulation
import Zinc.Nbt.RoundTrip

/-! Decoding into an element that holds an earlier value. The payload of the type that was read
is assigned, but children are appended to those that are there, and the type of an element of
an array whose settings name no type is not touched at all. So the earlier value is forgotten
exactly when it had no children and, in such an array, the type `End`. -/

namespace Zinc.Nbt

open Throw Buffer Buffer.ByteBuffer NBTElementType NBTElement

namespace NBTElement

/-! ### What is compared -/

/-- The same type, children and selected payload value. -/
structure SameValue (a b : NBTElement) : Prop where
  type_eq : a.type = b.type
  childElements_eq : a.childElements = b.childElements
  scalar_eq : a.scalar = b.scalar

/-- An element decoded over an old one against one of type `type` that was decoded afresh. -/
structure Over (old : NBTElement) (type : NBTElementType) (a fresh : NBTElement) : Prop where
  type_eq : a.type = type
  fresh_type_eq : fresh.type = type
  scalar_eq : a.scalar = fresh.scalar
  childElements_eq : a.childElements = old.childElements ++ fresh.childElements

/-- The decoder takes its type from the settings or the buffer, or finds the one of a fresh
element. -/
def TypeGiven (element : NBTElement) : Prop :=
  element.settings.isInArray = true → element.settings.type = .endTag → element.type = .endTag

/-- The same computation with related results on the same buffers. -/
abbrev Follows {α β : Type} (R : α → β → Prop) (x : Action α) (y : Action β) : Prop :=
  Simulates (fun s s' => s = s') (fun _ => True) R x y

theorem Follows.outcome {α β : Type} {R : α → β → Prop} {x : Action α} {y : Action β}
    (h : Follows R x y) {buffer rest : ByteBuffer} {a : α} (hx : x buffer = .ok (a, rest)) :
    ∃ b, y buffer = .ok (b, rest) ∧ R a b := by
  cases hy : y buffer with
  | error f => exact nomatch hx.symm.trans ((h buffer buffer rfl).2 f trivial hy)
  | ok p =>
    obtain ⟨a', rest', hx', hR, hrest⟩ := (h buffer buffer rfl).1 p.1 p.2 hy
    cases hx.symm.trans hx'
    exact ⟨p.1, by rw [hrest], hR⟩

/-! ### One level -/

variable {old fresh : NBTElement} {type : NBTElementType}

/-- A payload that is read and assigned. -/
theorem follows_assign {α : Type} (x : Action α) (set : α → NBTElement → NBTElement)
    (h : ∀ a, Over old type (set a old) (set a fresh)) :
    Follows (Over old type) (x >>= fun a => pure (set a old)) (x >>= fun a => pure (set a fresh)) :=
  (Simulates.refl x).map _ _ (by
    rintro a _ rfl
    exact h a)

/-- An array is read behind its length. -/
theorem follows_array {α : Type} (x : Action ℕ) (y : ℕ → Action α)
    (set : α → NBTElement → NBTElement) (h : ∀ a, Over old type (set a old) (set a fresh)) :
    Follows (Over old type) (x >>= fun length => y length >>= fun a => pure (set a old))
      (x >>= fun length => y length >>= fun a => pure (set a fresh)) :=
  (Simulates.refl x).bind (by
    rintro length _ rfl
    exact follows_assign (y length) set h)

theorem follows_decodeScalar (hsettings : old.settings = fresh.settings) (hold : old.type = type)
    (hfresh : fresh.type = type) (hempty : fresh.childElements = [])
    (hlist : type ≠ .list) (hcompound : type ≠ .compound) :
    Follows (Over old type) (decodeScalar old) (decodeScalar fresh) := by
  have happend : old.childElements = old.childElements ++ fresh.childElements := by
    rw [hempty, List.append_nil]
  obtain ⟨settings, _, _, _, _, _, _, _, _, _, _, _, _, _⟩ := old
  obtain ⟨_, _, _, _, _, _, _, _, _, _, _, _, _, _⟩ := fresh
  dsimp only at hsettings hold hfresh
  obtain rfl := hsettings
  obtain rfl := hold
  obtain rfl := hfresh
  rename NBTElementType => type
  cases type with
  | endTag => exact Simulates.pure ⟨rfl, rfl, rfl, happend⟩
  | byte =>
    exact follows_assign readByte (fun byteValue element => { element with byteValue })
      fun a => ⟨rfl, rfl, rfl, happend⟩
  | short =>
    exact follows_assign (readNumeric 2) (fun shortValue element => { element with shortValue })
      fun a => ⟨rfl, rfl, rfl, happend⟩
  | int =>
    exact follows_assign (readInt settings) (fun intValue element => { element with intValue })
      fun a => ⟨rfl, rfl, rfl, happend⟩
  | long =>
    exact follows_assign (readLong settings) (fun longValue element => { element with longValue })
      fun a => ⟨rfl, rfl, rfl, happend⟩
  | float =>
    exact follows_assign (readNumeric 4) (fun floatValue element => { element with floatValue })
      fun a => ⟨rfl, rfl, rfl, happend⟩
  | double =>
    exact follows_assign (readNumeric 8) (fun doubleValue element => { element with doubleValue })
      fun a => ⟨rfl, rfl, rfl, happend⟩
  | byteArray =>
    exact follows_array (readLength settings) readByteArray
      (fun byteArrayValue element => { element with byteArrayValue })
      fun a => ⟨rfl, rfl, rfl, happend⟩
  | string =>
    exact follows_assign (readStringValue settings)
      (fun stringValue element => { element with stringValue })
      fun a => ⟨rfl, rfl, rfl, happend⟩
  | list => exact absurd rfl hlist
  | compound => exact absurd rfl hcompound
  | intArray =>
    exact follows_array (readLength settings) (readArray (readNumeric 4))
      (fun intArrayValue element => { element with intArrayValue })
      fun a => ⟨rfl, rfl, rfl, happend⟩
  | longArray =>
    exact follows_array (readLength settings) (readArray (readNumeric 8))
      (fun longArrayValue element => { element with longArrayValue })
      fun a => ⟨rfl, rfl, rfl, happend⟩
  | other code => exact Simulates.pure ⟨rfl, rfl, rfl, happend⟩

/-- The loop of a compound appends to the children that are there. -/
theorem follows_decodeEntries (n : ℕ) (settings : NBTSettings) (before children : List NBTElement) :
    Follows (fun as bs => as = before ++ bs) (decodeEntries n settings (before ++ children))
      (decodeEntries n settings children) := by
  induction n generalizing children with
  | zero =>
    rintro s _ rfl
    exact ⟨nofun, fun f _ h => h⟩
  | succ n ih =>
    refine (Simulates.refl peek).bind ?_
    rintro next _ rfl
    cases next with
    | none => exact Simulates.pure rfl
    | some c =>
      by_cases hc : c = 0
      · simp only [hc, if_true]
        exact (Simulates.refl readByte).bind fun _ _ _ => Simulates.pure rfl
      · simp only [hc, if_false]
        refine (Simulates.refl (decode n (.new settings))).bind ?_
        rintro child _ rfl
        rw [List.append_assoc]
        exact ih _

theorem follows_decodeBody (n : ℕ) (hsettings : old.settings = fresh.settings)
    (hold : old.type = type) (hfresh : fresh.type = type) (hempty : fresh.childElements = []) :
    Follows (Over old type) (decodeBody (decode n) (decodeEntries n) old)
      (decodeBody (decode n) (decodeEntries n) fresh) := by
  have hscalar := follows_decodeScalar hsettings hold hfresh hempty
  obtain ⟨settings, _, _, _, _, _, _, _, _, _, _, childElements, _, _⟩ := old
  obtain ⟨_, _, _, _, _, _, _, _, _, _, _, _, _, _⟩ := fresh
  dsimp only at hsettings hold hfresh hempty
  obtain rfl := hsettings
  obtain rfl := hold
  obtain rfl := hfresh
  obtain rfl := hempty
  rename NBTElementType => type
  cases type with
  | list =>
    refine (Simulates.refl readByte).bind ?_
    rintro code _ rfl
    refine (Simulates.refl (readLength settings)).bind ?_
    rintro length _ rfl
    refine (Simulates.refl isBigEndian).bind ?_
    rintro isBigEndian _ rfl
    refine (Simulates.refl (readArray _ _)).map _ _ ?_
    rintro children _ rfl
    exact ⟨rfl, rfl, rfl, rfl⟩
  | compound =>
    refine (Simulates.refl isBigEndian).bind ?_
    rintro isBigEndian _ rfl
    have hentries := follows_decodeEntries n
      ⟨false, !isBigEndian && settings.isNetwork, .endTag⟩ childElements []
    rw [List.append_nil] at hentries
    exact hentries.map _ _ fun as bs h => ⟨rfl, rfl, rfl, h⟩
  | _ => exact hscalar nofun nofun

/-! ### The whole decoder -/

/-- Behind the type and the tag an old element differs from a fresh one in its children. -/
structure Headed (old a fresh : NBTElement) : Prop where
  settings_eq : a.settings = fresh.settings
  type_eq : a.type = fresh.type
  childElements_eq : a.childElements = old.childElements
  fresh_childElements_eq : fresh.childElements = []

/-- The tag may stay the old one. -/
theorem follows_readTag (settings : NBTSettings) (tag tag' : Bytes) :
    Follows (fun _ _ => True) (readTag settings tag) (readTag settings tag') := by
  rintro buffer _ rfl
  by_cases hbig : buffer.isBigEndian = true ∧ settings.isNetwork = true
  · simp [readTag, hbig]
  · have hsame : readTag settings tag buffer = readTag settings tag' buffer := by
      simp only [readTag]
      split
      · rfl
      · split
        · rfl
        · simp_all
    rw [hsame]
    exact ((Simulates.refl (readTag settings tag')).mono fun _ _ _ => trivial) buffer buffer rfl

theorem follows_decodeHead_of_named {a fresh : NBTElement} (hin : a.settings.isInArray = false)
    (hsettings : a.settings = fresh.settings) (hchildren : a.childElements = old.childElements)
    (hfresh : fresh.childElements = []) :
    Follows (Headed old) (decodeHead a) (decodeHead fresh) := by
  rw [decodeHead, decodeHead, ← hsettings, hin]
  refine (Simulates.refl readByte).bind ?_
  rintro code _ rfl
  by_cases hcode : ofByte code = .endTag
  · simp only [hcode, if_true]
    exact Simulates.pure ⟨rfl, rfl, hchildren, hfresh⟩
  · simp only [hcode, if_false]
    exact (follows_readTag a.settings a.tag fresh.tag).map _ _ fun _ _ _ =>
      ⟨rfl, rfl, hchildren, hfresh⟩

theorem forceType_settings (element : NBTElement) :
    (forceType element).settings = element.settings := by
  unfold forceType
  split <;> rfl

theorem forceType_childElements (element : NBTElement) :
    (forceType element).childElements = element.childElements := by
  unfold forceType
  split <;> rfl

theorem follows_decodeHead (h : old.TypeGiven) :
    Follows (Headed old) (decodeHead (forceType old))
      (decodeHead (forceType (.new old.settings))) := by
  by_cases hin : old.settings.isInArray = true
  · by_cases hforced : old.settings.type = .endTag
    · have hheaded : Headed old old (.new old.settings) := ⟨rfl, h hin hforced, rfl, rfl⟩
      simpa [forceType, decodeHead, hforced, hin, new] using Simulates.pure hheaded
    · have hheaded : Headed old { old with type := old.settings.type }
          { new old.settings with type := old.settings.type } := ⟨rfl, rfl, rfl, rfl⟩
      simpa [forceType, decodeHead, hforced, hin, new] using Simulates.pure hheaded
  · refine follows_decodeHead_of_named ?_ ?_ (forceType_childElements old)
      (forceType_childElements _)
    · rw [forceType_settings]
      exact Bool.eq_false_iff.mpr hin
    · rw [forceType_settings, forceType_settings]
      rfl

/-- The old value of an element, once its type is given. -/
theorem follows_decode (n : ℕ) (h : old.TypeGiven) :
    Follows (fun a fresh => ∃ type, Over old type a fresh) (decode n old)
      (decode n (.new old.settings)) := by
  cases n with
  | zero =>
    rintro s _ rfl
    exact ⟨nofun, fun f _ h => h⟩
  | succ n =>
    refine (follows_decodeHead h).bind fun a fresh hhead => ?_
    have hbody := follows_decodeBody n hhead.settings_eq hhead.type_eq rfl
      hhead.fresh_childElements_eq
    refine hbody.mono fun b fresh' hover => ⟨fresh.type, hover.type_eq, hover.fresh_type_eq,
      hover.scalar_eq, ?_⟩
    rw [hover.childElements_eq, hhead.childElements_eq]

/-- An element of an array whose settings name no type keeps its type. -/
theorem type_of_decode {n : ℕ} (hin : old.settings.isInArray = true)
    (hsettings : old.settings.type = .endTag) {buffer rest : ByteBuffer} {a : NBTElement}
    (h : decode n old buffer = .ok (a, rest)) : a.type = old.type := by
  cases n with
  | zero => cases h
  | succ n =>
    have hhead : decodeHead (forceType old) buffer = .ok (old, buffer) := by
      simp only [decodeHead, forceType, hin, hsettings, ne_eq, not_true_eq_false, if_false, if_true]
      rfl
    rw [decode, bind_of_eq_ok hhead] at h
    have hbody : Follows (Over old old.type) (decodeBody (decode n) (decodeEntries n) old)
        (decodeBody (decode n) (decodeEntries n) { new old.settings with type := old.type }) :=
      follows_decodeBody n rfl rfl rfl rfl
    obtain ⟨fresh, -, hover⟩ := hbody.outcome h
    exact hover.type_eq

/-! ### One old value against a fresh element -/

section Fresh

variable {n : ℕ} {buffer rest rest' : ByteBuffer} {a : NBTElement}

/-- An element that gets the type of a fresh one has not given it. -/
theorem typeGiven_of_type_eq (hfresh : decode n (.new old.settings) buffer = .ok (fresh, rest'))
    (hold : decode n old buffer = .ok (a, rest)) (htype : a.type = fresh.type) : old.TypeGiven := by
  intro hin hforced
  have hnew : (new old.settings).settings.isInArray = true := hin
  have hkept : fresh.type = (new old.settings).type := type_of_decode hnew hforced hfresh
  rw [← type_of_decode hin hforced hold]
  exact htype.trans hkept

/-- An element that gets the children of a fresh one had none. -/
theorem childElements_eq_nil_of_eq (h : old.TypeGiven)
    (hfresh : decode n (.new old.settings) buffer = .ok (fresh, rest))
    (hold : decode n old buffer = .ok (a, rest)) (hchildren : a.childElements = fresh.childElements) :
    old.childElements = [] := by
  obtain ⟨fresh', hfresh', type, hover⟩ := (follows_decode n h).outcome hold
  rw [hfresh] at hfresh'
  cases hfresh'
  exact List.append_left_eq_self.mp (hover.childElements_eq.symm.trans hchildren)

/-- An element without children gets the value of a fresh one. -/
theorem exists_sameValue (h : old.TypeGiven) (hempty : old.childElements = [])
    (hfresh : decode n (.new old.settings) buffer = .ok (fresh, rest)) :
    ∃ a, decode n old buffer = .ok (a, rest) ∧ a.SameValue fresh := by
  obtain ⟨a, rest', ha, ⟨type, hover⟩, rfl⟩ :=
    ((follows_decode n h) buffer buffer rfl).1 fresh rest hfresh
  refine ⟨a, ha, hover.type_eq.trans hover.fresh_type_eq.symm, ?_, hover.scalar_eq⟩
  rw [hover.childElements_eq, hempty, List.nil_append]

/-- The errors of a fresh element. -/
theorem decode_eq_error (h : old.TypeGiven) {fault : Fault}
    (hfresh : decode n (.new old.settings) buffer = .error fault) :
    decode n old buffer = .error fault :=
  ((follows_decode n h) buffer buffer rfl).2 fault trivial hfresh

end Fresh

theorem SameValue.trans_symm {a b c : NBTElement} (h : a.SameValue c) (h' : b.SameValue c) :
    a.SameValue b :=
  ⟨h.type_eq.trans h'.type_eq.symm, h.childElements_eq.trans h'.childElements_eq.symm,
    h.scalar_eq.trans h'.scalar_eq.symm⟩

/-- Against a decoder that returns from a fresh element, two old values are forgotten exactly
when neither has children and neither gives the type; and the errors of a fresh element are
those of every element that does not give the type. -/
theorem forgets_iff (n : ℕ) (buffer : ByteBuffer) (first second : NBTElement)
    (hsettings : first.settings = second.settings) :
    (∀ fresh rest, decode n (.new first.settings) buffer = .ok (fresh, rest) →
      ((∃ a b, decode n first buffer = .ok (a, rest) ∧ decode n second buffer = .ok (b, rest) ∧
          a.SameValue b ∧ a.SameValue fresh) ↔
        first.childElements = [] ∧ second.childElements = [] ∧
          first.TypeGiven ∧ second.TypeGiven)) ∧
    ∀ fault, decode n (.new first.settings) buffer = .error fault →
      first.TypeGiven → second.TypeGiven →
        decode n first buffer = .error fault ∧ decode n second buffer = .error fault := by
  have hfresh_second : decode n (.new second.settings) = decode n (.new first.settings) := by
    rw [hsettings]
  constructor
  · intro fresh rest hfresh
    have hfresh' : decode n (.new second.settings) buffer = .ok (fresh, rest) := by
      rw [hfresh_second, hfresh]
    constructor
    · rintro ⟨a, b, ha, hb, hab, haf⟩
      have hbf : b.type = fresh.type ∧ b.childElements = fresh.childElements :=
        ⟨hab.type_eq.symm.trans haf.type_eq, hab.childElements_eq.symm.trans haf.childElements_eq⟩
      have htype := typeGiven_of_type_eq hfresh ha haf.type_eq
      have htype' := typeGiven_of_type_eq hfresh' hb hbf.1
      exact ⟨childElements_eq_nil_of_eq htype hfresh ha haf.childElements_eq,
        childElements_eq_nil_of_eq htype' hfresh' hb hbf.2, htype, htype'⟩
    · rintro ⟨hempty, hempty', htype, htype'⟩
      obtain ⟨a, ha, haf⟩ := exists_sameValue htype hempty hfresh
      obtain ⟨b, hb, hbf⟩ := exists_sameValue htype' hempty' hfresh'
      exact ⟨a, b, ha, hb, haf.trans_symm hbf, haf⟩
  · intro fault hfresh htype htype'
    refine ⟨decode_eq_error htype hfresh, decode_eq_error htype' ?_⟩
    rw [hfresh_second, hfresh]

/-- The settings of a compound in a list. -/
def compoundInArray : NBTSettings := ⟨true, false, .compound⟩

/-- Nothing to read makes an empty compound. -/
theorem decode_compoundInArray {buffer : ByteBuffer} (hpeek : peek buffer = .ok (none, buffer)) :
    decode 2 (new compoundInArray) buffer =
      .ok (blank compoundInArray [] .compound, buffer) := by
  have hentries : ∀ settings, decodeEntries 1 settings [] buffer = .ok ([], buffer) := by
    intro settings
    rw [decodeEntries, bind_of_eq_ok hpeek]
    rfl
  have hhead : decodeHead (forceType (new compoundInArray)) buffer =
      .ok (blank compoundInArray [] .compound, buffer) := rfl
  have horder : isBigEndian buffer = .ok (buffer.isBigEndian, buffer) := rfl
  rw [decode, bind_of_eq_ok hhead]
  simp only [decodeBody, blank]
  rw [bind_of_eq_ok horder, bind_of_eq_ok (hentries _)]
  rfl

/-- An old text and an old number, and an empty buffer. -/
theorem forgets_text : ∃ a b,
    decode 2 { new compoundInArray with stringValue := [97] } .new = .ok (a, .new) ∧
      decode 2 { new compoundInArray with intValue := 5 } .new = .ok (b, .new) ∧
      a.SameValue b ∧ a.SameValue (blank compoundInArray [] .compound) := by
  have htype : ∀ element : NBTElement, element.settings = compoundInArray → element.TypeGiven := by
    intro element hsettings _ hforced
    rw [hsettings] at hforced
    cases hforced
  have hpeek : peek .new = .ok (none, .new) := if_neg (by decide)
  exact ((forgets_iff 2 .new { new compoundInArray with stringValue := [97] }
    { new compoundInArray with intValue := 5 } rfl).1 _ _ (decode_compoundInArray hpeek)).mpr
      ⟨rfl, rfl, htype _ rfl, htype _ rfl⟩

/-- A compound that was read before keeps its child when an empty compound is read into it. -/
theorem not_forgets_child : ¬ ∃ a b rest,
    decode 3 (compound [] [byte [] 7]) (ofBytes [10, 0, 0, 0]) = .ok (a, rest) ∧
      decode 3 (.new .new) (ofBytes [10, 0, 0, 0]) = .ok (b, rest) ∧ a.SameValue b := by
  rintro ⟨a, b, rest, ha, hb, hab⟩
  have hold : (decode 3 (compound [] [byte [] 7]) (ofBytes [10, 0, 0, 0])).map
      (fun p => p.1.childElements.length) = .ok 1 := by decide +kernel
  have hfresh : (decode 3 (.new .new) (ofBytes [10, 0, 0, 0])).map
      (fun p => p.1.childElements.length) = .ok 0 := by decide +kernel
  rw [ha] at hold
  rw [hb] at hfresh
  have hone : a.childElements.length = 1 := Except.ok.inj hold
  have hzero : b.childElements.length = 0 := Except.ok.inj hfresh
  rw [hab.childElements_eq, hzero] at hone
  cases hone

end NBTElement

end Zinc.Nbt
