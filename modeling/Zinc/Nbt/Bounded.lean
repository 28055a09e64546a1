import Zinc.Nbt.Following

/-! How many elements decoding can make of its input. Outside a list an element takes
its type byte, so it pays for itself; the elements of a list are counted by a length
that nothing compares with the input, and an element of an unknown type, or behind the
end of the input, takes nothing. A list whose elements all have a named type and begin
inside the input pays for them, and its own header pays for a compound that the end of
the input cuts off. Decoding always comes to an end, since what nests takes bytes of the
memory. -/

namespace Zinc.Nbt

open Throw Buffer Buffer.InternalByteBuffer Buffer.ByteBuffer NBTElementType NBTElement

mutual

/-- The number of elements. -/
def Tree.count : Tree → ℕ
  | .scalar _ _ => 1
  | .list _ children => Tree.counts children + 1
  | .compound _ children => Tree.counts children + 1

def Tree.counts : List Tree → ℕ
  | [] => 0
  | t :: ts => Tree.count t + Tree.counts ts

end

namespace Flat

/-! ### What readers take -/

/-- At least `n` bytes of the memory are taken, as far as there are any. -/
def Takes {α : Type} (n : ℕ) (x : Parser α) : Prop :=
  Ensures (fun memory _ rest => rest.length ≤ memory.length - n) x

theorem Takes.bind {α β : Type} {m n : ℕ} {x : Parser α} {f : α → Parser β} (hx : Takes m x)
    (hf : ∀ a, Takes n (f a)) : Takes (m + n) (x >>= f) := by
  refine Ensures.bind hx hf fun memory _ memory₁ _ rest h h' => ?_
  omega

theorem Takes.map {α β : Type} {n : ℕ} {x : Parser α} (f : α → β) (hx : Takes n x) :
    Takes n (x >>= fun a => pure (f a)) :=
  Ensures.map f hx fun _ _ _ h => h

theorem Takes.le {α : Type} {m n : ℕ} {x : Parser α} (hx : Takes n x) (h : m ≤ n) : Takes m x :=
  Ensures.mono hx fun memory _ rest hle => by omega

theorem takes_pure {α : Type} (a : α) : Takes 0 (pure a : Parser α) :=
  Ensures.pure fun _ => le_rfl

theorem takes_readBytes (n : ℕ) : Takes n (readBytes n) := by
  intro memory bytes rest h
  unfold readBytes at h
  split at h <;> cases h
  rw [List.length_drop]

/-- Nothing is read from an empty memory. -/
theorem readByte_lt : Ensures (fun memory _ rest => rest.length < memory.length) readByte := by
  intro memory c rest h
  cases memory with
  | nil => cases h
  | cons d memory =>
    cases h
    simp

theorem takes_readByte : Takes 1 readByte :=
  readByte_lt.mono fun memory _ rest h => by omega

theorem takes_readNumeric (e : Bool) (k : ℕ) : Takes k (readNumeric e k) :=
  (takes_readBytes k).map _

theorem takes_readVarNumeric (k : ℕ) : Takes 1 (readVarNumeric k) := by
  intro memory value rest h
  have hsize : 0 < varNumericMaxSize k := Nat.succ_pos _
  unfold readVarNumeric at h
  split at h
  next n hdec =>
    cases h
    have hne : memory ≠ [] := by
      rintro rfl
      cases hmax : varNumericMaxSize k <;> simp [hmax, Base128.decode] at hdec
    have hpos := Base128.span_pos hsize hne
    rw [List.length_drop]
    omega
  next =>
    split at h <;> cases h
    rw [List.length_drop]
    omega

theorem takes_readZigZagVarNumeric (k : ℕ) : Takes 1 (readZigZagVarNumeric k) :=
  (takes_readVarNumeric k).map _

theorem takes_readString : Takes 1 readString :=
  (takes_readVarNumeric 4).bind (n := 0) fun _ => (takes_readBytes _).le (Nat.zero_le _)

theorem takes_readShortString (e : Bool) : Takes 1 (readShortString e) :=
  ((takes_readNumeric e 2).bind (n := 0) fun _ => (takes_readBytes _).le (Nat.zero_le _)).le
    (by decide)

theorem takes_readTag (e : Bool) (settings : NBTSettings) : Takes 0 (readTag e settings) := by
  unfold readTag
  split
  · exact (takes_readShortString e).le (Nat.zero_le _)
  · split
    · exact takes_pure _
    · exact takes_readString.le (Nat.zero_le _)

theorem takes_readNumber (e : Bool) {k : ℕ} (hk : 1 ≤ k) (settings : NBTSettings) :
    Takes 1 (readNumber e k settings) := by
  unfold readNumber
  split
  · exact (takes_readNumeric e k).le hk
  · split
    · exact takes_readZigZagVarNumeric k
    · exact (takes_readNumeric e k).le hk

theorem takes_readInt (e : Bool) (settings : NBTSettings) : Takes 1 (readInt e settings) :=
  takes_readNumber e (by decide) settings

theorem takes_readLength (e : Bool) (settings : NBTSettings) : Takes 1 (readLength e settings) :=
  (takes_readInt e settings).map _

theorem takes_readStringValue (e : Bool) (settings : NBTSettings) :
    Takes 1 (readStringValue e settings) := by
  unfold readStringValue
  split
  · exact takes_readShortString e
  · split
    · exact takes_readShortString e
    · exact takes_readString

theorem takes_replicate {α : Type} {x : Parser α} (hx : Takes 0 x) (n : ℕ) :
    Takes 0 (replicate x n) := by
  induction n with
  | zero => exact takes_pure []
  | succ n ih => exact hx.bind fun a => ih.map (a :: ·)

/-- The type byte of an element outside a list. -/
theorem takes_parseHead (e : Bool) (settings : NBTSettings) :
    Takes (if settings.isInArray then 0 else 1) (parseHead e settings) := by
  unfold parseHead
  split
  · exact takes_pure _
  · refine takes_readByte.bind (n := 0) fun code => ?_
    split
    · exact takes_pure _
    · exact (takes_readTag e settings).map _

theorem parseHead_lt (e : Bool) {settings : NBTSettings} (harr : settings.isInArray = false) :
    Ensures (fun memory _ rest => rest.length < memory.length) (parseHead e settings) := by
  unfold parseHead
  rw [if_neg (by simp [harr])]
  refine readByte_lt.bind (Q := fun _ memory _ rest => rest.length ≤ memory.length) (fun code => ?_)
    fun memory _ memory₁ _ rest h h' => by omega
  split
  · exact takes_pure _
  · exact (takes_readTag e settings).map _

/-- Every named type with a value takes a byte. -/
theorem takes_parseScalar (e : Bool) (settings : NBTSettings) (type : NBTElementType) :
    Takes (if isNamed type ∧ type ≠ .endTag ∧ type ≠ .list ∧ type ≠ .compound then 1 else 0)
      (parseScalar e settings type) := by
  cases type with
  | byte => exact takes_readByte.map _
  | short => exact ((takes_readNumeric e 2).map _).le (by decide)
  | int => exact (takes_readInt e settings).map _
  | long => exact (takes_readNumber e (show 1 ≤ 8 by decide) settings).map _
  | float => exact ((takes_readNumeric e 4).map _).le (by decide)
  | double => exact ((takes_readNumeric e 8).map _).le (by decide)
  | byteArray =>
    exact (takes_readLength e settings).bind (n := 0) fun length =>
      ((takes_readBytes length).map _).le (Nat.zero_le _)
  | intArray =>
    exact (takes_readLength e settings).bind (n := 0) fun length =>
      (takes_replicate ((takes_readNumeric e 4).le (Nat.zero_le _)) length).map _
  | longArray =>
    exact (takes_readLength e settings).bind (n := 0) fun length =>
      (takes_replicate ((takes_readNumeric e 8).le (Nat.zero_le _)) length).map _
  | string => exact (takes_readStringValue e settings).map _
  | _ => exact (takes_pure _).le (by simp [isNamed])

/-! ### What elements take -/

variable {A : Allocation}

theorem takes_check (type : NBTElementType) : Takes 0 (check A type) :=
  (check_state A type).mono fun memory _ rest h => by rw [h]; exact le_rfl

theorem takes_peek : Takes 0 (peek A) := by
  intro memory c rest h
  unfold peek at h
  split at h
  · cases h
    exact le_rfl
  · split at h <;> cases h
    exact le_rfl

theorem takes_parseBody {parse : NBTSettings → Parser Tree}
    {parseEntries : NBTSettings → Parser (List Tree)} (hparse : ∀ settings, Takes 0 (parse settings))
    (hentries : ∀ settings, Takes 0 (parseEntries settings)) (settings : NBTSettings)
    (type : NBTElementType) (tag : Bytes) :
    Takes 0 (parseBody A parse parseEntries settings type tag) := by
  have hscalar := ((takes_parseScalar A.isBigEndian settings type).map (Tree.scalar tag)).le
    (Nat.zero_le _)
  cases type with
  | list =>
    refine (takes_readByte.le (Nat.zero_le 1)).bind (n := 0) fun code => ?_
    refine ((takes_readLength _ _).le (Nat.zero_le 1)).bind (n := 0) fun length => ?_
    exact (takes_replicate ((takes_check _).bind (n := 0) fun _ => hparse _) _).map _
  | compound => exact (hentries _).map _
  | _ => exact hscalar

theorem takes_parse (n : ℕ) :
    (∀ settings, Takes 0 (parse A n settings)) ∧ ∀ settings, Takes 0 (parseEntries A n settings) := by
  induction n with
  | zero =>
    constructor
    · rintro settings memory t rest ⟨⟩
    · rintro settings memory ts rest ⟨⟩
  | succ n ih =>
    obtain ⟨hparse, hentries⟩ := ih
    constructor
    · intro settings
      rw [parse]
      exact ((takes_parseHead A.isBigEndian settings).le (Nat.zero_le _)).bind (n := 0) fun p =>
        takes_parseBody hparse hentries settings p.1 p.2
    · intro settings
      rw [parseEntries]
      refine takes_peek.bind (n := 0) fun c => ?_
      cases c with
      | none => exact takes_pure _
      | some c =>
        by_cases hc : c = 0
        · simp only [if_pos hc]
          exact (takes_readByte.map _).le (Nat.zero_le 1)
        · simp only [if_neg hc]
          exact (hparse settings).bind (n := 0) fun child => (hentries settings).map (child :: ·)

/-- An element outside a list takes its type byte. -/
theorem parse_lt (n : ℕ) {settings : NBTSettings} (harr : settings.isInArray = false) :
    Ensures (fun memory _ rest => rest.length < memory.length) (parse A n settings) := by
  cases n with
  | zero => rintro memory t rest ⟨⟩
  | succ n =>
    rw [parse]
    refine (parseHead_lt A.isBigEndian harr).bind (Q := fun _ memory _ rest =>
      rest.length ≤ memory.length) (fun p => ?_) fun memory _ memory₁ _ rest h h' => by omega
    exact takes_parseBody (takes_parse n).1 (takes_parse n).2 settings p.1 p.2

/-! ### Decoding ends -/

/-- No reader runs out of a bound. -/
abbrev Ends {α : Type} (x : Parser α) : Prop := Avoids .stuck (fun _ => True) x

theorem Ends.bind {α β : Type} {x : Parser α} {f : α → Parser β} (hx : Ends x)
    (hf : ∀ a, Ends (f a)) : Ends (x >>= f) :=
  Avoids.bind hx (E := fun _ _ => True) (fun _ _ _ _ _ => trivial) hf

theorem ends_readBytes (n : ℕ) : Ends (readBytes n) := by
  intro memory _ h
  unfold readBytes at h
  split at h <;> cases h

theorem ends_readByte : Ends readByte := by
  intro memory _ h
  cases memory <;> cases h

theorem ends_readNumeric (e : Bool) (k : ℕ) : Ends (readNumeric e k) :=
  (ends_readBytes k).bind fun _ => .pure _

theorem ends_readVarNumeric (k : ℕ) : Ends (readVarNumeric k) := by
  intro memory _ h
  unfold readVarNumeric at h
  split at h
  · cases h
  · split at h <;> cases h

theorem ends_readString : Ends readString := (ends_readVarNumeric 4).bind fun _ => ends_readBytes _

theorem ends_readShortString (e : Bool) : Ends (readShortString e) :=
  (ends_readNumeric e 2).bind fun _ => ends_readBytes _

theorem ends_readNumber (e : Bool) (k : ℕ) (settings : NBTSettings) :
    Ends (readNumber e k settings) := by
  unfold readNumber
  split
  · exact ends_readNumeric e k
  · split
    · exact (ends_readVarNumeric k).bind fun _ => .pure _
    · exact ends_readNumeric e k

theorem ends_readLength (e : Bool) (settings : NBTSettings) : Ends (readLength e settings) :=
  (ends_readNumber e 4 settings).bind fun _ => .pure _

theorem ends_peek : Ends (peek A) := by
  intro memory _ h
  unfold peek at h
  split at h
  · cases h
  · split at h <;> cases h

theorem ends_parseHead (e : Bool) (settings : NBTSettings) : Ends (parseHead e settings) := by
  unfold parseHead
  split
  · exact .pure _
  · refine ends_readByte.bind fun code => ?_
    split
    · exact .pure _
    · refine Ends.bind ?_ fun _ => .pure _
      unfold readTag
      split
      · exact ends_readShortString e
      · split
        · exact .pure _
        · exact ends_readString

theorem ends_parseScalar (e : Bool) (settings : NBTSettings) (type : NBTElementType) :
    Ends (parseScalar e settings type) := by
  have harray : ∀ k length, Ends (replicate (readNumeric e k) length) := fun k length =>
    (ends_readNumeric e k).replicate (fun _ _ _ _ _ => trivial) length
  cases type with
  | byte => exact ends_readByte.bind fun _ => .pure _
  | short => exact (ends_readNumeric e 2).bind fun _ => .pure _
  | int => exact (ends_readNumber e 4 settings).bind fun _ => .pure _
  | long => exact (ends_readNumber e 8 settings).bind fun _ => .pure _
  | float => exact (ends_readNumeric e 4).bind fun _ => .pure _
  | double => exact (ends_readNumeric e 8).bind fun _ => .pure _
  | byteArray =>
    exact (ends_readLength e settings).bind fun _ => (ends_readBytes _).bind fun _ => .pure _
  | intArray => exact (ends_readLength e settings).bind fun _ => (harray 4 _).bind fun _ => .pure _
  | longArray => exact (ends_readLength e settings).bind fun _ => (harray 8 _).bind fun _ => .pure _
  | string =>
    refine Ends.bind ?_ fun _ => .pure _
    unfold readStringValue
    split
    · exact ends_readShortString e
    · split
      · exact ends_readShortString e
      · exact ends_readString
  | _ => exact .pure _

/-- The bound left for what follows the type and the tag. -/
theorem parseBody_avoids (hA : A.strict = false) {n : ℕ} {parse : NBTSettings → Parser Tree}
    {parseEntries : NBTSettings → Parser (List Tree)} (htakes : ∀ settings, Takes 0 (parse settings))
    (hparse : ∀ settings, Avoids .stuck (fun memory => 2 * memory.length + 3 ≤ n) (parse settings))
    (hentries : ∀ settings, settings.isInArray = false →
      Avoids .stuck (fun memory => 2 * memory.length + 2 ≤ n) (parseEntries settings))
    (settings : NBTSettings) (type : NBTElementType) (tag : Bytes) :
    Avoids .stuck (fun memory => 2 * memory.length + 2 ≤ n)
      (parseBody A parse parseEntries settings type tag) := by
  have hscalar : Avoids .stuck (fun memory => 2 * memory.length + 2 ≤ n) (do
      let value ← parseScalar A.isBigEndian settings type
      pure (Tree.scalar tag value)) := fun memory _ =>
    (ends_parseScalar A.isBigEndian settings type).bind (fun _ => .pure _) memory trivial
  cases type with
  | list =>
    refine Avoids.bind (fun memory _ => ends_readByte memory trivial)
      (E := fun _ memory => 2 * memory.length + 3 ≤ n)
      (readByte_lt.mono fun memory _ rest h hn => by omega) fun code => ?_
    refine Avoids.bind (fun memory _ => ends_readLength _ _ memory trivial)
      (E := fun _ memory => 2 * memory.length + 3 ≤ n)
      ((takes_readLength _ _).mono fun memory _ rest h hn => by omega) fun length => ?_
    have hcheck : ∀ memory, check A (ofByte code) memory = .ok ((), memory) := fun memory => by
      simp [check, hA]
    have helement : Avoids .stuck (fun memory => 2 * memory.length + 3 ≤ n) (do
        check A (ofByte code)
        parse (elementSettings A.isBigEndian settings (ofByte code))) := fun memory hn => by
      rw [bind_of_eq_ok (hcheck memory)]
      exact hparse _ memory hn
    have htakes' : Takes 0 (do
        check A (ofByte code)
        parse (elementSettings A.isBigEndian settings (ofByte code))) :=
      (takes_check _).bind (n := 0) fun _ => htakes _
    refine Avoids.bind (helement.replicate (htakes'.mono fun memory _ rest h hn => by omega) _)
      (E := fun _ _ => True) (fun _ _ _ _ _ => trivial) fun _ => .pure _
  | compound =>
    exact (hentries _ rfl).bind (E := fun _ _ => True) (fun _ _ _ _ _ => trivial) fun _ => .pure _
  | _ => exact hscalar

/-- A bound on the recursion that is twice the memory is never used up. -/
theorem parse_avoids (hA : A.strict = false) (n : ℕ) :
    (∀ settings, Avoids .stuck
      (fun memory => 2 * memory.length + (if settings.isInArray then 3 else 1) ≤ n)
      (parse A n settings)) ∧
    ∀ settings, settings.isInArray = false →
      Avoids .stuck (fun memory => 2 * memory.length + 2 ≤ n) (parseEntries A n settings) := by
  induction n with
  | zero =>
    refine ⟨fun settings memory hn => ?_, fun settings _ memory hn => ?_⟩
    · split at hn <;> omega
    · omega
  | succ n ih =>
    obtain ⟨hparse, hentries⟩ := ih
    have hbody := parseBody_avoids hA (takes_parse n).1
      (fun settings memory hn => hparse settings memory (by split <;> omega)) hentries
    constructor
    · intro settings
      rw [parse]
      refine Avoids.bind (fun memory _ => ends_parseHead _ _ memory trivial)
        (E := fun _ memory => 2 * memory.length + 2 ≤ n) ?_ fun p => hbody settings p.1 p.2
      cases harr : settings.isInArray with
      | true =>
        refine (takes_parseHead A.isBigEndian settings).mono fun memory _ rest h hn => ?_
        simp only [harr, if_true] at h hn
        omega
      | false =>
        refine (parseHead_lt A.isBigEndian harr).mono fun memory _ rest h hn => ?_
        simp only [Bool.false_eq_true, if_false] at hn
        omega
    · intro settings harr
      rw [parseEntries]
      refine Avoids.bind (fun memory _ => ends_peek memory trivial)
        (E := fun _ memory => 2 * memory.length + 1 ≤ n)
        (takes_peek.mono fun memory _ rest h hn => by omega) fun c => ?_
      cases c with
      | none => exact .pure _
      | some c =>
        by_cases hc : c = 0
        · simp only [if_pos hc]
          exact fun memory _ => (ends_readByte.bind fun _ => .pure _) memory trivial
        · simp only [if_neg hc]
          refine Avoids.bind (fun memory hn => hparse settings memory (by simpa [harr] using hn))
            (E := fun _ memory => 2 * memory.length + 2 ≤ n)
            ((parse_lt n harr).mono fun memory _ rest h hn => by omega) fun child => ?_
          exact (hentries settings harr).bind (E := fun _ _ => True) (fun _ _ _ _ _ => trivial)
            fun _ => .pure _

/-! ### What elements pay -/

/-- The bytes of the input that are still ahead. -/
def left (A : Allocation) (memory : Bytes) : ℕ := memory.length - A.unwritten

/-- What follows the type and the tag is paid by the input it takes, but for the element itself.
A named type pays for that as well, unless the input ends. -/
structure PaysBody (A : Allocation) (type : NBTElementType) (memory : Bytes) (t : Tree)
    (rest : Bytes) : Prop where
  bound : t.count + left A rest ≤ left A memory + 1
  named : 0 < left A memory → isNamed type → type ≠ .endTag →
    t.count + left A rest ≤ left A memory ∨ left A rest = 0

/-- An element outside a list that begins in the input is paid by the input it takes. -/
structure Pays (A : Allocation) (settings : NBTSettings) (memory : Bytes) (t : Tree)
    (rest : Bytes) : Prop where
  bound : t.count + left A rest ≤ left A memory + 1
  entry : settings.isInArray = false → 0 < left A memory → t.count + left A rest ≤ left A memory
  element : settings.isInArray = true → 0 < left A memory → isNamed settings.type →
    settings.type ≠ .endTag → t.count + left A rest ≤ left A memory ∨ left A rest = 0

/-- The children of a compound are paid, and their end as well unless the input ends. -/
structure PaysEntries (A : Allocation) (memory : Bytes) (ts : List Tree) (rest : Bytes) : Prop where
  bound : Tree.counts ts + left A rest ≤ left A memory
  closed : Tree.counts ts + 1 + left A rest ≤ left A memory ∨ left A rest = 0

/-- The elements of a list are paid but for one, and that one is the last of the input. -/
def PaysElements (A : Allocation) (memory : Bytes) (ts : List Tree) (rest : Bytes) : Prop :=
  (ts = [] ∧ rest = memory) ∨
    (0 < left A memory ∧ Tree.counts ts + left A rest ≤ left A memory + 1 ∧
      (Tree.counts ts + left A rest ≤ left A memory ∨ left A rest = 0))

theorem check_of_strict (hA : A.strict = true) {type : NBTElementType} {memory memory' : Bytes}
    {u : Unit} (h : check A type memory = .ok (u, memory')) :
    memory' = memory ∧ isNamed type = true ∧ 0 < left A memory := by
  unfold check at h
  split at h
  next => cases h
  next hcheck =>
    cases h
    simp only [hA, Bool.true_and, Bool.not_eq_true', Bool.not_eq_false, Bool.and_eq_true,
      decide_eq_true_eq] at hcheck
    refine ⟨rfl, hcheck.1, ?_⟩
    rw [left]
    omega

theorem paysElements (hA : A.strict = true) {parse : NBTSettings → Parser Tree}
    (hparse : ∀ settings, Ensures (Pays A settings) (parse settings)) (settings : NBTSettings)
    {type : NBTElementType} (hend : type ≠ .endTag) (n : ℕ) :
    Ensures (PaysElements A) (replicate (do
      check A type
      parse (elementSettings A.isBigEndian settings type)) n) := by
  induction n with
  | zero =>
    rintro memory ts rest ⟨⟩
    exact .inl ⟨rfl, rfl⟩
  | succ n ih =>
    intro memory ts rest h
    obtain ⟨⟨t, memory₁⟩, helement, h⟩ := bind_eq_ok.mp h
    obtain ⟨⟨ts', rest'⟩, helements, h⟩ := bind_eq_ok.mp h
    cases h
    obtain ⟨⟨u, memory'⟩, hcheck, hparsed⟩ := bind_eq_ok.mp helement
    obtain ⟨rfl, hnamed, hpos⟩ := check_of_strict hA hcheck
    have hpays := hparse _ _ _ _ hparsed
    have hfirst := hpays.element rfl hpos hnamed hend
    have hbound := hpays.bound
    obtain ⟨rfl, rfl⟩ | ⟨hpos', hrest, hlast⟩ := ih _ _ _ helements
    · exact .inr ⟨hpos, by simpa [Tree.counts] using hbound, by simpa [Tree.counts] using hfirst⟩
    · simp only [PaysElements, Tree.counts]
      omega

theorem paysBody (hA : A.strict = true) {parse : NBTSettings → Parser Tree}
    {parseEntries : NBTSettings → Parser (List Tree)}
    (hparse : ∀ settings, Ensures (Pays A settings) (parse settings))
    (hentries : ∀ settings, settings.isInArray = false → Ensures (PaysEntries A) (parseEntries settings))
    (settings : NBTSettings) (type : NBTElementType) (tag : Bytes) :
    Ensures (PaysBody A type) (parseBody A parse parseEntries settings type tag) := by
  have hscalar : type ≠ .list → type ≠ .compound → Ensures (PaysBody A type) (do
      let value ← parseScalar A.isBigEndian settings type
      pure (Tree.scalar tag value)) := by
    intro hl hc
    refine Ensures.map _ (takes_parseScalar A.isBigEndian settings type) fun memory value rest h => ?_
    constructor
    · simp only [Tree.count, left]
      omega
    · intro hpos hnamed hend
      rw [if_pos ⟨hnamed, hend, hl, hc⟩] at h
      simp only [Tree.count, left] at hpos ⊢
      omega
  cases type with
  | list =>
    intro memory t rest h
    obtain ⟨⟨code, memory₁⟩, hcode, h⟩ := bind_eq_ok.mp h
    obtain ⟨⟨length, memory₂⟩, hlength, h⟩ := bind_eq_ok.mp h
    obtain ⟨⟨children, memory₃⟩, helements, h⟩ := bind_eq_ok.mp h
    cases h
    have hbyte := readByte_lt _ _ _ hcode
    have hheader := takes_readLength _ _ _ _ _ hlength
    have hpays : PaysElements A memory₂ children rest := by
      by_cases hend : ofByte code = .endTag
      · rw [if_pos hend] at helements
        cases helements
        exact .inl ⟨rfl, rfl⟩
      · exact paysElements hA hparse settings hend _ _ _ _ helements
    simp only at hbyte hheader
    obtain ⟨rfl, rfl⟩ | ⟨hpos, hbound, -⟩ := hpays
    · constructor
      · simp only [Tree.count, Tree.counts, left]
        omega
      · simp only [Tree.count, Tree.counts, left]
        omega
    · simp only [left] at hpos hbound
      constructor
      · simp only [Tree.count, left]
        omega
      · simp only [Tree.count, left]
        omega
  | compound =>
    refine (hentries _ rfl).map _ fun memory children rest h => ?_
    have hbound := h.bound
    have hclosed := h.closed
    constructor
    · simp only [Tree.count]
      omega
    · simp only [Tree.count]
      omega
  | _ => exact hscalar (by rintro ⟨⟩) (by rintro ⟨⟩)

theorem pays (hA : A.strict = true) (n : ℕ) :
    (∀ settings, Ensures (Pays A settings) (parse A n settings)) ∧
      ∀ settings, settings.isInArray = false → Ensures (PaysEntries A) (parseEntries A n settings) := by
  induction n with
  | zero =>
    constructor
    · rintro settings memory t rest ⟨⟩
    · rintro settings - memory ts rest ⟨⟩
  | succ n ih =>
    obtain ⟨hparse, hentries⟩ := ih
    constructor
    · intro settings memory t rest h
      rw [parse] at h
      obtain ⟨⟨⟨type, tag⟩, memory₁⟩, hhead, h⟩ := bind_eq_ok.mp h
      have hbody := paysBody hA hparse hentries settings type tag _ _ _ h
      have hbound := hbody.bound
      cases harr : settings.isInArray with
      | true =>
        have hsame : type = settings.type ∧ memory₁ = memory := by
          rw [parseHead, if_pos harr] at hhead
          cases hhead
          exact ⟨rfl, rfl⟩
        obtain ⟨rfl, rfl⟩ := hsame
        exact ⟨hbound, fun h => absurd (harr.symm.trans h) (by decide), fun _ => hbody.named⟩
      | false =>
        have hlt := parseHead_lt A.isBigEndian harr _ _ _ hhead
        have hleft : left A memory₁ ≤ left A memory - 1 := by
          unfold left
          omega
        exact ⟨by omega, fun _ hpos => by omega, fun h => absurd (harr.symm.trans h) (by decide)⟩
    · intro settings harr memory ts rest h
      obtain ⟨hend, rfl, rfl⟩ | ⟨hfront, rfl, rfl⟩ |
        ⟨child, memory₁, children, hfront, hchild, hchildren, rfl⟩ := parseEntries_cases h
      · refine ⟨by rw [Tree.counts]; omega, .inr ?_⟩
        unfold left
        omega
      · rw [List.length_cons] at hfront
        have hone : left A rest + 1 = left A (0 :: rest) := by
          simp only [left, List.length_cons]
          omega
        exact ⟨by rw [Tree.counts]; omega, .inl (by rw [Tree.counts]; omega)⟩
      · have hpos : 0 < left A memory := by
          unfold left
          omega
        have hentry := (hparse settings _ _ _ hchild).entry harr hpos
        have hrest := hentries settings harr _ _ _ hchildren
        have hbound := hrest.bound
        have hclosed := hrest.closed
        exact ⟨by rw [Tree.counts]; omega, by rw [Tree.counts]; omega⟩

end Flat

/-! ### Main results -/

/-- `ByteBuffer(bytes, 0, isBigEndian)`. -/
def holding (isBigEndian : Bool) (bytes : Bytes) : ByteBuffer :=
  ⟨(ofBytes bytes).internalBuffer, isBigEndian⟩

variable {bytes : Bytes} {e : Bool}

theorem holds_ofBytes (bytes : Bytes) : (ofBytes bytes).internalBuffer.Holds bytes :=
  (writeBytes_new bytes).2.1.1

theorem ahead_ofBytes (bytes : Bytes) : (ofBytes bytes).internalBuffer.ahead = memory bytes :=
  (writeBytes_new bytes).2.ahead.ahead_eq

theorem passed_holding (e : Bool) (bytes : Bytes) :
    Passed (ofBytes bytes).internalBuffer e (holding e bytes) (memory bytes) := by
  rw [← ahead_ofBytes]
  exact passed_start (holds_ofBytes bytes).shape e

/-- Each element of a list that decoding meets has a named type and begins in the bytes. -/
def ElementsInside (isBigEndian : Bool) (n : ℕ) (settings : NBTSettings) (bytes : Bytes) : Prop :=
  Flat.parse (allocation (ofBytes bytes).internalBuffer isBigEndian true) n settings (memory bytes) ≠
    .error .stuck

theorem length_memory (e strict : Bool) (bytes : Bytes) : (memory bytes).length =
    bytes.length + (allocation (ofBytes bytes).internalBuffer e strict).unwritten := by
  have hahead := congrArg List.length (holds_ofBytes bytes).ahead_eq
  rwa [ahead_ofBytes, List.length_append, length_zeros] at hahead

theorem left_memory (e strict : Bool) (bytes : Bytes) :
    Flat.left (allocation (ofBytes bytes).internalBuffer e strict) (memory bytes) = bytes.length := by
  rw [Flat.left, length_memory e strict]
  exact Nat.add_sub_cancel ..

/-- The memory ahead of a reader ends where the memory behind the writer does. -/
theorem length_add_pointer (strict : Bool) {buffer : ByteBuffer} {rest : Bytes}
    (h : Passed (ofBytes bytes).internalBuffer e buffer rest) :
    rest.length + buffer.getReaderPointer =
      max (bytes.length + (allocation (ofBytes bytes).internalBuffer e strict).unwritten)
        buffer.getReaderPointer := by
  have hfresh := (writeBytes_new bytes).2
  have hregular := (holds_ofBytes bytes).regular
  have hoff := hregular.writeOffset_lt
  have hwriter := hregular.writer
  have hsize : (ofBytes bytes).internalBuffer.writeBlock * blockSize +
      (ofBytes bytes).internalBuffer.writeOffset = bytes.length := hfresh.size
  have hblocks := h.frame.blocks_eq hfresh.2.recycle_eq.symm
  have hlen := h.shape.length_ahead
  rw [h.ahead_eq, hblocks, ← hwriter, Nat.succ_mul] at hlen
  have hpointer : buffer.getReaderPointer = buffer.internalBuffer.readBlock * blockSize +
      buffer.internalBuffer.readOffset := rfl
  simp only [allocation]
  omega

/-- The bytes of the input that a reader took are those that are not left. -/
theorem consumed_add_left (strict : Bool) {buffer : ByteBuffer} {rest : Bytes}
    (h : Passed (ofBytes bytes).internalBuffer e buffer rest) :
    min buffer.getReaderPointer bytes.length +
      Flat.left (allocation (ofBytes bytes).internalBuffer e strict) rest = bytes.length := by
  have hlength := length_add_pointer strict h
  unfold Flat.left
  omega

theorem decode_ne_stuck (bytes : Bytes) (e : Bool) (settings : NBTSettings) {n : ℕ}
    (hn : 2 * (memory bytes).length + 3 ≤ n) :
    decode n (.new settings) (holding e bytes) ≠ .error .stuck := by
  rw [holding, ne_eq, decode_eq_error_iff (.inl (holds_ofBytes bytes).regular), ahead_ofBytes]
  exact (Flat.parse_avoids rfl n).1 settings _ (by split <;> omega)

theorem count_le (bytes : Bytes) (e : Bool) (settings : NBTSettings) {n : ℕ}
    (hinside : ElementsInside e n settings bytes) {element : NBTElement} {buffer : ByteBuffer}
    (hdecode : decode n (.new settings) (holding e bytes) = .ok (element, buffer)) :
    (tree element).count ≤ 1 + min buffer.getReaderPointer bytes.length := by
  have hfollows := (decode_simulates (.inl (holds_ofBytes bytes).regular) e true n).1 settings _ _ (passed_holding e bytes)
  cases hparse : Flat.parse (allocation (ofBytes bytes).internalBuffer e true) n settings
      (memory bytes) with
  | error f =>
    have hne : f ≠ .stuck := fun h => hinside (h ▸ hparse)
    rw [hfollows.2 f (.inr hne) hparse] at hdecode
    cases hdecode
  | ok p =>
    obtain ⟨t, rest⟩ := p
    obtain ⟨element', buffer', hdecode', htree, hview⟩ := hfollows.1 t rest hparse
    rw [hdecode'] at hdecode
    cases hdecode
    have hbound := ((Flat.pays rfl n).1 settings _ _ _ hparse).bound
    have hconsumed := consumed_add_left true hview
    rw [left_memory, ← htree] at hbound
    omega

/-- Decoding any bytes ends, and when the elements of its lists are inside the bytes it makes at
most one element more than it takes bytes. -/
theorem decode_bounded (bytes : Bytes) (isBigEndian : Bool) (settings : NBTSettings) :
    ∃ bound, ∀ n ≥ bound,
      decode n (.new settings) (holding isBigEndian bytes) ≠ .error .stuck ∧
      (ElementsInside isBigEndian n settings bytes → ∀ element buffer,
        decode n (.new settings) (holding isBigEndian bytes) = .ok (element, buffer) →
        (tree element).count ≤ 1 + min buffer.getReaderPointer bytes.length) :=
  ⟨2 * (memory bytes).length + 3, fun _ hn => ⟨decode_ne_stuck bytes isBigEndian settings hn,
    fun hinside _ _ hdecode => count_le bytes isBigEndian settings hinside hdecode⟩⟩

theorem parse_list {A : Flat.Allocation} {n length : ℕ} {settings : NBTSettings} {tag : Bytes}
    {code : UInt8} {memory memory₁ memory₂ memory₃ rest : Bytes} {children : List Tree}
    (hhead : Flat.parseHead A.isBigEndian settings memory = .ok ((.list, tag), memory₁))
    (hcode : Flat.readByte memory₁ = .ok (code, memory₂))
    (hlength : Flat.readLength A.isBigEndian settings memory₂ = .ok (length, memory₃))
    (hchildren : replicate (do
        Flat.check A (ofByte code)
        Flat.parse A n (Flat.elementSettings A.isBigEndian settings (ofByte code)))
      (if ofByte code = .endTag then 0 else length) memory₃ = .ok (children, rest)) :
    Flat.parse A (n + 1) settings memory = .ok (.list tag children, rest) := by
  rw [Flat.parse, bind_of_eq_ok hhead]
  change (Flat.readByte >>= _) memory₁ = _
  rw [bind_of_eq_ok hcode, bind_of_eq_ok hlength, bind_of_eq_ok hchildren]
  rfl

/-- A list with one byte. -/
theorem decode_bounded_list : ∃ bound, ∀ n ≥ bound,
    (ElementsInside true n .new [9, 0, 0, 1, 0, 0, 0, 1, 5] ∧
      decode n (.new .new) (holding true [9, 0, 0, 1, 0, 0, 0, 1, 5]) ≠ .error .stuck) ∧
    ∀ element buffer,
      decode n (.new .new) (holding true [9, 0, 0, 1, 0, 0, 0, 1, 5]) = .ok (element, buffer) →
      (tree element).count ≤ 1 + min buffer.getReaderPointer 9 := by
  obtain ⟨bound, h⟩ := decode_bounded [9, 0, 0, 1, 0, 0, 0, 1, 5] true .new
  refine ⟨bound + 2, fun n hn => ?_⟩
  obtain ⟨hends, hbounded⟩ := h n (by omega)
  have hinside : ElementsInside true n .new [9, 0, 0, 1, 0, 0, 0, 1, 5] := by
    obtain ⟨n, rfl⟩ : ∃ k, n = k + 2 := ⟨n - 2, by omega⟩
    obtain ⟨A, hA⟩ : ∃ A, A = allocation (ofBytes [9, 0, 0, 1, 0, 0, 0, 1, 5]).internalBuffer true true :=
      ⟨_, rfl⟩
    have hcheck : Flat.check A .byte ([5] ++ zeros (4096 - 9)) = .ok ((), [5] ++ zeros (4096 - 9)) := by
      have hleft := left_memory true true [9, 0, 0, 1, 0, 0, 0, 1, 5]
      have hlength : ([5] ++ zeros (4096 - 9) : Bytes).length = 4088 := by simp
      have hmemory : (memory [9, 0, 0, 1, 0, 0, 0, 1, 5]).length = 4096 := by simp [memory, blockSize]
      rw [Flat.left, ← hA, hmemory, List.length_cons] at hleft
      have hpos : A.unwritten < 4088 := by
        simp only [List.length_cons, List.length_nil] at hleft
        omega
      rw [Flat.check, hlength]
      simp [hpos, Flat.isNamed]
    have hbig : A.isBigEndian = true := by rw [hA]; rfl
    have helements : replicate (do
        Flat.check A .byte
        Flat.parse A (n + 1) (Flat.elementSettings A.isBigEndian .new .byte)) 1
        ([5] ++ zeros (4096 - 9)) = .ok ([.scalar [] (.byte 5)], zeros (4096 - 9)) := by
      rw [hbig, replicate, bind_apply, bind_of_eq_ok hcheck]
      rfl
    have hhead : Flat.parseHead A.isBigEndian .new ([9, 0, 0, 1, 0, 0, 0, 1, 5] ++ zeros (4096 - 9)) =
        .ok ((.list, []), [1, 0, 0, 0, 1, 5] ++ zeros (4096 - 9)) := by
      rw [hbig]
      rfl
    have hcode : Flat.readByte ([1, 0, 0, 0, 1, 5] ++ zeros (4096 - 9)) =
        .ok (1, [0, 0, 0, 1, 5] ++ zeros (4096 - 9)) := rfl
    have hlength : Flat.readLength A.isBigEndian .new ([0, 0, 0, 1, 5] ++ zeros (4096 - 9)) =
        .ok (1, [5] ++ zeros (4096 - 9)) := by
      rw [hbig]
      rfl
    have hparse := parse_list hhead hcode hlength helements
    rw [ElementsInside, ← hA]
    exact fun h => by cases hparse.symm.trans h
  exact ⟨⟨hinside, hends⟩, hbounded hinside⟩

/-- The parser of a list of a hundred elements of an unknown type takes its header only. -/
theorem parse_unknown_list {A : Flat.Allocation} (he : A.isBigEndian = true) (hA : A.strict = false)
    (n : ℕ) (rest : Bytes) :
    Flat.parse A (n + 2) .new ([9, 0, 0, 13, 0, 0, 0, 100] ++ rest) =
      .ok (.list [] (List.replicate 100 (.scalar [] (.other 13))), rest) := by
  obtain ⟨big, unwritten, drains, strict⟩ := A
  obtain rfl := he
  obtain rfl := hA
  have helement : (do
      Flat.check ⟨true, unwritten, drains, false⟩ (.other 13)
      Flat.parse ⟨true, unwritten, drains, false⟩ (n + 1) (Flat.elementSettings true .new (.other 13)))
        rest = .ok (.scalar [] (.other 13), rest) := rfl
  have hhead : Flat.parseHead true .new ([9, 0, 0, 13, 0, 0, 0, 100] ++ rest) =
      .ok ((.list, []), [13, 0, 0, 0, 100] ++ rest) := rfl
  have hcode : Flat.readByte ([13, 0, 0, 0, 100] ++ rest) = .ok (13, [0, 0, 0, 100] ++ rest) := rfl
  have hlength : Flat.readLength true .new ([0, 0, 0, 100] ++ rest) = .ok (100, rest) := rfl
  exact parse_list hhead hcode hlength (replicate_of_eq_ok helement 100)

/-- A list of a hundred elements of an unknown type, made of eight bytes. -/
theorem not_decode_bounded : ¬ ∀ bytes isBigEndian settings, ∃ bound, ∀ n ≥ bound,
    decode n (.new settings) (holding isBigEndian bytes) ≠ .error .stuck ∧
    ∀ element buffer, decode n (.new settings) (holding isBigEndian bytes) = .ok (element, buffer) →
      (tree element).count ≤ 1 + min buffer.getReaderPointer bytes.length := by
  intro h
  obtain ⟨bound, hbound⟩ := h [9, 0, 0, 13, 0, 0, 0, 100] true .new
  obtain ⟨-, hcount⟩ := hbound (bound + 2) (by omega)
  have hfollows := (decode_simulates
    (.inl (holds_ofBytes [9, 0, 0, 13, 0, 0, 0, 100]).regular) true false (bound + 2)).1 .new _ _
    (passed_holding true [9, 0, 0, 13, 0, 0, 0, 100])
  obtain ⟨element, buffer, hdecode, htree, -⟩ := hfollows.1 _ _ (parse_unknown_list rfl rfl bound _)
  have hle := hcount element buffer hdecode
  have htoo : (tree element).count = 101 := by
    rw [htree]
    rfl
  have := Nat.min_le_right buffer.getReaderPointer 8
  simp only [htoo, List.length_cons, List.length_nil] at hle
  omega

end Zinc.Nbt
