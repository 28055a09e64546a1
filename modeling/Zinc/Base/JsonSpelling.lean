import Zinc.Base.JsonWriter
import Zinc.Base.Pieces

/-! Texts of values whose strings are put between quotes as they are. A spelling keeps what
such a text shows of a value: the characters of a number or a word (perhaps none at all), a
string, items or members. As long as no string and no key holds a quote, and no number or
word a character that stands around values, two texts are the same only if their spellings
are. A list of one value without characters looks like an empty one, so it is no
spelling. -/

namespace JsonReader

open Pieces (append_inj_of_stop)

variable {α : Type}

/-! ### Texts that end where they must -/

/-- In front of what can follow a value, no other element has this code. -/
def Separates (code : α → List UInt8) (C : α → Prop) (a : α) : Prop :=
  ∀ b rest rest', C b → Ends rest → Ends rest' → code a ++ rest = code b ++ rest' →
    a = b ∧ rest = rest'

section

variable {code : α → List UInt8} {C : α → Prop} {as bs : List α} {close : UInt8}
  {rest rest' : List UInt8}

theorem ends_flatMap (hclose : close = 93 ∨ close = 125) (as : List α) (rest : List UInt8) :
    Ends (as.flatMap (fun a => 44 :: code a) ++ close :: rest) := by
  cases as with
  | nil => exact ends_cons (.inr hclose)
  | cons a as => exact ends_cons (.inl rfl)

/-- Items behind their commas. -/
theorem flatMap_inj (hclose : close = 93 ∨ close = 125) (has : ∀ a ∈ as, Separates code C a)
    (hbs : ∀ b ∈ bs, C b)
    (heq : as.flatMap (fun a => 44 :: code a) ++ close :: rest =
      bs.flatMap (fun b => 44 :: code b) ++ close :: rest') : as = bs ∧ rest = rest' := by
  have hcomma : close ≠ 44 := by rcases hclose with rfl | rfl <;> decide
  induction as generalizing bs with
  | nil =>
    cases bs with
    | nil => exact ⟨rfl, (List.cons.inj heq).2⟩
    | cons b bs => exact absurd (List.cons.inj heq).1 hcomma
  | cons a as ih =>
    cases bs with
    | nil => exact absurd (List.cons.inj heq).1.symm hcomma
    | cons b bs =>
      simp only [List.flatMap_cons, List.cons_append, List.append_assoc, List.cons.injEq,
        true_and] at heq
      obtain ⟨rfl, htail⟩ := has a List.mem_cons_self b _ _ (hbs b List.mem_cons_self)
        (ends_flatMap hclose as rest) (ends_flatMap hclose bs rest') heq
      obtain ⟨rfl, hsame⟩ := ih (fun a ha => has a (List.mem_cons_of_mem _ ha))
        (fun b hb => hbs b (List.mem_cons_of_mem _ hb)) htail
      exact ⟨rfl, hsame⟩

/-- Items that look like none. -/
def Hidden (code : α → List UInt8) : List α → Prop
  | [a] => code a = []
  | _ => False

theorem joined_ne_nil (hclose : close = 93 ∨ close = 125) (hne : as ≠ []) (hshown : ¬ Hidden code as)
    (hstart : ∀ a ∈ as, ∀ c ∈ (code a).head?, c ≠ close) :
    joined (as.map code) ++ close :: rest ≠ close :: rest' := by
  have hcomma : close ≠ 44 := by rcases hclose with rfl | rfl <;> decide
  obtain ⟨a, as, rfl⟩ := List.exists_cons_of_ne_nil hne
  rw [List.map_cons, joined_cons_eq]
  intro heq
  cases hcode : code a with
  | cons c tail =>
    rw [hcode, List.cons_append, List.cons_append] at heq
    exact hstart a List.mem_cons_self c (by rw [hcode]; rfl) (List.cons.inj heq).1
  | nil =>
    cases as with
    | nil => exact hshown hcode
    | cons b bs =>
      rw [hcode] at heq
      exact hcomma (List.cons.inj heq).1.symm

/-- Items between brackets. -/
theorem joined_inj (hclose : close = 93 ∨ close = 125) (has : ∀ a ∈ as, Separates code C a)
    (hbs : ∀ b ∈ bs, C b) (hshown : ¬ Hidden code as) (hshown' : ¬ Hidden code bs)
    (hstart : ∀ a ∈ as, ∀ c ∈ (code a).head?, c ≠ close)
    (hstart' : ∀ b ∈ bs, ∀ c ∈ (code b).head?, c ≠ close)
    (heq : joined (as.map code) ++ close :: rest = joined (bs.map code) ++ close :: rest') :
    as = bs ∧ rest = rest' := by
  cases as with
  | nil =>
    cases bs with
    | nil => exact ⟨rfl, (List.cons.inj heq).2⟩
    | cons b bs => exact absurd heq.symm (joined_ne_nil hclose (by simp) hshown' hstart')
  | cons a as =>
    cases bs with
    | nil => exact absurd heq (joined_ne_nil hclose (by simp) hshown hstart)
    | cons b bs =>
      rw [List.map_cons, List.map_cons, joined_cons_eq, joined_cons_eq, List.flatMap_map,
        List.flatMap_map, List.append_assoc, List.append_assoc] at heq
      obtain ⟨rfl, htail⟩ := has a List.mem_cons_self b _ _ (hbs b List.mem_cons_self)
        (ends_flatMap hclose as rest) (ends_flatMap hclose bs rest') heq
      obtain ⟨rfl, hsame⟩ := flatMap_inj hclose (fun a ha => has a (List.mem_cons_of_mem _ ha))
        (fun b hb => hbs b (List.mem_cons_of_mem _ hb)) htail
      exact ⟨rfl, hsame⟩

end

/-! ### Spellings -/

/-- What the text of a value shows. -/
inductive Spelling where
  | token (text : List UInt8)
  | string (value : List UInt8)
  | array (elements : List Spelling)
  | object (members : List (List UInt8 × Spelling))

namespace Spelling

mutual

def text : Spelling → List UInt8
  | token text => text
  | string value => quoted value
  | array elements => arrayText (texts elements)
  | object members => objectText (memberTexts members)

def texts : List Spelling → List (List UInt8)
  | [] => []
  | s :: ss => text s :: texts ss

def memberTexts : List (List UInt8 × Spelling) → List (List UInt8)
  | [] => []
  | (key, s) :: members => memberText key (text s) :: memberTexts members

end

theorem texts_eq_map (ss : List Spelling) : texts ss = ss.map text := by
  induction ss with
  | nil => rfl
  | cons s ss ih => rw [texts, ih, List.map_cons]

theorem memberTexts_eq_map (members : List (List UInt8 × Spelling)) :
    memberTexts members = members.map fun member => memberText member.1 (text member.2) := by
  induction members with
  | nil => rfl
  | cons member members ih => rw [memberTexts, ih, List.map_cons]

/-- The characters around values. -/
def marks : List UInt8 := [34, 44, 91, 93, 123, 125]

/-- Strings and keys without quotes, and tokens without marks. -/
inductive Clear : Spelling → Prop
  | token {text : List UInt8} (h : ∀ c ∈ text, c ∉ marks) : Clear (token text)
  | string {value : List UInt8} (h : 34 ∉ value) : Clear (string value)
  | array {elements : List Spelling} (hshown : ¬ Hidden text elements)
      (h : ∀ s ∈ elements, Clear s) : Clear (array elements)
  | object {members : List (List UInt8 × Spelling)} (hkeys : ∀ member ∈ members, 34 ∉ member.1)
      (h : ∀ member ∈ members, Clear member.2) : Clear (object members)

variable {s s' : Spelling}

/-- A text does not begin with what ends another. -/
theorem Clear.head (h : Clear s) : ∀ c ∈ s.text.head?, c ≠ 44 ∧ c ≠ 93 ∧ c ≠ 125 := by
  intro c hc
  cases h with
  | token h =>
    have hmark := h c (List.mem_of_mem_head? hc)
    simp only [marks, List.mem_cons, not_or] at hmark
    exact ⟨hmark.2.1, hmark.2.2.2.1, hmark.2.2.2.2.2.1⟩
  | string _ | array _ _ | object _ _ =>
    obtain rfl := Option.some.inj hc
    decide

theorem Clear.ne_close (h : Clear s) {close : UInt8} (hclose : close = 93 ∨ close = 125) :
    ∀ c ∈ s.text.head?, c ≠ close := by
  intro c hc
  rcases hclose with rfl | rfl
  · exact (h.head c hc).2.1
  · exact (h.head c hc).2.2

/-- What begins with a token begins with nothing else. -/
theorem token_append_ne {text rest tail : List UInt8} {c : UInt8} (h : ∀ c ∈ text, c ∉ marks)
    (hrest : Ends rest) (hc : c = 34 ∨ c = 91 ∨ c = 123) : text ++ rest ≠ c :: tail := by
  intro heq
  cases text with
  | nil =>
    have hends := hrest c (by rw [List.nil_append] at heq; rw [heq]; rfl)
    rcases hc with rfl | rfl | rfl <;> exact absurd hends (by decide)
  | cons d text =>
    obtain ⟨rfl, -⟩ := List.cons.inj heq
    have hmark := h d List.mem_cons_self
    rcases hc with rfl | rfl | rfl <;> exact hmark (by decide)

theorem quoted_inj {a b rest rest' : List UInt8} (ha : 34 ∉ a) (hb : 34 ∉ b)
    (heq : quoted a ++ rest = quoted b ++ rest') : a = b ∧ rest = rest' := by
  simp only [quoted, List.cons_append, List.append_assoc, List.cons.injEq, true_and,
    List.nil_append] at heq
  obtain ⟨rfl, hsame⟩ := append_inj_of_stop (p := (· ≠ 34))
    (fun c hc => ne_of_mem_of_not_mem hc ha) (fun c hc => ne_of_mem_of_not_mem hc hb)
    (by simp) (by simp) heq
  exact ⟨rfl, (List.cons.inj hsame).2⟩

/-- A member is told by its key and by its value. -/
theorem separates_member {key : List UInt8} (hkey : 34 ∉ key) (h : Separates text Clear s) :
    Separates (fun member : List UInt8 × Spelling => memberText member.1 (text member.2))
      (fun member => 34 ∉ member.1 ∧ Clear member.2) (key, s) := by
  rintro ⟨key', s'⟩ rest rest' ⟨hkey', hs'⟩ hrest hrest' heq
  simp only [memberText, List.append_assoc, List.cons_append] at heq
  obtain ⟨rfl, htail⟩ := quoted_inj hkey hkey' heq
  obtain ⟨rfl, hsame⟩ := h s' rest rest' hs' hrest hrest' (List.cons.inj htail).2
  exact ⟨rfl, hsame⟩

theorem not_hidden_members (members : List (List UInt8 × Spelling)) :
    ¬ Hidden (fun member => memberText member.1 (text member.2)) members := by
  rcases members with _ | ⟨member, _ | _⟩ <;> simp [Hidden, memberText, quoted]

theorem ne_close_member (members : List (List UInt8 × Spelling)) : ∀ member ∈ members,
    ∀ c ∈ (memberText member.1 (text member.2)).head?, c ≠ 125 := by
  intro member _ c hc
  obtain rfl := Option.some.inj hc
  decide

theorem Clear.separates (h : Clear s) : Separates text Clear s := by
  induction h with
  | token h =>
    intro s' rest rest' hs' hrest hrest' heq
    cases hs' with
    | token h' =>
      have hstop : ∀ {rest : List UInt8}, Ends rest → ∀ c ∈ rest.head?, ¬ c ∉ marks := by
        intro rest hrest c hc
        rcases hrest c hc with rfl | rfl | rfl <;> decide
      obtain ⟨rfl, hsame⟩ := append_inj_of_stop h h' (hstop hrest) (hstop hrest') heq
      exact ⟨rfl, hsame⟩
    | string _ => exact absurd heq (token_append_ne h hrest (.inl rfl))
    | array _ _ => exact absurd heq (token_append_ne h hrest (.inr (.inl rfl)))
    | object _ _ => exact absurd heq (token_append_ne h hrest (.inr (.inr rfl)))
  | string h =>
    intro s' rest rest' hs' hrest hrest' heq
    cases hs' with
    | token h' => exact absurd heq.symm (token_append_ne h' hrest' (.inl rfl))
    | string h' =>
      obtain ⟨rfl, hsame⟩ := quoted_inj h h' heq
      exact ⟨rfl, hsame⟩
    | array _ _ | object _ _ => exact absurd (List.cons.inj heq).1 (by decide)
  | array hshown h ih =>
    intro s' rest rest' hs' hrest hrest' heq
    cases hs' with
    | token h' => exact absurd heq.symm (token_append_ne h' hrest' (.inr (.inl rfl)))
    | array hshown' h' =>
      simp only [Spelling.text, arrayText, texts_eq_map, List.cons_append, List.append_assoc,
        List.cons.injEq, true_and, List.nil_append] at heq
      obtain ⟨rfl, hsame⟩ := joined_inj (.inl rfl) ih h' hshown hshown'
        (fun s hs => (h s hs).ne_close (.inl rfl)) (fun s hs => (h' s hs).ne_close (.inl rfl)) heq
      exact ⟨rfl, hsame⟩
    | string _ | object _ _ => exact absurd (List.cons.inj heq).1 (by decide)
  | object hkeys h ih =>
    intro s' rest rest' hs' hrest hrest' heq
    cases hs' with
    | token h' => exact absurd heq.symm (token_append_ne h' hrest' (.inr (.inr rfl)))
    | object hkeys' h' =>
      simp only [Spelling.text, objectText, memberTexts_eq_map, List.cons_append,
        List.append_assoc, List.cons.injEq, true_and, List.nil_append] at heq
      obtain ⟨rfl, hsame⟩ := joined_inj (.inr rfl)
        (fun member hmem => separates_member (hkeys member hmem) (ih member hmem))
        (fun member hmem => ⟨hkeys' member hmem, h' member hmem⟩) (not_hidden_members _)
        (not_hidden_members _) (ne_close_member _) (ne_close_member _) heq
      exact ⟨rfl, hsame⟩
    | string _ | array _ _ => exact absurd (List.cons.inj heq).1 (by decide)

/-- A list of one value without characters looks like an empty one. -/
def shown : List Spelling → List Spelling
  | [token []] => []
  | elements => elements

theorem arrayText_shown (elements : List Spelling) :
    arrayText (texts (shown elements)) = arrayText (texts elements) := by
  unfold shown
  split <;> rfl

theorem not_hidden_shown (elements : List Spelling) : ¬ Hidden text (shown elements) := by
  unfold shown
  split
  next => exact id
  next hne =>
    rcases elements with _ | ⟨s, _ | _⟩
    · exact id
    · cases s with
      | token text =>
        intro hempty
        exact hne (by rw [show text = [] from hempty])
      | _ => simp [Hidden, Spelling.text, quoted, arrayText, objectText]
    · exact id

theorem mem_of_mem_shown {elements : List Spelling} (h : s ∈ shown elements) : s ∈ elements := by
  unfold shown at h
  split at h
  · cases h
  · exact h

theorem shown_inj {elements elements' : List Spelling} (h : elements ≠ []) (h' : elements' ≠ []) :
    shown elements = shown elements' ↔ elements = elements' := by
  refine ⟨fun heq => ?_, fun heq => by rw [heq]⟩
  unfold shown at heq
  split at heq <;> split at heq
  · rfl
  · exact absurd heq.symm h'
  · exact absurd heq h
  · exact heq

/-- Clear spellings have the same text only if they are the same. -/
theorem text_inj (h : Clear s) (h' : Clear s') : s.text = s'.text ↔ s = s' := by
  refine ⟨fun heq => ?_, fun heq => by rw [heq]⟩
  exact (h.separates s' [] [] h' ends_nil ends_nil (by rw [heq])).1

end Spelling

theorem integerText_inj {m n : ℤ} : integerText m = integerText n ↔ m = n := by
  refine ⟨fun heq => ?_, fun heq => by rw [heq]⟩
  have hread := reads_integerText m [] ends_nil
  rw [heq, reads_integerText n [] ends_nil, Option.some.injEq, Prod.mk.injEq,
    Value.number.injEq] at hread
  exact hread.1.1.symm

end JsonReader
