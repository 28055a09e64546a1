import Mathlib.Data.List.Basic
import Mathlib.Data.Nat.Basic
import Zinc.Base.JsonReader

/-! Texts that a reader of JSON gives back: integers, strings between quotes and items
with commas between them. A string that is put between quotes as it is comes back only
if nothing in it needs an escape, whatever follows it: reading never makes a string
longer, and no quote of its text is lost. -/

namespace JsonReader

variable {α β : Type} {item : Reader α} {rest rest' : List UInt8} {c close : UInt8} {n : ℕ}

@[simp] theorem skipSpace_cons (text : List UInt8) (h : isSpace c = false) :
    skipSpace (c :: text) = c :: text := by
  rw [skipSpace, List.dropWhile_cons_of_neg (by simp [h])]

/-- What can stand behind a value without space. -/
def Ends (rest : List UInt8) : Prop := ∀ c ∈ rest.head?, c = 44 ∨ c = 93 ∨ c = 125

theorem ends_nil : Ends [] := by simp [Ends]

theorem ends_cons (h : c = 44 ∨ c = 93 ∨ c = 125) : Ends (c :: rest) := by simpa [Ends] using h

/-- A reader gives a value back from its text, whatever may follow. -/
def Reads (item : Reader α) (text : List UInt8) (value : α) : Prop :=
  ∀ rest, Ends rest → item (text ++ rest) = some (value, rest)

/-- A reader that gives this value has read this text and no more, and `P` holds. -/
def Forces (item : Reader α) (text : List UInt8) (value : α) (P : Prop) : Prop :=
  ∀ rest rest', Ends rest → item (text ++ rest) = some (value, rest') → P ∧ rest' = rest

theorem Reads.forces {text : List UInt8} {value : α} {P : Prop} (h : Reads item text value)
    (hp : P) : Forces item text value P := by
  intro rest rest' hrest hread
  rw [h rest hrest] at hread
  exact ⟨hp, (Prod.mk.inj (Option.some.inj hread)).2.symm⟩

/-! ### Integers -/

/-- The digits of a number. -/
def digitsOf (n : ℕ) : List UInt8 := (Nat.toDigits 10 n).map Char.toUInt8

def integerText (value : ℤ) : List UInt8 :=
  if value < 0 then 45 :: digitsOf value.natAbs else digitsOf value.natAbs

theorem digit_facts : ∀ d < 10, isDigit (Nat.digitChar d).toUInt8 = true ∧
    (Nat.digitChar d).toUInt8.toNat - 48 = d ∧
    (d ≠ 0 → (Nat.digitChar d).toUInt8 ≠ 48) := by decide

theorem digitsOf_of_lt (h : n < 10) : digitsOf n = [(Nat.digitChar n).toUInt8] := by
  rw [digitsOf, Nat.toDigits_of_lt_base h, List.map_singleton]

theorem digitsOf_of_le (h : 10 ≤ n) :
    digitsOf n = digitsOf (n / 10) ++ [(Nat.digitChar (n % 10)).toUInt8] := by
  rw [digitsOf, Nat.toDigits_of_base_le (by decide) h, List.map_append, List.map_singleton, digitsOf]

theorem digitsOf_ne_nil (n : ℕ) : digitsOf n ≠ [] := by simp [digitsOf]

theorem isDigit_of_mem_digitsOf (n : ℕ) : ∀ c ∈ digitsOf n, isDigit c = true := by
  induction n using Nat.strongRecOn with
  | ind n ih =>
    by_cases h : n < 10
    · rw [digitsOf_of_lt h]
      simpa using (digit_facts n h).1
    · rw [digitsOf_of_le (by omega)]
      intro c hc
      rcases List.mem_append.mp hc with hfront | hlast
      · exact ih (n / 10) (by omega) c hfront
      · rw [List.mem_singleton.mp hlast]
        exact (digit_facts _ (Nat.mod_lt n (by decide))).1

theorem digitsValue_digitsOf (n : ℕ) : digitsValue (digitsOf n) = n := by
  induction n using Nat.strongRecOn with
  | ind n ih =>
    by_cases h : n < 10
    · rw [digitsOf_of_lt h]
      simpa [digitsValue] using (digit_facts n h).2.1
    · have hvalue := ih (n / 10) (by omega)
      have hlast := (digit_facts _ (Nat.mod_lt n (by decide : 0 < 10))).2.1
      rw [digitsOf_of_le (by omega)]
      rw [digitsValue] at hvalue ⊢
      rw [List.foldl_append, hvalue, List.foldl_cons, List.foldl_nil, hlast]
      omega

/-- A zero does not stand in front of another digit. -/
theorem head_digitsOf (h : n ≠ 0) : (digitsOf n).head? ≠ some 48 := by
  induction n using Nat.strongRecOn with
  | ind n ih =>
    by_cases hn : n < 10
    · rw [digitsOf_of_lt hn]
      simpa using (digit_facts n hn).2.2 h
    · rw [digitsOf_of_le (by omega), List.head?_append_of_ne_nil _ (digitsOf_ne_nil _)]
      exact ih (n / 10) (by omega) (by omega)

theorem not_isDigit_of_ends (h : Ends rest) : ∀ c ∈ rest.head?, isDigit c = false := by
  intro c hc
  rcases h c hc with rfl | rfl | rfl <;> decide

theorem readDigits_append {digits : List UInt8} (hdigits : ∀ c ∈ digits, isDigit c = true)
    (hrest : ∀ c ∈ rest.head?, isDigit c = false) : readDigits (digits ++ rest) = (digits, rest) := by
  have hstop : rest.takeWhile isDigit = [] ∧ rest.dropWhile isDigit = rest := by
    cases rest with
    | nil => exact ⟨rfl, rfl⟩
    | cons c rest =>
      have hc := hrest c rfl
      simp [hc]
  rw [readDigits, List.takeWhile_append_of_pos hdigits, List.dropWhile_append_of_pos hdigits,
    hstop.1, hstop.2, List.append_nil]

theorem readWhole_digitsOf (n : ℕ) (hrest : Ends rest) :
    readWhole (digitsOf n ++ rest) = some (digitsOf n, rest) := by
  have hlead : ¬ (digitsOf n = [] ∨ (digitsOf n).head? = some 48 ∧ digitsOf n ≠ [48]) := by
    rintro (hnil | ⟨hhead, hlong⟩)
    · exact digitsOf_ne_nil n hnil
    · by_cases hn : n = 0
      · subst hn
        exact hlong (by decide)
      · exact head_digitsOf hn hhead
  rw [readWhole, readDigits_append (isDigit_of_mem_digitsOf n) (not_isDigit_of_ends hrest)]
  exact if_neg hlead

theorem readFraction_of_ends (h : Ends rest) : readFraction rest = some ([], rest) := by
  cases rest with
  | nil => rfl
  | cons c rest =>
    have hc : c ≠ 46 := by rcases h c rfl with rfl | rfl | rfl <;> decide
    rw [readFraction, if_neg hc]

theorem readExponent_of_ends (h : Ends rest) : readExponent rest = some (0, rest) := by
  cases rest with
  | nil => rfl
  | cons c rest =>
    have hc : ¬ (c = 101 ∨ c = 69) := by rcases h c rfl with rfl | rfl | rfl <;> decide
    rw [readExponent, if_neg hc]

theorem readMagnitude_digitsOf (negative : Bool) (n : ℕ) (hrest : Ends rest) :
    readMagnitude negative (digitsOf n ++ rest) = some (.number (signed negative n) 0, rest) := by
  rw [readMagnitude, readWhole_digitsOf n hrest]
  simp [readFraction_of_ends hrest, readExponent_of_ends hrest, digitsValue_digitsOf]

/-- The first character of a number without a sign. -/
theorem exists_digitsOf (n : ℕ) : ∃ c digits, digitsOf n = c :: digits ∧ isDigit c = true := by
  obtain ⟨c, digits, h⟩ := List.exists_cons_of_ne_nil (digitsOf_ne_nil n)
  exact ⟨c, digits, h, isDigit_of_mem_digitsOf n c (by simp [h])⟩

theorem reads_integerText (value : ℤ) :
    Reads readNumber (integerText value) (.number value 0) := by
  intro rest hrest
  rw [integerText]
  by_cases hneg : value < 0
  · have hsigned : signed true value.natAbs = value := by
      rw [signed, if_pos rfl]
      omega
    rw [if_pos hneg, List.cons_append, readNumber, if_pos rfl, readMagnitude_digitsOf _ _ hrest,
      hsigned]
  · have hsigned : signed false value.natAbs = value := by
      rw [signed, if_neg Bool.false_ne_true]
      omega
    obtain ⟨c, digits, heq, hdigit⟩ := exists_digitsOf value.natAbs
    have hc : c ≠ 45 := by
      rintro rfl
      exact absurd hdigit (by decide)
    have hread := readMagnitude_digitsOf false value.natAbs hrest
    rw [heq, List.cons_append, hsigned] at hread
    rw [if_neg hneg, heq, List.cons_append, readNumber, if_neg hc, hread]

/-! ### Strings -/

/-- Nothing in a string needs an escape. -/
def Unescaped (string : List UInt8) : Prop := ∀ c ∈ string, c ≠ 34 ∧ c ≠ 92 ∧ ¬ c < 32

instance (string : List UInt8) : Decidable (Unescaped string) :=
  inferInstanceAs (Decidable (∀ c ∈ string, _))

/-- A string between quotes, without escapes. -/
def quoted (string : List UInt8) : List UInt8 := 34 :: (string ++ [34])

theorem readCharacters_of_unescaped {string : List UInt8} (h : Unescaped string)
    (hn : string.length < n) : readCharacters n (string ++ 34 :: rest) = some (string, rest) := by
  induction string generalizing n with
  | nil =>
    obtain ⟨n, rfl⟩ := Nat.exists_eq_add_of_lt hn
    rfl
  | cons c string ih =>
    obtain ⟨m, rfl⟩ : ∃ m, n = m + 1 := ⟨n - 1, by omega⟩
    have hc := h c List.mem_cons_self
    have htail := ih (fun d hd => h d (List.mem_cons_of_mem c hd))
      (show string.length < m by simpa using hn)
    rw [List.cons_append, readCharacters, if_neg hc.1, if_neg hc.2.1, if_neg hc.2.2, htail]
    rfl

theorem readString_of_unescaped {string : List UInt8} (h : Unescaped string) :
    readString (string ++ 34 :: rest) = some (string, rest) :=
  readCharacters_of_unescaped h (by simp)

/-- A text spells a string: it is at least as long, has no more quotes, and is the
string itself if it is as long. -/
structure Spells (text string : List UInt8) : Prop where
  length_le : string.length ≤ text.length
  count_le : text.count 34 ≤ string.count 34
  same : string.length = text.length → text = string ∧ Unescaped string

theorem hexValue_ne_quote {v : ℕ} (h : hexValue c = some v) : c ≠ 34 := by
  rintro rfl
  simp [hexValue] at h

theorem readUnit_eq_some {text : List UInt8} {unit : ℕ} (h : readUnit text = some (unit, rest)) :
    ∃ digits, text = digits ++ rest ∧ digits.length = 4 ∧ digits.count 34 = 0 := by
  obtain _ | ⟨a, _ | ⟨b, _ | ⟨c, _ | ⟨d, text⟩⟩⟩⟩ := text
  case cons.cons.cons.cons =>
    simp only [readUnit, Option.bind_eq_bind, Option.bind_eq_some_iff, Option.some.injEq,
      Prod.mk.injEq] at h
    obtain ⟨_, ha, _, hb, _, hc, _, hd, -, rfl⟩ := h
    refine ⟨[a, b, c, d], rfl, rfl, ?_⟩
    simp [hexValue_ne_quote ha, hexValue_ne_quote hb, hexValue_ne_quote hc, hexValue_ne_quote hd]
  all_goals simp [readUnit] at h

theorem readLow_eq_some {text : List UInt8} {low : ℕ} (h : readLow text = some (low, rest)) :
    ∃ escape, text = escape ++ rest ∧ escape.length = 6 ∧ escape.count 34 = 0 := by
  unfold readLow at h
  split at h
  · simp only [Option.bind_eq_bind, Option.bind_eq_some_iff] at h
    obtain ⟨⟨unit, text'⟩, hunit, hlow⟩ := h
    obtain ⟨digits, rfl, hlength, hcount⟩ := readUnit_eq_some hunit
    split at hlow
    · obtain ⟨-, rfl⟩ := Prod.mk.inj (Option.some.inj hlow)
      exact ⟨92 :: 117 :: digits, rfl, by simp [hlength], by simp [hcount]⟩
    · exact absurd hlow (by simp)
  · exact absurd h (by simp)

theorem length_characterBytes_le (code : ℕ) : (characterBytes code).length ≤ 4 := by
  unfold characterBytes
  split_ifs <;> simp

theorem readUnicode_eq_some {text string : List UInt8}
    (h : readUnicode text = some (string, rest)) :
    ∃ digits, text = digits ++ rest ∧ string.length ≤ digits.length ∧ digits.count 34 = 0 := by
  rw [readUnicode] at h
  simp only [Option.bind_eq_bind, Option.bind_eq_some_iff] at h
  obtain ⟨⟨unit, text'⟩, hunit, h⟩ := h
  obtain ⟨digits, rfl, hlength, hcount⟩ := readUnit_eq_some hunit
  dsimp only at h
  split_ifs at h
  · obtain ⟨rfl, rfl⟩ := Prod.mk.inj (Option.some.inj h)
    exact ⟨digits, rfl, hlength ▸ length_characterBytes_le _, hcount⟩
  · simp only [Option.bind_eq_some_iff] at h
    obtain ⟨⟨low, text''⟩, hlow, h⟩ := h
    obtain ⟨escape, rfl, hlength', hcount'⟩ := readLow_eq_some hlow
    obtain ⟨rfl, rfl⟩ := Prod.mk.inj (Option.some.inj h)
    refine ⟨digits ++ escape, by simp, ?_, by simp [hcount, hcount']⟩
    simp only [List.length_append, hlength, hlength']
    exact Nat.le_trans (length_characterBytes_le _) (by decide)

theorem shortEscape_count {d : UInt8} (h : shortEscape c = some d) :
    [c].count 34 ≤ [d].count 34 := by
  by_cases hc : c = 34
  · subst hc
    obtain rfl := Option.some.inj h
    exact le_rfl
  · simp [hc]

/-- An escape is shorter than its text, which has no more quotes. -/
theorem readEscape_eq_some {text string : List UInt8} (h : readEscape text = some (string, rest)) :
    ∃ escape, text = escape ++ rest ∧ string.length ≤ escape.length ∧
      escape.count 34 ≤ string.count 34 := by
  cases text with
  | nil => exact absurd h (by simp [readEscape])
  | cons c text =>
    rw [readEscape] at h
    split at h
    next hc =>
      obtain ⟨digits, rfl, hlength, hcount⟩ := readUnicode_eq_some h
      refine ⟨c :: digits, rfl, Nat.le_trans hlength (by simp), ?_⟩
      rw [List.count_cons, hcount, hc]
      exact Nat.zero_le _
    next hc =>
      simp only [Option.bind_eq_bind, Option.bind_eq_some_iff] at h
      obtain ⟨d, hd, h⟩ := h
      obtain ⟨rfl, rfl⟩ := Prod.mk.inj (Option.some.inj h)
      exact ⟨[c], rfl, le_rfl, shortEscape_count hd⟩

theorem readCharacters_eq_some {text string : List UInt8}
    (h : readCharacters n text = some (string, rest)) :
    ∃ body, text = body ++ 34 :: rest ∧ Spells body string := by
  induction n generalizing text string with
  | zero => exact absurd h (by simp [readCharacters])
  | succ n ih =>
    cases text with
    | nil => exact absurd h (by simp [readCharacters])
    | cons c text =>
      rw [readCharacters] at h
      split_ifs at h with hquote hescape hcontrol
      · obtain ⟨rfl, rfl⟩ := Prod.mk.inj (Option.some.inj h)
        exact ⟨[], by simp [hquote], le_rfl, le_rfl, fun _ => ⟨rfl, by simp [Unescaped]⟩⟩
      · simp only [Option.bind_eq_bind, Option.bind_eq_some_iff] at h
        obtain ⟨⟨escaped, text'⟩, hread, ⟨characters, text''⟩, htail, h⟩ := h
        obtain ⟨rfl, rfl⟩ := Prod.mk.inj (Option.some.inj h)
        obtain ⟨escape, rfl, hlength, hcount⟩ := readEscape_eq_some hread
        obtain ⟨body, hbody, hspells⟩ := ih htail
        dsimp only at hbody
        have hle := hspells.length_le
        refine ⟨c :: (escape ++ body), by simp [hbody], ?_, ?_, ?_⟩
        · simp only [List.length_append, List.length_cons]
          omega
        · have hcounts := hspells.count_le
          rw [List.count_cons_of_ne hquote, List.count_append, List.count_append]
          exact Nat.add_le_add hcount hcounts
        · intro hsame
          simp only [List.length_append, List.length_cons] at hsame
          omega
      · simp only [Option.bind_eq_bind, Option.bind_eq_some_iff] at h
        obtain ⟨⟨characters, text'⟩, htail, h⟩ := h
        obtain ⟨rfl, rfl⟩ := Prod.mk.inj (Option.some.inj h)
        obtain ⟨body, rfl, hspells⟩ := ih htail
        refine ⟨c :: body, rfl, Nat.succ_le_succ hspells.length_le, ?_, ?_⟩
        · rw [List.count_cons_of_ne hquote, List.count_cons_of_ne hquote]
          exact hspells.count_le
        · intro hsame
          obtain ⟨rfl, hunescaped⟩ := hspells.same (Nat.succ.inj hsame)
          refine ⟨rfl, fun d hd => ?_⟩
          rcases List.mem_cons.mp hd with rfl | hd
          · exact ⟨hquote, hescape, hcontrol⟩
          · exact hunescaped d hd

/-- A string that comes back from its own characters has no need of an escape. -/
theorem unescaped_of_readString {string : List UInt8}
    (h : readString (string ++ 34 :: rest) = some (string, rest')) :
    Unescaped string ∧ rest' = rest := by
  obtain ⟨body, heq, hspells⟩ := readCharacters_eq_some h
  rcases List.append_eq_append_iff.mp heq with ⟨extra, hbody, hrest⟩ | ⟨extra, hstring, -⟩
  · cases extra with
    | nil =>
      rw [List.append_nil] at hbody
      exact ⟨(hspells.same (by rw [hbody])).2, (List.cons.inj hrest).2.symm⟩
    | cons c extra =>
      -- the body would hold a quote more than the string
      obtain ⟨rfl, -⟩ := List.cons.inj hrest
      have hcount := hspells.count_le
      rw [hbody, List.count_append, List.count_cons_self] at hcount
      omega
  · have hle := hspells.length_le
    rw [hstring, List.length_append] at hle
    obtain rfl := List.eq_nil_of_length_eq_zero (show extra.length = 0 by omega)
    rw [List.append_nil] at hstring
    rw [hstring] at heq
    exact ⟨(hspells.same (by rw [hstring])).2, (List.cons.inj (List.append_cancel_left heq)).2.symm⟩

/-! ### Items -/

/-- Texts with commas between them. -/
def joined (texts : List (List UInt8)) : List UInt8 := [44].intercalate texts

/-- A text whose first character is no space and closes nothing. -/
def Starts (text : List UInt8) : Prop :=
  ∃ c tail, text = c :: tail ∧ isSpace c = false ∧ c ≠ 93 ∧ c ≠ 125

theorem Starts.skipSpace {text : List UInt8} (h : Starts text) :
    skipSpace (text ++ rest) = text ++ rest := by
  obtain ⟨c, tail, rfl, hspace, -⟩ := h
  rw [List.cons_append, skipSpace_cons _ hspace]

theorem Starts.append {text : List UInt8} (h : Starts text) (more : List UInt8) :
    Starts (text ++ more) := by
  obtain ⟨c, tail, rfl, hc⟩ := h
  exact ⟨c, tail ++ more, rfl, hc⟩

theorem joined_cons (text text' : List UInt8) (texts : List (List UInt8)) :
    joined (text :: text' :: texts) ++ rest = text ++ 44 :: (joined (text' :: texts) ++ rest) := by
  simp [joined]

theorem joined_cons_eq (text : List UInt8) (more : List (List UInt8)) :
    joined (text :: more) = text ++ more.flatMap (44 :: ·) := by
  induction more generalizing text with
  | nil => simp [joined]
  | cons text' more ih =>
    have htail := ih text'
    simp only [joined, List.intercalate_cons_cons, List.flatMap_cons] at htail ⊢
    simp [htail]

theorem starts_joined {text : List UInt8} (h : Starts text) (texts : List (List UInt8)) :
    Starts (joined (text :: texts)) := by
  cases texts with
  | nil => simpa [joined] using h
  | cons text' texts => simpa [joined] using h.append _

variable {text : β → List UInt8} {value : β → α} {P : β → Prop} {xs : List β}

theorem length_le_joined (h : ∀ x ∈ xs, Starts (text x)) :
    xs.length ≤ (joined (xs.map text)).length := by
  induction xs with
  | nil => exact Nat.zero_le _
  | cons x xs ih =>
    obtain ⟨c, tail, hx, -⟩ := h x List.mem_cons_self
    cases xs with
    | nil => simp [joined, hx]
    | cons y ys =>
      have hlength := ih fun z hz => h z (List.mem_cons_of_mem x hz)
      simp only [joined, List.map_cons, List.intercalate_cons_cons, List.length_append,
        List.length_cons] at hlength ⊢
      omega

/-- Items that are read back one by one are read back together. -/
theorem readItems_joined (hclose : close = 93 ∨ close = 125) (hne : xs ≠ [])
    (h : ∀ x ∈ xs, Starts (text x) ∧ Reads item (text x) (value x)) (hn : xs.length ≤ n) :
    readItems item close n (joined (xs.map text) ++ close :: rest) = some (xs.map value, rest) := by
  induction xs generalizing n with
  | nil => exact absurd rfl hne
  | cons x xs ih =>
    obtain ⟨m, rfl⟩ : ∃ m, n = m + 1 := ⟨n - 1, by simp only [List.length_cons] at hn; omega⟩
    obtain ⟨hstarts, hreads⟩ := h x List.mem_cons_self
    cases xs with
    | nil =>
      have hspace : isSpace close = false := by rcases hclose with rfl | rfl <;> decide
      rw [List.map_singleton, joined, List.intercalate_singleton, readItems, hstarts.skipSpace,
        hreads _ (ends_cons (.inr hclose))]
      simp [hspace]
    | cons y ys =>
      have htail := @ih m (by simp) (fun z hz => h z (List.mem_cons_of_mem x hz))
        (Nat.le_of_succ_le_succ hn)
      have hcomma : (44 : UInt8) ≠ close := by rcases hclose with rfl | rfl <;> decide
      rw [List.map_cons, List.map_cons, joined_cons, readItems, hstarts.skipSpace,
        hreads _ (ends_cons (.inl rfl))]
      simp only [Option.bind_eq_bind, Option.bind_some, skipSpace_cons _ (c := 44) (by decide),
        if_neg hcomma, if_true]
      rw [← List.map_cons, htail]
      rfl

/-- The first item that was read, and whether others follow. -/
theorem readItems_eq_some {text : List UInt8} {a : α} {as : List α}
    (h : readItems item close (n + 1) text = some (a :: as, rest)) :
    ∃ left, item (skipSpace text) = some (a, left) ∧
      (skipSpace left = close :: rest ∧ as = [] ∨
        ∃ tail, skipSpace left = 44 :: tail ∧ readItems item close n tail = some (as, rest)) := by
  rw [readItems, Option.bind_eq_bind, Option.bind_eq_some_iff] at h
  obtain ⟨⟨first, left⟩, hitem, h⟩ := h
  dsimp only at h
  split at h
  · exact absurd h (by simp)
  next c tail hskip =>
    split_ifs at h with hclose hcomma
    · obtain ⟨hlist, rfl⟩ := Prod.mk.inj (Option.some.inj h)
      obtain ⟨rfl, rfl⟩ := List.cons.inj hlist
      exact ⟨left, hitem, .inl ⟨by rw [hskip, hclose], rfl⟩⟩
    · rw [Option.bind_eq_bind, Option.bind_eq_some_iff] at h
      obtain ⟨⟨others, left'⟩, htail, h⟩ := h
      obtain ⟨hlist, rfl⟩ := Prod.mk.inj (Option.some.inj h)
      obtain ⟨rfl, rfl⟩ := List.cons.inj hlist
      exact ⟨left, hitem, .inr ⟨tail, by rw [hskip, hcomma], htail⟩⟩

/-- What the items force, one by one, their text forces. -/
theorem forces_readItems (hclose : close = 93 ∨ close = 125) (hne : xs ≠ [])
    (h : ∀ x ∈ xs, Starts (text x) ∧ Forces item (text x) (value x) (P x))
    (hread : readItems item close n (joined (xs.map text) ++ close :: rest) =
      some (xs.map value, rest')) : (∀ x ∈ xs, P x) ∧ rest' = rest := by
  have hspace : isSpace close = false := by rcases hclose with rfl | rfl <;> decide
  have hcomma : (44 : UInt8) ≠ close := by rcases hclose with rfl | rfl <;> decide
  induction xs generalizing n rest' with
  | nil => exact absurd rfl hne
  | cons x xs ih =>
    obtain ⟨hstarts, hforces⟩ := h x List.mem_cons_self
    cases n with
    | zero => exact absurd hread (by simp [readItems])
    | succ n =>
      obtain ⟨left, hitem, hnext⟩ := readItems_eq_some hread
      cases xs with
      | nil =>
        rw [List.map_singleton, joined, List.intercalate_singleton, hstarts.skipSpace] at hitem
        obtain ⟨hx, rfl⟩ := hforces _ _ (ends_cons (.inr hclose)) hitem
        rw [skipSpace_cons _ hspace] at hnext
        rcases hnext with ⟨hrest, -⟩ | ⟨tail, heq, -⟩
        · exact ⟨by simpa using hx, (List.cons.inj hrest).2.symm⟩
        · exact absurd (List.cons.inj heq).1.symm hcomma
      | cons y ys =>
        rw [List.map_cons, List.map_cons, joined_cons, hstarts.skipSpace] at hitem
        obtain ⟨hx, rfl⟩ := hforces _ _ (ends_cons (.inl rfl)) hitem
        rw [skipSpace_cons _ (by decide)] at hnext
        rcases hnext with ⟨heq, -⟩ | ⟨tail, heq, htail⟩
        · exact absurd (List.cons.inj heq).1 hcomma
        · obtain ⟨-, rfl⟩ := List.cons.inj heq
          obtain ⟨hys, hrest⟩ :=
            ih (by simp) (fun z hz => h z (List.mem_cons_of_mem x hz)) htail
          exact ⟨List.forall_mem_cons.mpr ⟨hx, hys⟩, hrest⟩

theorem reads_readSequence (hclose : close = 93 ∨ close = 125)
    (h : ∀ x ∈ xs, Starts (text x) ∧ Reads item (text x) (value x)) (rest : List UInt8) :
    readSequence item close (joined (xs.map text) ++ close :: rest) =
      some (xs.map value, rest) := by
  have hlength := length_le_joined fun x hx => (h x hx).1
  cases xs with
  | nil =>
    have hspace : isSpace close = false := by rcases hclose with rfl | rfl <;> decide
    simp [readSequence, joined, hspace]
  | cons x xs =>
    have hstarts := starts_joined (h x List.mem_cons_self).1 (xs.map text)
    have hread := @readItems_joined _ _ item rest close
      (joined ((x :: xs).map text) ++ close :: rest).length _ _ _ hclose (by simp) h
      (Nat.le_trans hlength (by simp))
    rw [readSequence, List.map_cons, hstarts.skipSpace]
    obtain ⟨c, tail, heq, -, hbracket, hbrace⟩ := hstarts
    have hc : c ≠ close := by
      rintro rfl
      exact hclose.elim hbracket hbrace
    rw [List.map_cons] at hread
    rw [heq] at hread ⊢
    simpa [hc] using hread

theorem forces_readSequence (hclose : close = 93 ∨ close = 125)
    (h : ∀ x ∈ xs, Starts (text x) ∧ Forces item (text x) (value x) (P x))
    (hread : readSequence item close (joined (xs.map text) ++ close :: rest) =
      some (xs.map value, rest')) : (∀ x ∈ xs, P x) ∧ rest' = rest := by
  cases xs with
  | nil =>
    have hspace : isSpace close = false := by rcases hclose with rfl | rfl <;> decide
    simp only [readSequence, joined, List.map_nil, List.intercalate_nil, List.nil_append,
      skipSpace_cons _ hspace, if_true, Option.some.injEq, Prod.mk.injEq, true_and] at hread
    exact ⟨by simp, hread.symm⟩
  | cons x xs =>
    have hstarts := starts_joined (h x List.mem_cons_self).1 (xs.map text)
    have hskip := @Starts.skipSpace (close :: rest) _ hstarts
    obtain ⟨c, tail, heq, -, hbracket, hbrace⟩ := hstarts
    have hc : c ≠ close := by
      rintro rfl
      exact hclose.elim hbracket hbrace
    refine forces_readItems (n := (joined ((x :: xs).map text) ++ close :: rest).length) hclose
      (by simp) h ?_
    rw [readSequence, List.map_cons, hskip] at hread
    rw [List.map_cons]
    rw [heq] at hread ⊢
    simpa [hc] using hread

/-! ### Members -/

@[simp] theorem expect_cons (text : List UInt8) : expect c (c :: text) = some text := if_pos rfl

theorem reads_readMember {key text : List UInt8} {a : α} (hkey : Unescaped key)
    (hstarts : Starts text) (h : Reads item text a) :
    Reads (readMember item) (quoted key ++ 58 :: text) (key, a) := by
  intro rest hrest
  have hread : readString (key ++ 34 :: 58 :: (text ++ rest)) =
      some (key, 58 :: (text ++ rest)) := readString_of_unescaped hkey
  simp [readMember, quoted, hread, skipSpace_cons (c := 58) _ (by decide), hstarts.skipSpace,
    h rest hrest]

theorem forces_readMember {key text : List UInt8} {a : α} {P : Prop} (hstarts : Starts text)
    (h : Forces item text a P) :
    Forces (readMember item) (quoted key ++ 58 :: text) (key, a) (Unescaped key ∧ P) := by
  intro rest rest' hrest hread
  have htext : quoted key ++ 58 :: text ++ rest = 34 :: (key ++ 34 :: 58 :: (text ++ rest)) := by
    simp [quoted]
  rw [htext, readMember] at hread
  simp only [expect_cons, Option.bind_eq_bind, Option.bind_some, Option.bind_eq_some_iff] at hread
  obtain ⟨⟨key', left⟩, hstring, left', hcolon, ⟨a', left''⟩, hitem, hread⟩ := hread
  obtain ⟨hpair, rfl⟩ := Prod.mk.inj (Option.some.inj hread)
  obtain ⟨rfl, rfl⟩ := Prod.mk.inj hpair
  obtain ⟨hkey, rfl⟩ := unescaped_of_readString hstring
  rw [skipSpace_cons _ (by decide), expect_cons] at hcolon
  obtain rfl := Option.some.inj hcolon
  rw [hstarts.skipSpace] at hitem
  obtain ⟨hp, hrest'⟩ := h rest _ hrest hitem
  exact ⟨⟨hkey, hp⟩, hrest'⟩

/-! ### Values -/

/-- The text of a value is read back, as soon as the bound covers it. -/
structure ReadsBack (text : List UInt8) (value : Value) : Prop where
  starts : Starts text
  reads : ∀ n, text.length ≤ n → Reads (readValue n) text value

/-- Where the value is read from the front of the text, this is the whole text, and `P` holds. -/
structure Determines (text : List UInt8) (value : Value) (P : Prop) : Prop where
  starts : Starts text
  forces : ∀ n, Forces (readValue n) text value P

theorem ReadsBack.parse {text : List UInt8} {value : Value} (h : ReadsBack text value) :
    parse text = some value := by
  have hskip := @Starts.skipSpace [] _ h.starts
  have hread := h.reads _ (Nat.le_refl _) [] ends_nil
  rw [List.append_nil] at hskip hread
  rw [JsonReader.parse, hskip, hread]
  rfl

theorem Determines.of_parse {text : List UInt8} {value : Value} {P : Prop}
    (h : Determines text value P) (hparse : JsonReader.parse text = some value) : P := by
  have hskip := @Starts.skipSpace [] _ h.starts
  rw [List.append_nil] at hskip
  rw [JsonReader.parse, hskip, Option.bind_eq_bind, Option.bind_eq_some_iff] at hparse
  obtain ⟨⟨value', left⟩, hread, hend⟩ := hparse
  dsimp only at hend
  split_ifs at hend
  obtain rfl := Option.some.inj hend
  exact (h.forces _ [] left ends_nil (by rwa [List.append_nil])).1

theorem Determines.imp {text : List UInt8} {value : Value} {P Q : Prop}
    (h : Determines text value P) (hpq : P → Q) : Determines text value Q where
  starts := h.starts
  forces n rest rest' hrest hread := (h.forces n rest rest' hrest hread).imp_left hpq

theorem Starts.length_pos {text : List UInt8} (h : Starts text) : 0 < text.length := by
  obtain ⟨c, tail, rfl, -⟩ := h
  exact Nat.succ_pos _

theorem readsBack_of_succ {text : List UInt8} {value : Value} (hstarts : Starts text)
    (h : ∀ n, Reads (readValue (n + 1)) text value) : ReadsBack text value where
  starts := hstarts
  reads n hn := by
    have hpos := hstarts.length_pos
    obtain ⟨m, rfl⟩ : ∃ m, n = m + 1 := ⟨n - 1, by omega⟩
    exact h m

theorem forces_of_succ {text : List UInt8} {value : Value} {P : Prop}
    (h : ∀ n, Forces (readValue (n + 1)) text value P) (n : ℕ) :
    Forces (readValue n) text value P := by
  cases n with
  | zero =>
    intro rest rest' _ hread
    exact absurd hread (by simp [readValue])
  | succ n => exact h n

theorem determines_of_succ {text : List UInt8} {value : Value} (hstarts : Starts text)
    (h : ∀ n, Reads (readValue (n + 1)) text value) : Determines text value True :=
  ⟨hstarts, forces_of_succ fun n => (h n).forces trivial⟩

variable {string : List UInt8}

theorem starts_quoted (string : List UInt8) : Starts (quoted string) :=
  ⟨34, _, rfl, by decide, by decide, by decide⟩

theorem readsBack_quoted (h : Unescaped string) : ReadsBack (quoted string) (.string string) := by
  refine readsBack_of_succ (starts_quoted string) fun n rest _ => ?_
  have hread : readString (string ++ 34 :: rest) = some (string, rest) := readString_of_unescaped h
  simp [readValue, quoted, hread]

theorem determines_quoted (string : List UInt8) :
    Determines (quoted string) (.string string) (Unescaped string) := by
  refine ⟨starts_quoted string, forces_of_succ fun n rest rest' _ hread => ?_⟩
  have htext : quoted string ++ rest = 34 :: (string ++ 34 :: rest) := by simp [quoted]
  rw [htext, readValue, if_pos rfl, Option.bind_eq_bind, Option.bind_eq_some_iff] at hread
  obtain ⟨⟨string', left⟩, hstring, hread⟩ := hread
  obtain ⟨hvalue, rfl⟩ := Prod.mk.inj (Option.some.inj hread)
  obtain rfl := Value.string.inj hvalue
  exact unescaped_of_readString hstring

/-- A number starts with a sign or a digit. -/
theorem integerText_cons (value : ℤ) :
    ∃ c tail, integerText value = c :: tail ∧ (c = 45 ∨ isDigit c = true) := by
  rw [integerText]
  split_ifs
  · exact ⟨45, _, rfl, .inl rfl⟩
  · obtain ⟨c, digits, heq, hdigit⟩ := exists_digitsOf value.natAbs
    exact ⟨c, digits, heq, .inr hdigit⟩

/-- No other character that the reader tells apart is a sign or a digit. -/
theorem ne_of_number {d : UInt8} (h : c = 45 ∨ isDigit c = true) (hminus : d ≠ 45)
    (hdigit : isDigit d = false) : c ≠ d := by
  rintro rfl
  exact h.elim hminus (by simp [hdigit])

theorem starts_integerText (value : ℤ) : Starts (integerText value) := by
  obtain ⟨c, tail, heq, hc⟩ := integerText_cons value
  refine ⟨c, tail, heq, ?_, ne_of_number hc (by decide) (by decide),
    ne_of_number hc (by decide) (by decide)⟩
  simp only [isSpace, decide_eq_false_iff_not]
  rintro (rfl | rfl | rfl | rfl) <;> exact absurd hc (by decide)

theorem readValue_number {tail : List UInt8} (h : c = 45 ∨ isDigit c = true) :
    readValue (n + 1) (c :: tail) = readNumber (c :: tail) := by
  have hne : ∀ d : UInt8, d ≠ 45 → isDigit d = false → c ≠ d := fun d => ne_of_number h
  rw [readValue, if_neg (hne 34 (by decide) (by decide)), if_neg (hne 91 (by decide) (by decide)),
    if_neg (hne 123 (by decide) (by decide)), if_neg (hne 116 (by decide) (by decide)),
    if_neg (hne 102 (by decide) (by decide)), if_neg (hne 110 (by decide) (by decide))]

theorem reads_integer (n : ℕ) (value : ℤ) :
    Reads (readValue (n + 1)) (integerText value) (.number value 0) := by
  intro rest hrest
  have hread := reads_integerText value rest hrest
  obtain ⟨c, tail, heq, hc⟩ := integerText_cons value
  rw [heq] at hread ⊢
  rw [List.cons_append] at hread ⊢
  rw [readValue_number hc, hread]

theorem readsBack_integerText (value : ℤ) : ReadsBack (integerText value) (.number value 0) :=
  readsBack_of_succ (starts_integerText value) fun n => reads_integer n value

theorem determines_integerText (value : ℤ) :
    Determines (integerText value) (.number value 0) True :=
  determines_of_succ (starts_integerText value) fun n => reads_integer n value

def booleanText (value : Bool) : List UInt8 :=
  if value then [116, 114, 117, 101] else [102, 97, 108, 115, 101]

theorem starts_booleanText (value : Bool) : Starts (booleanText value) := by
  cases value
  · exact ⟨102, _, rfl, by decide, by decide, by decide⟩
  · exact ⟨116, _, rfl, by decide, by decide, by decide⟩

theorem reads_boolean (n : ℕ) (value : Bool) :
    Reads (readValue (n + 1)) (booleanText value) (.boolean value) := by
  intro rest _
  cases value <;> simp [booleanText, readValue, readWord, List.isPrefixOf]

theorem readsBack_booleanText (value : Bool) : ReadsBack (booleanText value) (.boolean value) :=
  readsBack_of_succ (starts_booleanText value) fun n => reads_boolean n value

theorem determines_booleanText (value : Bool) :
    Determines (booleanText value) (.boolean value) True :=
  determines_of_succ (starts_booleanText value) fun n => reads_boolean n value

/-! ### Arrays and objects -/

def arrayText (texts : List (List UInt8)) : List UInt8 := 91 :: (joined texts ++ [93])

def objectText (texts : List (List UInt8)) : List UInt8 := 123 :: (joined texts ++ [125])

/-- A text among others with commas between them is shorter than they are. -/
theorem length_le_of_mem {texts : List (List UInt8)} {text : List UInt8} (h : text ∈ texts) :
    text.length ≤ (joined texts).length := by
  induction texts with
  | nil => exact absurd h (by simp)
  | cons first texts ih =>
    cases texts with
    | nil => simp [joined, List.mem_singleton.mp h]
    | cons second texts =>
      simp only [joined, List.intercalate_cons_cons, List.length_append] at ih ⊢
      rcases List.mem_cons.mp h with rfl | h
      · omega
      · have hle := ih h
        omega

section Containers

variable {value : β → Value} {key : β → List UInt8}

theorem readsBack_arrayText (h : ∀ x ∈ xs, ReadsBack (text x) (value x)) :
    ReadsBack (arrayText (xs.map text)) (.array (xs.map value)) := by
  refine ⟨⟨91, _, rfl, by decide, by decide, by decide⟩, fun n hn rest _ => ?_⟩
  obtain ⟨m, rfl⟩ : ∃ m, n = m + 1 := ⟨n - 1, by simp only [arrayText, List.length_cons] at hn; omega⟩
  have hitems : ∀ x ∈ xs, Starts (text x) ∧ Reads (readValue m) (text x) (value x) := by
    intro x hx
    have hle := length_le_of_mem (List.mem_map_of_mem (f := text) hx)
    simp only [arrayText, List.length_cons, List.length_append] at hn
    exact ⟨(h x hx).starts, (h x hx).reads m (by omega)⟩
  have htext : arrayText (xs.map text) ++ rest = 91 :: (joined (xs.map text) ++ 93 :: rest) := by
    simp [arrayText]
  rw [htext, readValue, if_neg (by decide), if_pos rfl, reads_readSequence (.inl rfl) hitems]
  rfl

theorem determines_arrayText (h : ∀ x ∈ xs, Determines (text x) (value x) (P x)) :
    Determines (arrayText (xs.map text)) (.array (xs.map value)) (∀ x ∈ xs, P x) := by
  refine ⟨⟨91, _, rfl, by decide, by decide, by decide⟩, forces_of_succ fun n rest rest' _ hread => ?_⟩
  have htext : arrayText (xs.map text) ++ rest = 91 :: (joined (xs.map text) ++ 93 :: rest) := by
    simp [arrayText]
  rw [htext, readValue, if_neg (by decide), if_pos rfl, Option.bind_eq_bind,
    Option.bind_eq_some_iff] at hread
  obtain ⟨⟨elements, left⟩, hsequence, hread⟩ := hread
  obtain ⟨hvalue, rfl⟩ := Prod.mk.inj (Option.some.inj hread)
  obtain rfl := Value.array.inj hvalue
  exact forces_readSequence (.inl rfl) (fun x hx => ⟨(h x hx).starts, (h x hx).forces n⟩) hsequence

/-- A member of an object. -/
def memberText (key text : List UInt8) : List UInt8 := quoted key ++ 58 :: text

theorem readsBack_objectText (hkeys : ∀ x ∈ xs, Unescaped (key x))
    (h : ∀ x ∈ xs, ReadsBack (text x) (value x)) :
    ReadsBack (objectText (xs.map fun x => memberText (key x) (text x)))
      (.object (xs.map fun x => (key x, value x))) := by
  refine ⟨⟨123, _, rfl, by decide, by decide, by decide⟩, fun n hn rest _ => ?_⟩
  obtain ⟨m, rfl⟩ : ∃ m, n = m + 1 := ⟨n - 1, by simp only [objectText, List.length_cons] at hn; omega⟩
  have hmembers : ∀ x ∈ xs, Starts (memberText (key x) (text x)) ∧
      Reads (readMember (readValue m)) (memberText (key x) (text x)) (key x, value x) := by
    intro x hx
    have hle := length_le_of_mem
      (List.mem_map_of_mem (f := fun x => memberText (key x) (text x)) hx)
    simp only [objectText, List.length_cons, List.length_append] at hn
    have hlt : (text x).length < (memberText (key x) (text x)).length := by
      simp only [memberText, List.length_append, List.length_cons]
      omega
    exact ⟨(starts_quoted _).append _,
      reads_readMember (hkeys x hx) (h x hx).starts ((h x hx).reads m (by omega))⟩
  have htext : objectText (xs.map fun x => memberText (key x) (text x)) ++ rest =
      123 :: (joined (xs.map fun x => memberText (key x) (text x)) ++ 125 :: rest) := by
    simp [objectText]
  rw [htext, readValue, if_neg (by decide), if_neg (by decide), if_pos rfl,
    reads_readSequence (.inr rfl) hmembers]
  rfl

theorem determines_objectText (h : ∀ x ∈ xs, Determines (text x) (value x) (P x)) :
    Determines (objectText (xs.map fun x => memberText (key x) (text x)))
      (.object (xs.map fun x => (key x, value x))) (∀ x ∈ xs, Unescaped (key x) ∧ P x) := by
  refine ⟨⟨123, _, rfl, by decide, by decide, by decide⟩, forces_of_succ fun n rest rest' _ hread => ?_⟩
  have htext : objectText (xs.map fun x => memberText (key x) (text x)) ++ rest =
      123 :: (joined (xs.map fun x => memberText (key x) (text x)) ++ 125 :: rest) := by
    simp [objectText]
  rw [htext, readValue, if_neg (by decide), if_neg (by decide), if_pos rfl, Option.bind_eq_bind,
    Option.bind_eq_some_iff] at hread
  obtain ⟨⟨members, left⟩, hsequence, hread⟩ := hread
  obtain ⟨hvalue, rfl⟩ := Prod.mk.inj (Option.some.inj hread)
  obtain rfl := Value.object.inj hvalue
  exact forces_readSequence (.inr rfl) (fun x hx => ⟨(starts_quoted _).append _,
    forces_readMember (h x hx).starts ((h x hx).forces n)⟩) hsequence

end Containers

end JsonReader
