import Mathlib.Data.List.AList

/-! Maps that a lookup fills. Looking up a key that a map does not have puts it there with an
initial value, and the entries may be arranged anew. What is looked up later does not change by
that, since a missing key stands for the initial value all along; the entries do, and so may
what goes through them. A search for a value finds its key, however the entries are arranged,
where no two keys have the same value. -/

namespace Indexed

variable {κ V : Type}

/-- How the entries of a map are arranged when it has grown. -/
structure Order (κ : Type) where
  arrange {V : Type} : AList (fun _ : κ => V) → AList fun _ : κ => V
  perm {V : Type} (map : AList fun _ : κ => V) : (arrange map).entries.Perm map.entries

/-- The newest entry comes first. -/
def Order.newest : Order κ := ⟨id, fun _ => .refl _⟩

theorem Order.mem_arrange (order : Order κ) {key : κ} {map : AList fun _ : κ => V} :
    key ∈ order.arrange map ↔ key ∈ map :=
  AList.mem_of_perm (order.perm map)

variable [DecidableEq κ]

/-- What a lookup finds, with an initial value. -/
def value (init : V) (map : AList fun _ : κ => V) (key : κ) : V := (map.lookup key).getD init

/-- A lookup, and the map that it leaves. -/
def Order.index (order : Order κ) (init : V) (key : κ) (map : AList fun _ : κ => V) :
    V × AList fun _ : κ => V :=
  match map.lookup key with
  | some v => (v, map)
  | none => (init, order.arrange (map.insert key init))

variable (order : Order κ) {init : V} {key : κ} {map : AList fun _ : κ => V}

theorem Order.lookup_arrange (key : κ) : (order.arrange map).lookup key = map.lookup key :=
  AList.perm_lookup (order.perm map)

theorem index_of_mem (h : key ∈ map) : order.index init key map = (value init map key, map) := by
  obtain ⟨v, hv⟩ := Option.isSome_iff_exists.mp (AList.lookup_isSome.mpr h)
  rw [Order.index, value, hv]
  rfl

theorem index_of_notMem (h : key ∉ map) :
    order.index init key map = (init, order.arrange (map.insert key init)) := by
  rw [Order.index, AList.lookup_eq_none.mpr h]

theorem value_of_notMem (h : key ∉ map) : value init map key = init := by
  rw [value, AList.lookup_eq_none.mpr h]
  rfl

theorem lookup_eq_some_value (init : V) (h : key ∈ map) : map.lookup key = some (value init map key) := by
  obtain ⟨v, hv⟩ := Option.isSome_iff_exists.mp (AList.lookup_isSome.mpr h)
  rw [value, hv]
  rfl

@[simp] theorem index_fst : (order.index init key map).1 = value init map key := by
  by_cases h : key ∈ map
  · rw [index_of_mem order h]
  · rw [index_of_notMem order h, value_of_notMem h]

@[simp] theorem mem_index {key' : κ} :
    key' ∈ (order.index init key map).2 ↔ key' = key ∨ key' ∈ map := by
  by_cases h : key ∈ map
  · rw [index_of_mem order h]
    exact ⟨.inr, fun hor => hor.elim (fun heq => heq ▸ h) id⟩
  · rw [index_of_notMem order h, order.mem_arrange, AList.mem_insert]

/-- A lookup changes nothing exactly when the map has the key. -/
theorem index_snd_eq_iff (init : V) : (order.index init key map).2 = map ↔ key ∈ map := by
  constructor
  · intro h
    rw [← h]
    exact (mem_index order).mpr (.inl rfl)
  · intro h
    rw [index_of_mem order h]

/-- A lookup changes no later lookup. -/
@[simp] theorem value_index (key' : κ) :
    value init (order.index init key map).2 key' = value init map key' := by
  by_cases h : key ∈ map
  · rw [index_of_mem order h]
  rw [index_of_notMem order h, value, order.lookup_arrange]
  by_cases hkey : key' = key
  · rw [hkey, AList.lookup_insert, value_of_notMem h]
    rfl
  · rw [AList.lookup_insert_ne hkey]
    rfl

/-! ### Insertion -/

/-- An entry for a key that has none; an entry that is there stays. -/
def Order.emplace (key : κ) (v : V) (map : AList fun _ : κ => V) : AList fun _ : κ => V :=
  if key ∈ map then map else order.arrange (map.insert key v)

variable {v : V}

theorem emplace_of_mem (h : key ∈ map) : order.emplace key v map = map := if_pos h

theorem lookup_emplace_of_notMem (h : key ∉ map) (key' : κ) :
    (order.emplace key v map).lookup key' = if key' = key then some v else map.lookup key' := by
  rw [Order.emplace, if_neg h, order.lookup_arrange]
  by_cases hkey : key' = key
  · rw [if_pos hkey, hkey, AList.lookup_insert]
  · rw [if_neg hkey, AList.lookup_insert_ne hkey]

@[simp] theorem mem_emplace {key' : κ} : key' ∈ order.emplace key v map ↔ key' = key ∨ key' ∈ map := by
  by_cases h : key ∈ map
  · rw [emplace_of_mem order h]
    exact ⟨.inr, fun hor => hor.elim (fun heq => heq ▸ h) id⟩
  · rw [Order.emplace, if_neg h, order.mem_arrange, AList.mem_insert]

/-- Equal entries stay equal, in maps that have the same keys. -/
theorem lookup_emplace_congr {map' : AList fun _ : κ => V}
    (h : ∀ key, map.lookup key = map'.lookup key) (key' : κ) :
    (order.emplace key v map).lookup key' = (order.emplace key v map').lookup key' := by
  have hmem : key ∈ map ↔ key ∈ map' := by
    rw [← AList.lookup_isSome, ← AList.lookup_isSome, h]
  by_cases hkey : key ∈ map
  · rw [emplace_of_mem order hkey, emplace_of_mem order (hmem.mp hkey), h]
  · rw [lookup_emplace_of_notMem order hkey, lookup_emplace_of_notMem order fun h => hkey (hmem.mpr h), h]

/-- Insertion of entries one after the other. -/
def Order.emplaceAll (entries : List (Sigma fun _ : κ => V)) (map : AList fun _ : κ => V) :
    AList fun _ : κ => V :=
  entries.foldl (fun map entry => order.emplace entry.1 entry.2 map) map

theorem perm_emplace_of_notMem (h : key ∉ map) :
    (order.emplace key v map).entries.Perm (⟨key, v⟩ :: map.entries) := by
  rw [Order.emplace, if_neg h]
  refine (order.perm _).trans ?_
  rw [AList.entries_insert_of_notMem h]

/-- Entries with keys of their own all come in. -/
theorem perm_emplaceAll (entries : List (Sigma fun _ : κ => V)) (map : AList fun _ : κ => V)
    (hkeys : entries.NodupKeys) (hnew : ∀ entry ∈ entries, entry.1 ∉ map) :
    (order.emplaceAll entries map).entries.Perm (entries ++ map.entries) := by
  induction entries generalizing map with
  | nil => exact .refl _
  | cons entry entries ih =>
    obtain ⟨hkey, hkeys⟩ := List.nodupKeys_cons.mp hkeys
    rw [List.forall_mem_cons] at hnew
    have hrest : ∀ entry' ∈ entries, entry'.1 ∉ order.emplace entry.1 entry.2 map := by
      intro entry' hentry' hmem
      rcases (mem_emplace order).mp hmem with heq | hmem
      · rw [← heq] at hkey
        exact hkey (List.mem_keys_of_mem hentry')
      · exact hnew.2 entry' hentry' hmem
    have htail := ih (order.emplace entry.1 entry.2 map) hkeys hrest
    have hhead := (perm_emplace_of_notMem order (v := entry.2) hnew.1).append_left entries
    exact htail.trans (hhead.trans List.perm_middle)

/-! ### Distinct values -/

/-- No two keys have the same value. -/
def Distinct (map : AList fun _ : κ => V) : Prop :=
  ∀ key key' v, map.lookup key = some v → map.lookup key' = some v → key = key'

/-- Values stay distinct when a new key gets a new value, and only then. -/
theorem distinct_emplace_iff : Distinct (order.emplace key v map) ↔
    Distinct map ∧ (key ∈ map ∨ ∀ key', map.lookup key' ≠ some v) := by
  by_cases h : key ∈ map
  · rw [emplace_of_mem order h, and_iff_left (.inl h)]
  have hlookup := lookup_emplace_of_notMem order (v := v) h
  rw [or_iff_right h]
  constructor
  · intro hdistinct
    have hold : ∀ key' w, map.lookup key' = some w → (order.emplace key v map).lookup key' = some w := by
      intro key' w hkey'
      rw [hlookup, if_neg, hkey']
      rintro rfl
      rw [AList.lookup_eq_none.mpr h] at hkey'
      cases hkey'
    refine ⟨fun key₁ key₂ w h₁ h₂ => hdistinct _ _ w (hold _ w h₁) (hold _ w h₂), fun key' hkey' => ?_⟩
    have hnew : (order.emplace key v map).lookup key = some v := by rw [hlookup, if_pos rfl]
    obtain rfl := hdistinct _ _ v (hold _ v hkey') hnew
    rw [AList.lookup_eq_none.mpr h] at hkey'
    cases hkey'
  · rintro ⟨hdistinct, hnew⟩ key₁ key₂ w h₁ h₂
    rw [hlookup] at h₁ h₂
    by_cases hkey₁ : key₁ = key <;> by_cases hkey₂ : key₂ = key
    · rw [hkey₁, hkey₂]
    · rw [if_pos hkey₁] at h₁
      rw [if_neg hkey₂] at h₂
      exact absurd (h₂.trans h₁.symm) (hnew key₂)
    · rw [if_neg hkey₁] at h₁
      rw [if_pos hkey₂] at h₂
      exact absurd (h₁.trans h₂.symm) (hnew key₁)
    · rw [if_neg hkey₁] at h₁
      rw [if_neg hkey₂] at h₂
      exact hdistinct _ _ w h₁ h₂

/-- The search for a value that one key has. -/
theorem find?_of_unique [DecidableEq V] (h : map.lookup key = some v)
    (hunique : ∀ key', map.lookup key' = some v → key' = key) :
    map.entries.find? (fun entry => entry.2 = v) = some ⟨key, v⟩ := by
  cases hfound : map.entries.find? fun entry => entry.2 = v with
  | none =>
    have hmem : (⟨key, v⟩ : Sigma fun _ : κ => V) ∈ map.entries := AList.mem_lookup_iff.mp h
    exact absurd (decide_eq_true rfl) (List.find?_eq_none.mp hfound _ hmem)
  | some entry =>
    have hdecided := List.find?_some hfound
    have hvalue : entry.2 = v := of_decide_eq_true hdecided
    have hlookup : map.lookup entry.1 = some entry.2 :=
      List.mem_dlookup map.nodupKeys (List.mem_of_find?_eq_some hfound)
    rw [hvalue] at hlookup
    obtain ⟨key', v'⟩ := entry
    obtain rfl := hunique key' hlookup
    rw [show v' = v from hvalue]

end Indexed
