import Mathlib.Data.List.Basic

/-! Words that tell what they stand for, whatever comes behind them. A word tells a
part of its value if two values with words that begin alike agree in that part,
and the words end together. Such words can be put one after another, and
repeated as often as an earlier word told. -/

namespace PrefixCode

variable {α β γ κ τ : Type*}

/-- Among the values of a class a word in front tells `f`, and where it ends. -/
def Tells (C : α → Prop) (enc : α → List τ) (f : α → β) : Prop :=
  ∀ ⦃a b v w⦄, C a → C b → enc a ++ v = enc b ++ w → f a = f b ∧ v = w

variable {C D : α → Prop} {enc enc' : α → List τ} {f : α → β} {g : α → γ}

theorem Tells.eq (h : Tells C enc f) {a b : α} (ha : C a) (hb : C b) (heq : enc a = enc b) :
    f a = f b :=
  (@h a b [] [] ha hb (by rw [heq])).1

theorem Tells.mono (h : Tells C enc f) (hsub : ∀ a, D a → C a) : Tells D enc f :=
  fun _ _ _ _ ha hb heq => h (hsub _ ha) (hsub _ hb) heq

theorem Tells.congr (h : Tells C enc f) (hg : ∀ a b, C a → C b → f a = f b → g a = g b) :
    Tells C enc g := by
  intro a b v w ha hb heq
  rcases h ha hb heq with ⟨hf, hrest⟩
  exact ⟨hg a b ha hb hf, hrest⟩

theorem Tells.map (h : Tells C enc f) (φ : β → γ) : Tells C enc (fun a => φ (f a)) :=
  h.congr fun _ _ _ _ hf => congrArg φ hf

theorem Tells.comp (h : Tells C enc f) (p : κ → α) :
    Tells (fun k => C (p k)) (fun k => enc (p k)) (fun k => f (p k)) :=
  fun _ _ _ _ ha hb heq => h ha hb heq

/-- Words of one length. -/
theorem tells_of_length {n : ℕ} (hlength : ∀ a, C a → (enc a).length = n)
    (hf : ∀ a b, C a → C b → enc a = enc b → f a = f b) : Tells C enc f := by
  intro a b v w ha hb heq
  rcases List.append_inj heq ((hlength a ha).trans (hlength b hb).symm) with ⟨hword, hrest⟩
  exact ⟨hf a b ha hb hword, hrest⟩

/-- A word behind another one, which may depend on what that one told. -/
theorem Tells.append (h : Tells C enc f) (h' : ∀ k, Tells (fun a => C a ∧ f a = k) enc' g) :
    Tells C (fun a => enc a ++ enc' a) (fun a => (f a, g a)) := by
  intro a b v w ha hb heq
  rw [List.append_assoc, List.append_assoc] at heq
  rcases h ha hb heq with ⟨hf, hrest⟩
  rcases h' (f b) ⟨ha, hf⟩ ⟨hb, rfl⟩ hrest with ⟨hg, hlast⟩
  exact ⟨Prod.ext hf hg, hlast⟩

/-- Words of as many values. -/
theorem Tells.repeated (h : Tells C enc f) (n : ℕ) :
    Tells (fun as : List α => as.length = n ∧ ∀ a ∈ as, C a) (fun as => as.flatMap enc)
      (fun as => as.map f) := by
  induction n with
  | zero =>
    rintro as bs v w ⟨has, -⟩ ⟨hbs, -⟩ heq
    rw [List.length_eq_zero_iff.mp has, List.length_eq_zero_iff.mp hbs] at heq ⊢
    exact ⟨rfl, heq⟩
  | succ n ih =>
    rintro as bs v w ⟨has, has'⟩ ⟨hbs, hbs'⟩ heq
    obtain ⟨a, as, rfl⟩ := List.exists_cons_of_length_eq_add_one has
    obtain ⟨b, bs, rfl⟩ := List.exists_cons_of_length_eq_add_one hbs
    rw [List.forall_mem_cons] at has' hbs'
    dsimp only at heq
    rw [List.flatMap_cons, List.flatMap_cons, List.append_assoc, List.append_assoc] at heq
    rcases h has'.1 hbs'.1 heq with ⟨hf, hrest⟩
    rcases ih ⟨by simpa using has, has'.2⟩ ⟨by simpa using hbs, hbs'.2⟩ hrest with ⟨hfs, hlast⟩
    exact ⟨congrArg₂ List.cons hf hfs, hlast⟩

end PrefixCode
