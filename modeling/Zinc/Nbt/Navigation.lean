import Zinc.Nbt.Element

/-! Navigation by tags and list positions. Membership and access are functions of their own; the
position of a list is compared with its size by `>`, so the position just behind the last child
counts as contained, and access then leaves the vector. A path stays inside as long as none of
its selectors is that position of the list it is applied to. -/

namespace Zinc.Nbt

open Buffer

/-- The argument of `operator[]`. -/
inductive Selector where
  | tag (tag : Bytes)
  | pos (pos : ℕ)
  deriving DecidableEq

namespace NBTElement

/-! ### Membership and access -/

/-- `contains(const std::string&)`. -/
def containsTag (element : NBTElement) (tag : Bytes) : Bool :=
  if element.type ≠ .compound then false
  else element.childElements.any fun child => child.tag = tag

/-- `contains(size_t)`. -/
def containsPos (element : NBTElement) (pos : ℕ) : Bool :=
  if pos > element.childElements.length ∨ element.type ≠ .list then false else true

/-- `at(const std::string&)`. -/
def atTag (element : NBTElement) (tag : Bytes) : NBTElement :=
  if element.type ≠ .compound then element
  else
    match element.childElements.find? fun child => child.tag = tag with
    | some child => child
    | none => element

/-- `at(size_t)`; the vector does not check the position. -/
def atPos (element : NBTElement) (pos : ℕ) : Except Fault NBTElement :=
  if element.containsPos pos then
    match element.childElements[pos]? with
    | some child => .ok child
    | none => .error .undefined
  else .ok element

def contains (element : NBTElement) : Selector → Bool
  | .tag tag => element.containsTag tag
  | .pos pos => element.containsPos pos

/-- `operator[]`. -/
def subscript (element : NBTElement) : Selector → Except Fault NBTElement
  | .tag tag => .ok (element.atTag tag)
  | .pos pos => element.atPos pos

/-- The selectors of a path one after the other. -/
def navigate (element : NBTElement) (path : List Selector) : Except Fault NBTElement :=
  path.foldlM subscript element

/-! ### Children -/

/-- The first child that a selector names. -/
def child? (element : NBTElement) : Selector → Option NBTElement
  | .tag tag =>
    if element.type = .compound then element.childElements.find? fun child => child.tag = tag
    else none
  | .pos pos => if element.type = .list then element.childElements[pos]? else none

/-- The child that a selector names, or the element itself. -/
def childOrSelf (element : NBTElement) (selector : Selector) : NBTElement :=
  (element.child? selector).getD element

/-- The selector is the position behind the last child of a list. -/
def AtEnd (element : NBTElement) (selector : Selector) : Prop :=
  element.type = .list ∧ selector = .pos element.childElements.length

instance (element : NBTElement) (selector : Selector) : Decidable (element.AtEnd selector) :=
  inferInstanceAs (Decidable (_ ∧ _))

/-- No selector of a path is the position behind the children it is applied to. -/
def Clear (element : NBTElement) : List Selector → Prop
  | [] => True
  | selector :: path => ¬ element.AtEnd selector ∧ (element.childOrSelf selector).Clear path

/-- Membership and access agree with the children. -/
def Agrees (element : NBTElement) (selector : Selector) : Prop :=
  element.contains selector = (element.child? selector).isSome ∧
    element.subscript selector = .ok (element.childOrSelf selector)

theorem containsTag_eq (element : NBTElement) (tag : Bytes) :
    element.containsTag tag = (element.child? (.tag tag)).isSome := by
  by_cases htype : element.type = .compound
  · rw [Bool.eq_iff_iff]
    simp [containsTag, child?, htype, List.find?_isSome]
  · simp [containsTag, child?, htype]

theorem atTag_eq (element : NBTElement) (tag : Bytes) :
    element.atTag tag = element.childOrSelf (.tag tag) := by
  by_cases htype : element.type = .compound
  · simp only [atTag, childOrSelf, child?, htype, ne_eq, not_true_eq_false, if_false, if_true]
    cases element.childElements.find? fun child => child.tag = tag <;> rfl
  · simp [atTag, childOrSelf, child?, htype]

/-- Only the position behind the last child is taken for a member. -/
theorem containsPos_eq_true_iff (element : NBTElement) (pos : ℕ) :
    element.containsPos pos = true ↔
      (element.child? (.pos pos)).isSome ∨ element.AtEnd (.pos pos) := by
  by_cases htype : element.type = .list
  · simp [containsPos, child?, AtEnd, htype, Nat.le_iff_lt_or_eq]
  · simp [containsPos, child?, AtEnd, htype]

theorem child?_of_atEnd {element : NBTElement} {selector : Selector}
    (h : element.AtEnd selector) : element.child? selector = none := by
  rcases h with ⟨htype, rfl⟩
  simp [child?, htype]

/-- One selector. -/
theorem agrees_iff_not_atEnd (element : NBTElement) (selector : Selector) :
    element.Agrees selector ↔ ¬ element.AtEnd selector := by
  cases selector with
  | tag tag =>
    have hend : ¬ element.AtEnd (.tag tag) := by simp [AtEnd]
    exact iff_of_true ⟨containsTag_eq element tag, congrArg _ (atTag_eq element tag)⟩ hend
  | pos pos =>
    have hcontains := containsPos_eq_true_iff element pos
    constructor
    · rintro ⟨hmember, -⟩ hend
      have hnone := child?_of_atEnd hend
      rw [hnone] at hmember
      exact Bool.false_ne_true (hmember.symm.trans (hcontains.mpr (.inr hend)))
    · intro hend
      cases hchild : element.child? (.pos pos) with
      | none =>
        have hmember : element.containsPos pos = false := by
          rw [← Bool.not_eq_true, hcontains, hchild]
          simpa using hend
        refine ⟨by rw [hchild]; exact hmember, ?_⟩
        rw [subscript, atPos, if_neg (by rw [hmember]; exact Bool.false_ne_true), childOrSelf, hchild,
          Option.getD_none]
      | some child =>
        have hmember : element.containsPos pos = true := hcontains.mpr (.inl (by rw [hchild]; rfl))
        have hat : element.childElements[pos]? = some child := by
          rw [child?] at hchild
          split at hchild
          · exact hchild
          · cases hchild
        refine ⟨by rw [hchild]; exact hmember, ?_⟩
        rw [subscript, atPos, if_pos hmember, hat, childOrSelf, hchild, Option.getD_some]

/-! ### Paths -/

@[simp] theorem navigate_nil (element : NBTElement) : element.navigate [] = .ok element := rfl

theorem navigate_cons (element : NBTElement) (selector : Selector) (path : List Selector) :
    element.navigate (selector :: path) =
      element.subscript selector >>= fun child => child.navigate path := rfl

/-- Along a path membership and access agree with the children, without leaving a vector,
exactly when no selector is the position behind the children it is applied to. -/
theorem navigation_iff (element : NBTElement) (path : List Selector) :
    (∀ before selector after, path = before ++ selector :: after →
        ∃ current, element.navigate before = .ok current ∧ current.Agrees selector) ↔
      element.Clear path := by
  induction path generalizing element with
  | nil => simp [Clear]
  | cons selector path ih =>
    rw [Clear, ← agrees_iff_not_atEnd, ← ih]
    constructor
    · intro h
      obtain ⟨current, hcurrent, hagrees⟩ := h [] selector path rfl
      cases hcurrent
      refine ⟨hagrees, ?_⟩
      rintro before next after rfl
      obtain ⟨current, hcurrent, hnext⟩ := h (selector :: before) next after rfl
      rw [navigate_cons, hagrees.2, Throw.ok_bind] at hcurrent
      exact ⟨current, hcurrent, hnext⟩
    · rintro ⟨hagrees, h⟩ before next after hpath
      cases before with
      | nil =>
        cases hpath
        exact ⟨element, rfl, hagrees⟩
      | cons head before =>
        cases hpath
        obtain ⟨current, hcurrent, hnext⟩ := h before next after rfl
        refine ⟨current, ?_, hnext⟩
        rw [navigate_cons, hagrees.2, Throw.ok_bind]
        exact hcurrent

/-- In a list of one child the position 1 counts as contained. -/
theorem navigation_behind_last :
    (list [] [byte [] 0]).contains (.pos 1) = true ∧
      (list [] [byte [] 0]).child? (.pos 1) = none ∧
      (list [] [byte [] 0]).navigate [.pos 1] = .error .undefined := ⟨rfl, rfl, rfl⟩

end NBTElement

end Zinc.Nbt
