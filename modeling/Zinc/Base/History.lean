import Mathlib.Data.List.Basic
import Mathlib.Data.Nat.Notation

/-! Runs of a transition system together with their histories. The history of a
run lists the actions in order, each with the state that it found. A condition
on actions may look at the history in front of them; a run satisfies it when
each of its actions does. An invariant relates a history to the state behind
it, so it can say what must have happened earlier. -/

namespace History

variable {σ α : Type*}

/-- What happened so far: the actions in order, each with the state it found. -/
abbrev Past (σ α : Type*) := List (σ × α)

/-- Runs from an initial state, with their histories. -/
inductive Run (init : σ → Prop) (step : σ → α → σ → Prop) : Past σ α → σ → Prop
  | start {s : σ} (h : init s) : Run init step [] s
  | next {past : Past σ α} {s t : σ} {a : α} (h : Run init step past s) (hstep : step s a t) :
      Run init step (past ++ [(s, a)]) t

/-- The actions of a history. -/
def actions (past : Past σ α) : List α := past.map Prod.snd

@[simp] theorem actions_nil : actions ([] : Past σ α) = [] := rfl

theorem actions_append (past past' : Past σ α) :
    actions (past ++ past') = actions past ++ actions past' := List.map_append

@[simp] theorem actions_concat (past : Past σ α) (s : σ) (a : α) :
    actions (past ++ [(s, a)]) = actions past ++ [a] := by
  simp [actions]

theorem actions_map {τ β : Type*} (past : Past σ α) (f : σ → τ) (g : α → β) :
    actions (past.map (Prod.map f g)) = (actions past).map g := by
  rw [actions, actions, List.map_map, List.map_map]
  rfl

variable {init : σ → Prop} {step : σ → α → σ → Prop} {C : Past σ α → σ → α → Prop}

/-- Every action of a history meets a condition on what it found. -/
def Always (C : Past σ α → σ → α → Prop) (past : Past σ α) : Prop :=
  ∀ before s a after, past = before ++ (s, a) :: after → C before s a

theorem always_nil : Always C [] := by
  intro before s a after h
  simp at h

theorem always_concat {past : Past σ α} {s : σ} {a : α} :
    Always C (past ++ [(s, a)]) ↔ Always C past ∧ C past s a := by
  constructor
  · intro h
    refine ⟨fun before t b after heq => ?_, h past s a [] rfl⟩
    exact h before t b (after ++ [(s, a)]) (by rw [heq, List.append_assoc, List.cons_append])
  · rintro ⟨hpast, hlast⟩ before t b after heq
    obtain rfl | ⟨after', x, rfl⟩ := after.eq_nil_or_concat
    · obtain ⟨rfl, hx⟩ := List.append_inj' heq rfl
      obtain ⟨rfl, rfl⟩ := Prod.mk.inj (List.singleton_inj.mp hx)
      exact hlast
    · rw [List.concat_eq_append, ← List.cons_append, ← List.append_assoc] at heq
      obtain ⟨rfl, -⟩ := List.append_inj' heq rfl
      exact hpast before t b after' rfl

/-- The invariant rule. -/
theorem Run.invariant {I : Past σ α → σ → Prop} (hinit : ∀ s, init s → I [] s)
    (hstep : ∀ past s a t, I past s → C past s a → step s a t → I (past ++ [(s, a)]) t)
    {past : Past σ α} {s : σ} (h : Run init step past s) (hC : Always C past) : I past s := by
  induction h with
  | start h => exact hinit _ h
  | next h hs ih =>
    obtain ⟨hpast, hlast⟩ := always_concat.mp hC
    exact hstep _ _ _ _ (ih hpast) hlast hs

/-- A condition that does not look back is one on the members of the history. -/
theorem always_iff_forall_mem {P : σ → α → Prop} {past : Past σ α} :
    Always (fun _ => P) past ↔ ∀ x ∈ past, P x.1 x.2 := by
  constructor
  · intro h x hx
    obtain ⟨before, after, rfl⟩ := List.append_of_mem hx
    exact h before x.1 x.2 after rfl
  · rintro h before s a after rfl
    exact h (s, a) (by simp)

/-- A simulation maps a run to a run, and its history to the history of that run. -/
theorem Run.simulate {τ β : Type*} {init' : τ → Prop} {step' : τ → β → τ → Prop} {f : σ → τ}
    {g : α → β} {I : σ → Prop} (hinit : ∀ s, init s → I s ∧ init' (f s))
    (hstep : ∀ s a t, I s → step s a t → I t ∧ step' (f s) (g a) (f t))
    {past : Past σ α} {s : σ} (h : Run init step past s) :
    I s ∧ Run init' step' (past.map (Prod.map f g)) (f s) := by
  induction h with
  | start h => exact ⟨(hinit _ h).1, .start (hinit _ h).2⟩
  | next h hs ih =>
    obtain ⟨hI, hs⟩ := hstep _ _ _ ih.1 hs
    rw [List.map_append, List.map_singleton]
    exact ⟨hI, ih.2.next hs⟩

/-- An action that meets `P`, later one that meets `Q`. -/
def Then (P Q : σ → α → Prop) (past : Past σ α) : Prop :=
  ∃ x y, [x, y].Sublist past ∧ P x.1 x.2 ∧ Q y.1 y.2

theorem Then.concat {P Q : σ → α → Prop} {past : Past σ α} (h : Then P Q past) (x : σ × α) :
    Then P Q (past ++ [x]) := by
  obtain ⟨y, z, hsub, hy, hz⟩ := h
  exact ⟨y, z, hsub.trans (List.sublist_append_left past [x]), hy, hz⟩

/-- The last action is the later one. -/
theorem Then.of_mem {P Q : σ → α → Prop} {past : Past σ α} {x y : σ × α} (hx : x ∈ past)
    (hP : P x.1 x.2) (hQ : Q y.1 y.2) : Then P Q (past ++ [y]) :=
  ⟨x, y, (List.singleton_sublist.mpr hx).append (List.Sublist.refl [y]), hP, hQ⟩

/-! ### Last actions -/

variable {β : Type*} {P : σ → α → Prop} {past : Past σ α}

/-- The last action that meets `P`. -/
def LastOf (P : σ → α → Prop) (past : Past σ α) (x : σ × α) : Prop :=
  ∃ before after, past = before ++ x :: after ∧ P x.1 x.2 ∧ ∀ y ∈ after, ¬ P y.1 y.2

/-- No action meets `P`. -/
def Never (P : σ → α → Prop) (past : Past σ α) : Prop := ∀ x ∈ past, ¬ P x.1 x.2

theorem lastOf_concat {x : σ × α} (h : P x.1 x.2) : LastOf P (past ++ [x]) x :=
  ⟨past, [], rfl, h, by simp⟩

theorem LastOf.concat {x y : σ × α} (h : LastOf P past x) (hy : ¬ P y.1 y.2) :
    LastOf P (past ++ [y]) x := by
  obtain ⟨before, after, rfl, hx, hafter⟩ := h
  refine ⟨before, after ++ [y], by simp, hx, fun z hz => ?_⟩
  rcases List.mem_append.mp hz with hz | hz
  · exact hafter z hz
  · rwa [List.mem_singleton.mp hz]

theorem LastOf.not_never {x : σ × α} (h : LastOf P past x) : ¬ Never P past := by
  obtain ⟨before, after, rfl, hx, -⟩ := h
  exact fun hnever => hnever x (by simp) hx

theorem LastOf.unique {x y : σ × α} (hx : LastOf P past x) (hy : LastOf P past y) : x = y := by
  obtain ⟨before, after, rfl, hPx, hafter⟩ := hx
  obtain ⟨before', after', heq, hPy, hafter'⟩ := hy
  rcases List.append_eq_append_iff.mp heq with ⟨between, -, h⟩ | ⟨between, -, h⟩
  · cases between with
    | nil => exact (List.cons.inj h).1
    | cons z between =>
      obtain ⟨-, rfl⟩ := List.cons.inj h
      exact absurd hPy (hafter y (by simp))
  · cases between with
    | nil => exact (List.cons.inj h).1.symm
    | cons z between =>
      obtain ⟨-, rfl⟩ := List.cons.inj h
      exact absurd hPx (hafter' x (by simp))

theorem Never.concat {y : σ × α} (h : Never P past) (hy : ¬ P y.1 y.2) : Never P (past ++ [y]) := by
  intro z hz
  rcases List.mem_append.mp hz with hz | hz
  · exact h z hz
  · rwa [List.mem_singleton.mp hz]

/-- The state that a run started in. -/
def origin (past : Past σ α) (s : σ) : σ := (past.head?.map Prod.fst).getD s

theorem origin_concat (past : Past σ α) (s t : σ) (a : α) :
    origin (past ++ [(s, a)]) t = origin past s := by
  cases past <;> rfl

/-- What is written by some actions only holds what the last of them wrote. -/
theorem Run.written {value : σ → β} {written : σ × α → β}
    (hstep : ∀ s a t, step s a t →
      (P s a ∧ value t = written (s, a)) ∨ (¬ P s a ∧ value t = value s))
    {s : σ} (h : Run init step past s) :
    (∃ x, LastOf P past x ∧ value s = written x) ∨
      (Never P past ∧ value s = value (origin past s)) := by
  induction h with
  | start h => exact .inr ⟨fun x hx => absurd hx List.not_mem_nil, rfl⟩
  | @next past s t a _ hs ih =>
    rcases hstep s a t hs with ⟨hP, hvalue⟩ | ⟨hP, hvalue⟩
    · exact .inl ⟨(s, a), lastOf_concat hP, hvalue⟩
    · rw [origin_concat, hvalue]
      refine ih.imp ?_ ?_
      · rintro ⟨x, hx, hwritten⟩
        exact ⟨x, hx.concat hP, hwritten⟩
      · rintro ⟨hnever, horigin⟩
        exact ⟨hnever.concat hP, horigin⟩

end History
