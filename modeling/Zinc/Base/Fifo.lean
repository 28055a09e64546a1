import Mathlib.Data.List.Basic

/-! First-in first-out queues over an arbitrary alphabet, as the purpose of a
buffer with a writer and a reader. An operation fits a queue when it asks for at
most the stored symbols and at most a capacity `cap`, the size of the largest
answer a caller can hold. An implementation refines the queue when each fitting
operation is matched by one of its steps; then every run of fitting operations
is matched, and an implementation that misbehaves at each operation that does
not fit conforms on exactly the runs of fitting operations. -/

namespace Fifo

variable {α σ ε κ : Type*}

/-- Operations on a queue; `idle` changes nothing that can be observed. -/
inductive Op (α : Type*) where
  | write (xs : List α)
  | read (n : ℕ)
  | clear
  | idle

namespace Op

/-- The queue after an operation. -/
def next (q : List α) : Op α → List α
  | write xs => q ++ xs
  | read n => q.drop n
  | clear => []
  | idle => q

/-- The answer of an operation: the oldest `n` symbols, or all there are. -/
def out (q : List α) : Op α → List α
  | read n => q.take n
  | _ => []

/-- A read fits when the queue holds what it asks for. -/
def Fits (cap : ℕ) (q : List α) : Op α → Prop
  | read n => n ≤ q.length ∧ n ≤ cap
  | _ => True

end Op

/-- The answers of a run. -/
def outs : List α → List (Op α) → List (List α)
  | _, [] => []
  | q, op :: ops => op.out q :: outs (op.next q) ops

/-- The queue after a run. -/
def content (q : List α) (ops : List (Op α)) : List α := ops.foldl Op.next q

/-- Every operation of the run fits the queue it finds. -/
def Within (cap : ℕ) : List α → List (Op α) → Prop
  | _, [] => True
  | q, op :: ops => op.Fits cap q ∧ Within cap (op.next q) ops

/-- Runs of an implementation, with the answers in order. -/
def run (step : σ → κ → Except ε (List α × σ)) : σ → List κ → Except ε (List (List α) × σ)
  | s, [] => .ok ([], s)
  | s, c :: cs => do
    let (x, s) ← step s c
    let (xs, s) ← run step s cs
    return (x :: xs, s)

/-- `step` matches every command that fits a queue which `R` relates to its
state; `op` says what a command means to the queue. -/
structure Refines (step : σ → κ → Except ε (List α × σ)) (op : κ → Op α) (R : σ → List α → Prop)
    (cap : ℕ) : Prop where
  step_fits : ∀ {s q} c, R s q → (op c).Fits cap q →
    ∃ s', step s c = .ok ((op c).out q, s') ∧ R s' ((op c).next q)

variable {step : σ → κ → Except ε (List α × σ)} {op : κ → Op α} {R : σ → List α → Prop} {cap : ℕ}

theorem Refines.run_within (hR : Refines step op R cap) {s : σ} {q : List α} (cs : List κ)
    (hs : R s q) (hw : Within cap q (cs.map op)) :
    ∃ s', run step s cs = .ok (outs q (cs.map op), s') ∧ R s' (content q (cs.map op)) := by
  induction cs generalizing s q with
  | nil => exact ⟨s, rfl, hs⟩
  | cons c cs ih =>
    obtain ⟨s₁, h₁, hs₁⟩ := hR.step_fits c hs hw.1
    obtain ⟨s₂, h₂, hs₂⟩ := ih hs₁ hw.2
    exact ⟨s₂, by simp [run, h₁, h₂, outs, bind, Except.bind, pure, Except.pure], hs₂⟩

/-- Every step of the run answers as the queue does and ends in an accepted state. -/
def Conforms (step : σ → κ → Except ε (List α × σ)) (op : κ → Op α) (ok : σ → Prop) :
    σ → List α → List κ → Prop
  | _, _, [] => True
  | s, q, c :: cs =>
    ∃ s', step s c = .ok ((op c).out q, s') ∧ ok s' ∧ Conforms step op ok s' ((op c).next q) cs

/-- An implementation that fails at every command that does not fit conforms on
exactly the runs of fitting commands. -/
theorem Refines.conforms_iff {ok : σ → Prop} (hR : Refines step op R cap)
    (hok : ∀ s q, R s q → ok s)
    (hfail : ∀ s q c s', R s q → ¬ (op c).Fits cap q → step s c = .ok ((op c).out q, s') → ¬ ok s')
    {s : σ} {q : List α} (cs : List κ) (hs : R s q) :
    Conforms step op ok s q cs ↔ Within cap q (cs.map op) := by
  induction cs generalizing s q with
  | nil => exact ⟨fun _ => trivial, fun _ => trivial⟩
  | cons c cs ih =>
    constructor
    · rintro ⟨s', hstep, hs', hrest⟩
      by_cases hf : (op c).Fits cap q
      · obtain ⟨s₁, h₁, hs₁⟩ := hR.step_fits c hs hf
        obtain rfl : s₁ = s' := by rw [h₁] at hstep; simpa using hstep
        exact ⟨hf, (ih hs₁).mp hrest⟩
      · exact absurd hs' (hfail s q c s' hs hf hstep)
    · rintro ⟨hf, hw⟩
      obtain ⟨s₁, h₁, hs₁⟩ := hR.step_fits c hs hf
      exact ⟨s₁, h₁, hok _ _ hs₁, (ih hs₁).mpr hw⟩

end Fifo
