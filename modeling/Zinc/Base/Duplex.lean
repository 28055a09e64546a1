import Mathlib.Data.List.Basic
import Mathlib.Data.Nat.Notation

/-! Two ends that talk to each other in both directions. The words of a message depend on
what its direction went through before: the messages in front of it, and the setups that
an end made, which act on both of its directions at once. Each end keeps a log of its
setups with the messages that it wrote, and one with the messages that it took. A message
is read in the state that it was written in if the log of the reader is a prefix of the
log of the writer. This may be checked on shapes, without the messages: if each message
is taken where the shapes agree, the logs agree, and what was taken is what was written,
in order. -/

namespace Duplex

variable {κ μ σ ω : Type*}

/-- What happens to one direction at one of its ends. -/
inductive Item (κ μ : Type*)
  | setup (k : κ)
  | message (m : μ)
  deriving DecidableEq

/-- An item without its message. -/
def Item.shape : Item κ μ → Item κ Unit
  | .setup k => .setup k
  | .message _ => .message ()

/-- The messages of a log. -/
def messages : List (Item κ μ) → List μ
  | [] => []
  | .setup _ :: log => messages log
  | .message m :: log => m :: messages log

@[simp] theorem messages_append (log log' : List (Item κ μ)) :
    messages (log ++ log') = messages log ++ messages log' := by
  induction log with
  | nil => rfl
  | cons item log ih => cases item <;> simp [messages, ih]

@[simp] theorem messages_setups (ks : List κ) :
    messages (ks.map (Item.setup : κ → Item κ μ)) = [] := by
  induction ks with
  | nil => rfl
  | cons k ks ih => exact ih

theorem messages_map {α : Type*} (f : α → μ) (as : List α) :
    messages (as.map fun a => (Item.message (f a) : Item κ μ)) = as.map f := by
  induction as with
  | nil => rfl
  | cons a as ih => exact congrArg (f a :: ·) ih

theorem prefix_messages {log log' : List (Item κ μ)} (h : log <+: log') :
    messages log <+: messages log' := by
  obtain ⟨rest, rfl⟩ := h
  exact ⟨messages rest, (messages_append log rest).symm⟩

/-- The setups of a log. -/
def setups (log : List (Item κ μ)) : List (Item κ μ) :=
  log.filter fun
    | .setup _ => true
    | .message _ => false

/-! ### Words -/

/-- How the messages of one direction are put into words. -/
structure Codec (κ μ σ ω : Type*) where
  setup : κ → σ → σ
  /-- The state behind a message. -/
  pass : μ → σ → σ
  word : μ → σ → ω

namespace Codec

variable (codec : Codec κ μ σ ω)

def next (s : σ) : Item κ μ → σ
  | .setup k => codec.setup k s
  | .message m => codec.pass m s

/-- The state behind a log. -/
def after (s : σ) (log : List (Item κ μ)) : σ := log.foldl codec.next s

/-- The words of the messages of a log. -/
def words : σ → List (Item κ μ) → List ω
  | _, [] => []
  | s, .setup k :: log => words (codec.setup k s) log
  | s, .message m :: log => codec.word m s :: words (codec.pass m s) log

@[simp] theorem after_setup (s : σ) (log : List (Item κ μ)) (k : κ) :
    codec.after s (log ++ [.setup k]) = codec.setup k (codec.after s log) := by
  simp [after, next]

@[simp] theorem after_message (s : σ) (log : List (Item κ μ)) (m : μ) :
    codec.after s (log ++ [.message m]) = codec.pass m (codec.after s log) := by
  simp [after, next]

theorem words_append (s : σ) (log log' : List (Item κ μ)) :
    codec.words s (log ++ log') = codec.words s log ++ codec.words (codec.after s log) log' := by
  induction log generalizing s with
  | nil => rfl
  | cons item log ih => cases item <;> simp [words, after, next, ih]

@[simp] theorem words_setup (s : σ) (log : List (Item κ μ)) (k : κ) :
    codec.words s (log ++ [.setup k]) = codec.words s log := by
  simp [words_append, words]

@[simp] theorem words_message (s : σ) (log : List (Item κ μ)) (m : μ) :
    codec.words s (log ++ [.message m]) = codec.words s log ++ [codec.word m (codec.after s log)] := by
  simp [words_append, words]

theorem length_words (s : σ) (log : List (Item κ μ)) :
    (codec.words s log).length = (messages log).length := by
  induction log generalizing s with
  | nil => rfl
  | cons item log ih => cases item <;> simp [words, messages, ih]

/-- The word of the next message, written in the state that its reader is in. -/
theorem words_next {inn out : List (Item κ μ)} {m : μ} (h : inn ++ [.message m] <+: out) (s : σ) :
    (codec.words s out)[(messages inn).length]? = some (codec.word m (codec.after s inn)) := by
  obtain ⟨rest, rfl⟩ := h
  rw [words_append, words_message, List.append_assoc, ← codec.length_words s inn,
    List.getElem?_append_right (Nat.le_refl _), Nat.sub_self]
  rfl

end Codec

/-! ### Readers and writers -/

/-- A reader took what was written, and may have made setups since. -/
def Follows (inn out : List (Item κ μ)) : Prop :=
  ∃ (taken : List (Item κ μ)) (ks : List κ), inn = taken ++ ks.map .setup ∧ taken <+: out

namespace Follows

variable {inn out : List (Item κ μ)}

theorem of_prefix (h : inn <+: out) : Follows inn out := ⟨inn, [], (List.append_nil inn).symm, h⟩

theorem write (h : Follows inn out) (item : Item κ μ) : Follows inn (out ++ [item]) := by
  obtain ⟨taken, ks, hinn, hout⟩ := h
  exact ⟨taken, ks, hinn, hout.trans (List.prefix_append out [item])⟩

theorem setup (h : Follows inn out) (k : κ) : Follows (inn ++ [.setup k]) out := by
  obtain ⟨taken, ks, rfl, hout⟩ := h
  exact ⟨taken, ks ++ [k], by simp, hout⟩

theorem prefix_messages (h : Follows inn out) : messages inn <+: messages out := by
  obtain ⟨taken, ks, rfl, hout⟩ := h
  rw [messages_append, messages_setups, List.append_nil]
  exact Duplex.prefix_messages hout

/-- Setups are known from their shapes. -/
theorem setups_of_shape {ks : List κ} {rest : List (Item κ μ)}
    (h : ks.map .setup ++ [Item.message ()] <+: rest.map Item.shape) :
    ∃ m, ks.map .setup ++ [Item.message m] <+: rest := by
  induction ks generalizing rest with
  | nil =>
    cases rest with
    | nil => simp at h
    | cons item rest =>
      cases item with
      | setup k => simp [Item.shape] at h
      | message m => exact ⟨m, by simp⟩
  | cons k ks ih =>
    cases rest with
    | nil => simp at h
    | cons item rest =>
      rw [List.map_cons, List.map_cons, List.cons_append, List.cons_prefix_cons] at h
      obtain ⟨m, hm⟩ := ih h.2
      cases item with
      | message m' => simp [Item.shape] at h
      | setup k' =>
        obtain rfl : k = k' := by simpa [Item.shape] using h.1
        exact ⟨m, by rw [List.map_cons, List.cons_append, List.cons_prefix_cons]; exact ⟨rfl, hm⟩⟩

/-- Where the shapes agree, the next message is the one that was written. -/
theorem next (h : Follows inn out)
    (hshape : inn.map Item.shape ++ [.message ()] <+: out.map Item.shape) :
    ∃ m, inn ++ [.message m] <+: out := by
  obtain ⟨taken, ks, rfl, rest, rfl⟩ := h
  have hks : (ks.map (Item.setup : κ → Item κ μ)).map Item.shape = ks.map .setup := by
    rw [List.map_map]
    rfl
  rw [List.map_append, List.map_append, List.append_assoc, List.prefix_append_right_inj, hks] at hshape
  obtain ⟨m, hm⟩ := setups_of_shape hshape
  exact ⟨m, by rwa [List.append_assoc, List.prefix_append_right_inj]⟩

end Follows

/-! ### Two ends -/

/-- What one end wrote and took, with its setups in both. -/
structure Logs (κ μ : Type*) where
  out : List (Item κ μ)
  inn : List (Item κ μ)

namespace Logs

def empty : Logs κ μ := ⟨[], []⟩

def write (logs : Logs κ μ) (m : μ) : Logs κ μ := { logs with out := logs.out ++ [.message m] }

def take (logs : Logs κ μ) (m : μ) : Logs κ μ := { logs with inn := logs.inn ++ [.message m] }

def setup (logs : Logs κ μ) (k : κ) : Logs κ μ := ⟨logs.out ++ [.setup k], logs.inn ++ [.setup k]⟩

/-- Messages that are written, and setups between them. -/
def answer (logs : Logs κ μ) (items : List (Item κ μ)) : Logs κ μ :=
  ⟨logs.out ++ items, logs.inn ++ setups items⟩

theorem answer_nil (logs : Logs κ μ) : logs.answer [] = logs := by
  simp [answer, setups]

theorem answer_append (logs : Logs κ μ) (items items' : List (Item κ μ)) :
    logs.answer (items ++ items') = (logs.answer items).answer items' := by
  simp [answer, setups]

theorem answer_setup (logs : Logs κ μ) (k : κ) : logs.answer [.setup k] = logs.setup k := rfl

theorem answer_message (logs : Logs κ μ) (m : μ) : logs.answer [.message m] = logs.write m := by
  simp [answer, setups, write]

def shape (logs : Logs κ μ) : Logs κ Unit := ⟨logs.out.map Item.shape, logs.inn.map Item.shape⟩

@[simp] theorem shape_write (logs : Logs κ μ) (m : μ) : (logs.write m).shape = logs.shape.write () := by
  simp [shape, write, Item.shape]

@[simp] theorem shape_take (logs : Logs κ μ) (m : μ) : (logs.take m).shape = logs.shape.take () := by
  simp [shape, take, Item.shape]

@[simp] theorem shape_setup (logs : Logs κ μ) (k : κ) : (logs.setup k).shape = logs.shape.setup k := by
  simp [shape, setup, Item.shape]

end Logs

/-- What an end does, without the messages. -/
inductive Op (κ : Type*)
  | write
  | take
  | setup (k : κ)
  deriving DecidableEq

def Op.next (logs : Logs κ Unit) : Op κ → Logs κ Unit
  | .write => logs.write ()
  | .take => logs.take ()
  | .setup k => logs.setup k

/-- A message is taken only if the other end wrote it behind the same setups and messages. -/
def Op.Allowed (logs : Bool → Logs κ Unit) (side : Bool) : Op κ → Prop
  | .take => (logs side).inn ++ [.message ()] <+: (logs !side).out
  | _ => True

/-- Every operation of a run is allowed where it stands. -/
def Orderly : (Bool → Logs κ Unit) → List (Bool × Op κ) → Prop
  | _, [] => True
  | logs, (side, op) :: ops =>
    op.Allowed logs side ∧ Orderly (Function.update logs side (op.next (logs side))) ops

end Duplex
