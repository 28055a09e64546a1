import Zinc.Base.History
import Mathlib.Logic.Function.Basic

/-! `Lockable` over a `SafeVector`. The program makes, moves and destroys objects in any
order; an operation lists the calls of `mlock`, `OPENSSL_cleanse` and `munlock` that it
makes and the storage that a vector gives back. The mutexes are left out; `_wipe` would
wait for one that an assignment holds, but no assignment gets there. -/

namespace Zinc.Util

open History

/-- The storage of a vector that is not empty; every allocation has its own number. -/
structure Storage where
  id : ℕ
  size : ℕ
  pos : 0 < size

/-- `SafeVector`: a moved vector is empty, and an empty one has no storage. -/
abbrev SafeVector := Option Storage

/-- A call that an object makes for storage. -/
inductive Call where
  | mlock (name id bytes : ℕ)
  | cleanse (name id bytes : ℕ)
  | munlock (name id bytes : ℕ)
  | free (name id : ℕ)
  deriving DecidableEq

structure Lockable where
  data : SafeVector
  isLocked : Bool

/-- What the destructor of a vector and an assignment to it give back. -/
def SafeVector.release (name : ℕ) : SafeVector → List Call
  | none => []
  | some storage => [.free name storage.id]

namespace Lockable

/-- `Lockable()`, and what a move leaves behind. -/
def empty : Lockable := ⟨none, false⟩

/-- `_lock`: a failure of `mlock` is only logged. -/
def lock (sizeofT name : ℕ) (lockable : Lockable) : Lockable × List Call :=
  match lockable.data with
  | none => (lockable, [])
  | some storage =>
    ({ lockable with isLocked := true }, [.mlock name storage.id (storage.size * sizeofT)])

def wipe (sizeofT name : ℕ) (lockable : Lockable) : List Call :=
  match lockable.data with
  | none => []
  | some storage => [.cleanse name storage.id (storage.size * sizeofT)]

/-- `_unlock`: the flag is cleared before it is tested. -/
def unlock (sizeofT name : ℕ) (lockable : Lockable) : Lockable × List Call :=
  let lockable := { lockable with isLocked := false }
  match lockable.data with
  | none => (lockable, [])
  | some storage =>
    if lockable.isLocked then
      (lockable, lockable.wipe sizeofT name ++ [.munlock name storage.id (storage.size * sizeofT)])
    else (lockable, [])

/-- `Lockable(T&&)`. -/
def ofData (sizeofT name : ℕ) (value : SafeVector) : Lockable × List Call :=
  lock sizeofT name ⟨value, false⟩

/-- `Lockable(Lockable&&)`: the new object, and what is left of the other one. -/
def moveConstruct (other : Lockable) : Lockable × Lockable :=
  (⟨other.data, other.isLocked⟩, .empty)

/-- `operator=(Lockable&&)` for two objects. -/
def moveAssign (sizeofT name : ℕ) (lockable other : Lockable) : Lockable × Lockable × List Call :=
  let (lockable, calls) := lockable.unlock sizeofT name
  (⟨other.data, other.isLocked⟩, .empty, calls ++ lockable.data.release name)

/-- The destructor. -/
def destroy (sizeofT name : ℕ) (lockable : Lockable) : List Call :=
  let (lockable, calls) := lockable.unlock sizeofT name
  calls ++ lockable.data.release name

end Lockable

/-- The objects that live, by name, and the number of allocations. -/
structure World where
  objects : ℕ → Option Lockable
  allocated : ℕ

inductive Operation where
  | default (name : ℕ)
  | construct (name size : ℕ)
  | moveConstruct (name other : ℕ)
  | moveAssign (name other : ℕ)
  | destroy (name : ℕ)

namespace World

def new : World := ⟨fun _ => none, 0⟩

/-- Another object, or none, under a name. -/
def set (name : ℕ) (lockable : Option Lockable) (world : World) : World :=
  { world with objects := Function.update world.objects name lockable }

/-- `SafeVector(const T*, size_t)`. -/
def allocate (size : ℕ) (world : World) : SafeVector × World :=
  if h : 0 < size then (some ⟨world.allocated, size, h⟩, { world with allocated := world.allocated + 1 })
  else (none, world)

/-- An operation with its calls; only free names can be constructed, and only objects
that live can be moved or destroyed. -/
def perform (sizeofT : ℕ) (world : World) : Operation → Option (World × List Call)
  | .default name =>
    match world.objects name with
    | none => some (world.set name (some .empty), [])
    | some _ => none
  | .construct name size =>
    match world.objects name with
    | none =>
      let (value, world) := world.allocate size
      let (lockable, calls) := Lockable.ofData sizeofT name value
      some (world.set name (some lockable), calls)
    | some _ => none
  | .moveConstruct name other =>
    match world.objects name, world.objects other with
    | none, some source =>
      let (lockable, source) := source.moveConstruct
      some ((world.set name (some lockable)).set other (some source), [])
    | _, _ => none
  | .moveAssign name other =>
    match world.objects name, world.objects other with
    | some lockable, some source =>
      if name = other then some (world, [])
      else
        let (lockable, source, calls) := lockable.moveAssign sizeofT name source
        some ((world.set name (some lockable)).set other (some source), calls)
    | _, _ => none
  | .destroy name =>
    match world.objects name with
    | some lockable => some (world.set name none, lockable.destroy sizeofT name)
    | none => none

/-- Operations in order, with all their calls. -/
def performAll (sizeofT : ℕ) (world : World) : List Operation → Option (World × List Call)
  | [] => some (world, [])
  | operation :: operations => do
    let (world, calls) ← world.perform sizeofT operation
    let (world, later) ← world.performAll sizeofT operations
    return (world, calls ++ later)

end World

/-- The histories of operations with their calls. -/
abbrev LockableRun (sizeofT : ℕ) : Past World (Operation × List Call) → World → Prop :=
  Run (· = .new) fun world a world' => world.perform sizeofT a.1 = some (world', a.2)

/-! ### `AESWrapper` -/

namespace AESWrapper

/-- The constructor: no key, and a register of zeros. -/
def construct (key iv : ℕ) : List Operation := [.default key, .construct iv 16]

/-- A temporary is made, moved and destroyed. -/
def assign (member temporary size : ℕ) : List Operation :=
  [.construct temporary size, .moveAssign member temporary, .destroy temporary]

def setKey (key temporary length : ℕ) : List Operation :=
  if length ≠ 16 ∧ length ≠ 24 ∧ length ≠ 32 then [] else assign key temporary length

def setIV (iv temporary length : ℕ) : List Operation :=
  if length ≠ 16 then [] else assign iv temporary length

/-- The destructor. -/
def destroy (key iv : ℕ) : List Operation := [.destroy iv, .destroy key]

end AESWrapper

end Zinc.Util
