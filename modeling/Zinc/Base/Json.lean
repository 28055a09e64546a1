import Mathlib.Data.List.Induction
import Mathlib.Data.Int.Notation

/-! JSON values. Strings are their bytes, floats their bit patterns, and an
object lists its members in the order of their keys, each key once, as a sorted
map does. Reading a member behind insertions needs only the last one with its
key. -/

/-- A value; the integers are those that a document can hold exactly. -/
inductive Json where
  | null
  | boolean (value : Bool)
  | integer (value : ℤ)
  | float (bits : BitVec 64)
  | string (value : List UInt8)
  | array (elements : List Json)
  | object (members : List (List UInt8 × Json))

namespace Json

/-- A member of a list of members. -/
def lookup (key : List UInt8) : List (List UInt8 × Json) → Option Json
  | [] => none
  | (k, v) :: members => if k = key then some v else lookup key members

/-- Insert a member at its place, in the place of one with the same key. -/
def insert (key : List UInt8) (value : Json) : List (List UInt8 × Json) → List (List UInt8 × Json)
  | [] => [(key, value)]
  | (k, v) :: members =>
    if k = key then (key, value) :: members
    else if key < k then (key, value) :: (k, v) :: members
    else (k, v) :: insert key value members

variable {key key' : List UInt8} {value : Json}

@[simp] theorem lookup_insert (members : List (List UInt8 × Json)) :
    lookup key' (insert key value members) =
      if key = key' then some value else lookup key' members := by
  induction members with
  | nil => simp [insert, lookup]
  | cons x members ih =>
    rw [insert]
    split
    next heq =>
      rw [lookup, lookup, heq]
      split <;> rfl
    next hne =>
    split
    · rw [lookup]
    · rw [lookup, lookup, ih]
      by_cases hkey : key = key'
      · rw [if_pos hkey, if_pos hkey, if_neg (hkey ▸ hne)]
      · rw [if_neg hkey, if_neg hkey]

theorem insert_ne_nil (members : List (List UInt8 × Json)) : insert key value members ≠ [] := by
  cases members with
  | nil => exact List.cons_ne_nil _ _
  | cons x members =>
    rw [insert]
    split
    · exact List.cons_ne_nil _ _
    · split <;> exact List.cons_ne_nil _ _

/-- The object with the given members, the last of several with one key. -/
def ofMembers (members : List (List UInt8 × Json)) : Json :=
  object (members.foldl (fun members x => insert x.1 x.2 members) [])

/-- The member of an object. -/
def member (key : List UInt8) : Json → Option Json
  | object members => lookup key members
  | _ => none

/-- The object with one more member. -/
def set (json : Json) (key : List UInt8) (value : Json) : Json :=
  match json with
  | object members => object (insert key value members)
  | _ => json

/-- A string of an object. -/
def asString : Json → Option (List UInt8)
  | string value => some value
  | _ => none

/-- A member of an object. -/
@[simp] theorem member_object (members : List (List UInt8 × Json)) :
    (object members).member key = lookup key members := rfl

@[simp] theorem set_object (members : List (List UInt8 × Json)) :
    (object members).set key value = object (insert key value members) := rfl

end Json
