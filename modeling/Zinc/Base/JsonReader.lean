import Mathlib.Data.List.Count
import Mathlib.Data.Int.Notation

/-! A reader of JSON texts. A text is a list of bytes; the strings it spells are lists of
bytes as well, in which an escaped character stands in UTF-8 and bytes from 128 on are
taken as they are. A number keeps its digits and a power of ten. The bound of `readValue`
counts nested values, each of which takes at least one byte. -/

namespace JsonReader

/-- A value, with the members of an object in their order in the text. -/
inductive Value where
  | null
  | boolean (value : Bool)
  | number (digits : ℤ) (exponent : ℤ)
  | string (value : List UInt8)
  | array (elements : List Value)
  | object (members : List (List UInt8 × Value))

/-- What is read from the front of a text, with the rest. -/
abbrev Reader (α : Type) := List UInt8 → Option (α × List UInt8)

def isSpace (c : UInt8) : Bool := c = 32 ∨ c = 9 ∨ c = 10 ∨ c = 13

def skipSpace (text : List UInt8) : List UInt8 := text.dropWhile isSpace

/-! ### Numbers -/

def isDigit (c : UInt8) : Bool := 48 ≤ c ∧ c ≤ 57

def readDigits (text : List UInt8) : List UInt8 × List UInt8 :=
  (text.takeWhile isDigit, text.dropWhile isDigit)

def digitsValue (digits : List UInt8) : ℕ := digits.foldl (fun n c => 10 * n + (c.toNat - 48)) 0

def signed (negative : Bool) (n : ℕ) : ℤ := if negative then -(n : ℤ) else n

/-- A zero in front stands alone. -/
def readWhole : Reader (List UInt8) := fun text =>
  let (digits, text) := readDigits text
  if digits = [] ∨ digits.head? = some 48 ∧ digits ≠ [48] then none else some (digits, text)

def readFraction : Reader (List UInt8)
  | [] => some ([], [])
  | c :: text =>
    if c = 46 then
      let (digits, text) := readDigits text
      if digits = [] then none else some (digits, text)
    else some ([], c :: text)

def readSign : List UInt8 → Bool × List UInt8
  | [] => (false, [])
  | c :: text => if c = 45 then (true, text) else if c = 43 then (false, text) else (false, c :: text)

def readExponent : Reader ℤ
  | [] => some (0, [])
  | c :: text =>
    if c = 101 ∨ c = 69 then
      let (negative, text) := readSign text
      let (digits, text) := readDigits text
      if digits = [] then none else some (signed negative (digitsValue digits), text)
    else some (0, c :: text)

def readMagnitude (negative : Bool) : Reader Value := fun text => do
  let (whole, text) ← readWhole text
  let (fraction, text) ← readFraction text
  let (exponent, text) ← readExponent text
  some (.number (signed negative (digitsValue (whole ++ fraction))) (exponent - fraction.length),
    text)

def readNumber : Reader Value
  | [] => none
  | c :: text => if c = 45 then readMagnitude true text else readMagnitude false (c :: text)

/-! ### Strings -/

def hexValue (c : UInt8) : Option ℕ :=
  if 48 ≤ c ∧ c ≤ 57 then some (c.toNat - 48)
  else if 97 ≤ c ∧ c ≤ 102 then some (c.toNat - 87)
  else if 65 ≤ c ∧ c ≤ 70 then some (c.toNat - 55)
  else none

/-- Four hexadecimal digits. -/
def readUnit : Reader ℕ
  | a :: b :: c :: d :: text => do
    let a ← hexValue a
    let b ← hexValue b
    let c ← hexValue c
    let d ← hexValue d
    some (4096 * a + 256 * b + 16 * c + d, text)
  | _ => none

/-- The bytes of a character in UTF-8. -/
def characterBytes (code : ℕ) : List UInt8 :=
  if code < 0x80 then [.ofNat code]
  else if code < 0x800 then [.ofNat (0xC0 + code / 64), .ofNat (0x80 + code % 64)]
  else if code < 0x10000 then
    [.ofNat (0xE0 + code / 4096), .ofNat (0x80 + code / 64 % 64), .ofNat (0x80 + code % 64)]
  else [.ofNat (0xF0 + code / 262144), .ofNat (0x80 + code / 4096 % 64),
    .ofNat (0x80 + code / 64 % 64), .ofNat (0x80 + code % 64)]

/-- The low half of a surrogate pair, as an escape of its own. -/
def readLow : Reader ℕ
  | 92 :: 117 :: text => do
    let (low, text) ← readUnit text
    if 0xDC00 ≤ low ∧ low < 0xE000 then some (low, text) else none
  | _ => none

def readUnicode : Reader (List UInt8) := fun text => do
  let (unit, text) ← readUnit text
  if unit < 0xD800 ∨ 0xE000 ≤ unit then some (characterBytes unit, text)
  else if unit < 0xDC00 then do
    let (low, text) ← readLow text
    some (characterBytes (0x10000 + 1024 * (unit - 0xD800) + (low - 0xDC00)), text)
  else none

/-- The characters that an escape of two characters stands for. -/
def shortEscape (c : UInt8) : Option UInt8 :=
  if c = 34 then some 34
  else if c = 92 then some 92
  else if c = 47 then some 47
  else if c = 98 then some 8
  else if c = 102 then some 12
  else if c = 110 then some 10
  else if c = 114 then some 13
  else if c = 116 then some 9
  else none

/-- An escape behind its backslash. -/
def readEscape : Reader (List UInt8)
  | [] => none
  | c :: text =>
    if c = 117 then readUnicode text
    else do
      let character ← shortEscape c
      some ([character], text)

/-- The characters of a string and the quote behind them. -/
def readCharacters : ℕ → Reader (List UInt8)
  | 0, _ => none
  | _ + 1, [] => none
  | n + 1, c :: text =>
    if c = 34 then some ([], text)
    else if c = 92 then do
      let (escaped, text) ← readEscape text
      let (characters, text) ← readCharacters n text
      some (escaped ++ characters, text)
    else if c < 32 then none
    else do
      let (characters, text) ← readCharacters n text
      some (c :: characters, text)

/-- A string behind its first quote. -/
def readString : Reader (List UInt8) := fun text => readCharacters text.length text

/-! ### Values -/

variable {α : Type}

/-- Items with commas between them, up to the closing character. -/
def readItems (item : Reader α) (close : UInt8) : ℕ → Reader (List α)
  | 0, _ => none
  | n + 1, text => do
    let (value, text) ← item (skipSpace text)
    match skipSpace text with
    | [] => none
    | c :: text =>
      if c = close then some ([value], text)
      else if c = 44 then do
        let (values, text) ← readItems item close n text
        some (value :: values, text)
      else none

/-- The same, or nothing but the closing character. -/
def readSequence (item : Reader α) (close : UInt8) : Reader (List α) := fun text =>
  match skipSpace text with
  | [] => none
  | c :: rest => if c = close then some ([], rest) else readItems item close text.length (c :: rest)

def expect (c : UInt8) : List UInt8 → Option (List UInt8)
  | [] => none
  | d :: text => if d = c then some text else none

def readMember (item : Reader α) : Reader (List UInt8 × α) := fun text => do
  let text ← expect 34 text
  let (key, text) ← readString text
  let text ← expect 58 (skipSpace text)
  let (value, text) ← item (skipSpace text)
  some ((key, value), text)

/-- The rest of a word. -/
def readWord (word : List UInt8) (value : Value) : Reader Value := fun text =>
  if word.isPrefixOf text then some (value, text.drop word.length) else none

def readValue : ℕ → Reader Value
  | 0, _ => none
  | _ + 1, [] => none
  | n + 1, c :: text =>
    if c = 34 then do
      let (value, text) ← readString text
      some (.string value, text)
    else if c = 91 then do
      let (elements, text) ← readSequence (readValue n) 93 text
      some (.array elements, text)
    else if c = 123 then do
      let (members, text) ← readSequence (readMember (readValue n)) 125 text
      some (.object members, text)
    else if c = 116 then readWord [114, 117, 101] (.boolean true) text
    else if c = 102 then readWord [97, 108, 115, 101] (.boolean false) text
    else if c = 110 then readWord [117, 108, 108] .null text
    else readNumber (c :: text)

/-- The value of a whole text. -/
def parse (text : List UInt8) : Option Value := do
  let (value, rest) ← readValue text.length (skipSpace text)
  if skipSpace rest = [] then some value else none

/-- `[1,]`: no comma stands in front of a closing bracket. -/
example : (parse [91, 49, 44, 93]).isNone = true := by decide

end JsonReader
