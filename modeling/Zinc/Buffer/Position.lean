import Zinc.Buffer.RoundTrip
import Zinc.Buffer.Vectors

/-! Block positions. A position is one word of 64 bits: x in the highest 26, z in the 26 below
them and y in the lowest 12. The writer masks and shifts the sign extended coordinates, the
reader brings each field down and gives it its sign. Both are the same three fields put next to
each other, so every word is the word of the position read from it. -/

namespace Zinc.Buffer

open Throw ByteBuffer

namespace ByteBuffer

/-- The word of `writePosition`. -/
def positionWord (value : Vector3 (BitVec 32)) : BitVec 64 :=
  (value.x.signExtend 64 &&& 0x3FFFFFF) <<< 38 ||| (value.z.signExtend 64 &&& 0x3FFFFFF) <<< 12 |||
    (value.y.signExtend 64 &&& 0xFFF)

def writePosition (value : Vector3 (BitVec 32)) : Action Unit :=
  writeNumeric (k := 8) (positionWord value)

/-- The coordinates that `readPosition` takes from a word. -/
def positionOfWord (longVal : BitVec 64) : Vector3 (BitVec 32) :=
  let x := (longVal.sshiftRight 38).setWidth 32
  let z := (longVal.sshiftRight 12 &&& 0x3FFFFFF).setWidth 32
  let y := (longVal &&& 0xFFF).setWidth 32
  ⟨(x <<< 6).sshiftRight 6, (y <<< 20).sshiftRight 20, (z <<< 6).sshiftRight 6⟩

def readPosition : Action (Vector3 (BitVec 32)) := do
  let longVal ← readNumeric 8
  return positionOfWord longVal

end ByteBuffer

/-! ### Fields of a position -/

theorem positionMasks : (0x3FFFFFF : BitVec 64) = BitVec.ofNat 64 (2 ^ 26 - 1) ∧
    (0xFFF : BitVec 64) = BitVec.ofNat 64 (2 ^ 12 - 1) := ⟨rfl, rfl⟩

theorem positionWord_eq (value : Vector3 (BitVec 32)) :
    positionWord value = value.x.setWidth 26 ++ value.z.setWidth 26 ++ value.y.setWidth 12 := by
  unfold positionWord
  rw [positionMasks.1, positionMasks.2, Fields.and_mask, Fields.and_mask, Fields.and_mask]
  apply BitVec.eq_of_getLsbD_eq
  intro i hi
  simp only [BitVec.getLsbD_or, BitVec.getLsbD_shiftLeft, BitVec.getLsbD_append,
    BitVec.getLsbD_setWidth, BitVec.getLsbD_signExtend]
  by_cases hy : i < 12
  · simp [hy, hi, show i < 38 by omega, show i < 32 by omega]
  · by_cases hz : i < 38
    · simp [hy, hi, hz, show i - 12 < 26 by omega, show i - 12 < 32 by omega,
        show i - 12 < 64 by omega]
    · simp [hy, hi, hz, show ¬ i - 12 < 26 by omega, Nat.sub_sub, show i - 38 < 26 by omega,
        show i - 38 < 32 by omega, show i - 38 < 64 by omega]

theorem positionOfWord_eq (word : BitVec 64) :
    positionOfWord word = ⟨(word.extractLsb' 38 26).signExtend 32,
      (word.extractLsb' 0 12).signExtend 32, (word.extractLsb' 12 26).signExtend 32⟩ := by
  have hwide := Fields.sshiftRight_shiftLeft (w := 32) (n := 26) (by decide) (by decide)
  have hnarrow := Fields.sshiftRight_shiftLeft (w := 32) (n := 12) (by decide) (by decide)
  simp only [positionOfWord, positionMasks.1, positionMasks.2, Fields.and_mask,
    show (6 : ℕ) = 32 - 26 from rfl, show (20 : ℕ) = 32 - 12 from rfl, hwide, hnarrow]
  rw [← Fields.setWidth_sshiftRight (by decide), ← Fields.setWidth_sshiftRight (s := 0) (by decide),
    ← Fields.setWidth_sshiftRight (s := 12) (by decide)]
  congr 2 <;> simp

/-- Each coordinate is cut to its field and takes the sign of the field. -/
theorem positionOfWord_positionWord (value : Vector3 (BitVec 32)) :
    positionOfWord (positionWord value) = ⟨(value.x.setWidth 26).signExtend 32,
      (value.y.setWidth 12).signExtend 32, (value.z.setWidth 26).signExtend 32⟩ := by
  rw [positionOfWord_eq, positionWord_eq]
  congr 2 <;>
  · apply BitVec.eq_of_getLsbD_eq
    intro i hi
    rw [BitVec.getLsbD_extractLsb', BitVec.getLsbD_append]
    simp only [BitVec.getLsbD_append]
    grind

theorem positionWord_positionOfWord (word : BitVec 64) :
    positionWord (positionOfWord word) = word := by
  rw [positionWord_eq, positionOfWord_eq]
  simp only [Fields.setWidth_signExtend (show 26 ≤ 32 by decide),
    Fields.setWidth_signExtend (show 12 ≤ 32 by decide)]
  rw [BitVec.extractLsb'_append_extractLsb'_eq_extractLsb' (by rfl),
    BitVec.extractLsb'_append_extractLsb'_eq_extractLsb' (by rfl)]
  exact BitVec.extractLsb'_eq_self

/-! ### Positions in a buffer -/

variable {e : Bool} {view : ByteBuffer → Bytes → Prop}

theorem Writable.writePosition (hv : Writable e view) (value : Vector3 (BitVec 32)) :
    Produces view (ByteBuffer.writePosition value) (numericBytes e (k := 8) (positionWord value)) :=
  hv.writeNumeric _

theorem Readable.readPosition (hv : Readable e view) (word : BitVec 64) :
    Consumes view ByteBuffer.readPosition (numericBytes e (k := 8) word) (positionOfWord word) :=
  (hv.readNumeric (k := 8) (by decide) word).bind_pure positionOfWord

/-- The coordinates that the fields can hold. -/
structure InFields (value : Vector3 (BitVec 32)) : Prop where
  x : -2 ^ 25 ≤ value.x.toInt ∧ value.x.toInt < 2 ^ 25
  y : -2 ^ 11 ≤ value.y.toInt ∧ value.y.toInt < 2 ^ 11
  z : -2 ^ 25 ≤ value.z.toInt ∧ value.z.toInt < 2 ^ 25

theorem InFields.positionOfWord {value : Vector3 (BitVec 32)} (h : InFields value) :
    positionOfWord (positionWord value) = value := by
  rw [positionOfWord_positionWord,
    Fields.signExtend_setWidth_of_fits (n := 26) (by decide) (by decide) h.x.1 h.x.2,
    Fields.signExtend_setWidth_of_fits (n := 12) (by decide) (by decide) h.y.1 h.y.2,
    Fields.signExtend_setWidth_of_fits (n := 26) (by decide) (by decide) h.z.1 h.z.2]

/-- A position comes back when its coordinates fit and is reduced to the fields otherwise, and
what is written of the position read from a word is the word. -/
theorem readPosition_writePosition (e : Bool) :
    (∀ value, InFields value →
      Restores e (writePosition value) (fun _ => readPosition) (· = value)) ∧
    (∀ value, Restores e (writePosition value) (fun _ => readPosition) fun value' =>
      value'.x.toInt = value.x.toInt.bmod (2 ^ 26) ∧
      value'.y.toInt = value.y.toInt.bmod (2 ^ 12) ∧
      value'.z.toInt = value.z.toInt.bmod (2 ^ 26)) ∧
    ∀ (word : BitVec 64) buffer, Stored e buffer (numericBytes e (k := 8) word) →
      ∃ value buffer' written, readPosition buffer = .ok (value, buffer') ∧
        writePosition value buffer' = .ok ((), written) ∧
        Stored e written (numericBytes e (k := 8) word) := by
  have hrestores : ∀ value P, P (positionOfWord (positionWord value)) →
      Restores e (writePosition value) (fun _ => readPosition) P := fun value P hP =>
    restores_of_consumes (m := 0) ((writable_stored e).writePosition value)
      (fun _ _ => (readable_stored e).readPosition _) hP
  refine ⟨fun value h => hrestores value _ h.positionOfWord, fun value => ?_, fun word buffer h => ?_⟩
  · refine hrestores value _ ?_
    rw [positionOfWord_positionWord]
    exact ⟨Fields.toInt_signExtend_setWidth (by decide) value.x,
      Fields.toInt_signExtend_setWidth (by decide) value.y,
      Fields.toInt_signExtend_setWidth (by decide) value.z⟩
  · obtain ⟨buffer', hread, h'⟩ := (readable_stored e).readPosition word buffer [] (by simpa using h)
    obtain ⟨written, hwrite, hs⟩ := (writable_stored e).writePosition (positionOfWord word) buffer' [] h'
    rw [positionWord_positionOfWord, List.nil_append] at hs
    exact ⟨_, buffer', written, hread, hwrite, hs⟩

theorem readPosition_writePosition_corner :
    InFields ⟨-33554432, 2047, 33554431⟩ ∧
      Restores true (writePosition ⟨-33554432, 2047, 33554431⟩) (fun _ => readPosition)
        (· = ⟨-33554432, 2047, 33554431⟩) := by
  have h : InFields ⟨-33554432, 2047, 33554431⟩ := ⟨by decide, by decide, by decide⟩
  exact ⟨h, (readPosition_writePosition true).1 _ h⟩

end Zinc.Buffer
