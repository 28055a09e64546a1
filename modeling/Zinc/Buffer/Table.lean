import Zinc.Base.History
import Zinc.Buffer.Queue

/-! The block table of an internal buffer over whole runs. In a regular table the
writer stands inside the last block. Writing, clearing and toggling keep that, and
so does every read that leaves a block. A recycling reader in the front block that
reads up to the end of the last one drops them all, and the writer's block number
stays: from there a write indexes an empty table, until the buffer is cleared. The
table is sound along a run exactly when no read drains it. -/

namespace Zinc.Buffer

open Blocks

namespace InternalByteBuffer

/-! ### Writes -/

/-- A reader has dropped every block. -/
structure Drained (b : InternalByteBuffer) : Prop extends Shape b where
  blocks_eq : b.blocks = []
  writeBlock_eq : b.writeBlock = 0
  readOffset_eq : b.readOffset = 0

/-- One iteration of `write`. -/
theorem Regular.writeStep {b : InternalByteBuffer} {xs block : Bytes} (h : Regular b)
    (hblock : b.blocks[b.writeBlock]? = some block) (hxs : b.writeOffset + xs.length ≤ blockSize) :
    Regular (nextWriteBlock
      { b with blocks := b.blocks.set b.writeBlock (overwrite block b.writeOffset xs)
               writeOffset := b.writeOffset + xs.length }) := by
  have hlen : block.length = blockSize := h.uniform _ (List.mem_of_getElem? hblock)
  have huni : Uniform blockSize (b.blocks.set b.writeBlock (overwrite block b.writeOffset xs)) :=
    h.uniform.set _ (by rw [length_overwrite (by omega), hlen])
  have hread := h.readBlock_le
  have hwriter := h.writer
  unfold nextWriteBlock
  split
  next =>
    refine ⟨⟨huni.concat (length_zeros _), ?_, h.readOffset_lt⟩, ?_, blockSize_pos⟩
    · simp only [List.length_append, List.length_set]
      omega
    · simp [hwriter]
  next hroom =>
    refine ⟨⟨huni, ?_, h.readOffset_lt⟩, ?_, lt_of_le_of_ne hxs hroom⟩
    · simpa using hread
    · simpa using hwriter

theorem Regular.writeLoop {b : InternalByteBuffer} (h : Regular b) {fuel : ℕ} (data : Bytes)
    (hfuel : data.length < fuel) :
    ∃ b', writeLoop fuel data b = .ok b' ∧ Regular b' ∧ SameReader b b' := by
  have hrule := @exists_writeLoop (fun b _ => Regular b) (fun _ _ h => h)
    (fun _ _ _ _ h hblock hxs => h.writeStep hblock hxs) b []
  exact hrule h data hfuel

theorem Regular.write {b : InternalByteBuffer} (h : Regular b) (data : Bytes) :
    ∃ b', b.write data = .ok b' ∧ Regular b' ∧ SameReader b b' :=
  h.writeLoop data (Nat.lt_succ_self _)

/-- Without blocks only the empty write returns. -/
theorem Drained.eq_of_write {b b' : InternalByteBuffer} (h : Drained b) {data : Bytes}
    (hwrite : b.write data = .ok b') : b' = b := by
  cases data with
  | nil => exact (Except.ok.inj hwrite).symm
  | cons x xs => simp [InternalByteBuffer.write, InternalByteBuffer.writeLoop, h.blocks_eq] at hwrite

/-! ### Blocks that a read leaves -/

/-- Recycling keeps the reader's block number, otherwise the blocks stay; a reader that
drops the last block stands at its start. -/
structure ReadFrame (b b' : InternalByteBuffer) : Prop where
  recycle_eq : b'.enableBlockRecycle = b.enableBlockRecycle
  readBlock_eq : b.enableBlockRecycle = true → b'.readBlock = b.readBlock
  blocks_eq : b.enableBlockRecycle = false → b'.blocks = b.blocks
  readOffset_eq : (b.blocks = [] → b.readOffset = 0) → b'.blocks = [] → b'.readOffset = 0

theorem ReadFrame.refl (b : InternalByteBuffer) : ReadFrame b b :=
  ⟨rfl, fun _ => rfl, fun _ => rfl, fun h => h⟩

theorem ReadFrame.trans {b b' b'' : InternalByteBuffer} (h : ReadFrame b b')
    (h' : ReadFrame b' b'') : ReadFrame b b'' where
  recycle_eq := h'.recycle_eq.trans h.recycle_eq
  readBlock_eq hrecycle :=
    (h'.readBlock_eq (h.recycle_eq.trans hrecycle)).trans (h.readBlock_eq hrecycle)
  blocks_eq hrecycle := (h'.blocks_eq (h.recycle_eq.trans hrecycle)).trans (h.blocks_eq hrecycle)
  readOffset_eq hb := h'.readOffset_eq (h.readOffset_eq hb)

theorem ReadFrame.nextReadBlock {b : InternalByteBuffer} (hb : b.blocks ≠ []) (offset : ℕ) :
    ReadFrame b (nextReadBlock { b with readOffset := offset }) := by
  unfold InternalByteBuffer.nextReadBlock
  cases hrecycle : b.enableBlockRecycle <;> split <;>
    exact ⟨by simp [hrecycle], by simp [hrecycle], by simp [hrecycle], by simp [hb]⟩

theorem readLoop_frame {fuel r : ℕ} {result out : Bytes} {b b' : InternalByteBuffer}
    (h : readLoop fuel r result b = .ok (out, b')) : ReadFrame b b' := by
  induction fuel generalizing r result b with
  | zero =>
    cases r with
    | zero =>
      cases h
      exact .refl _
    | succ r => cases h
  | succ fuel ih =>
    cases r with
    | zero =>
      cases h
      exact .refl _
    | succ r =>
      cases hblock : b.blocks[b.readBlock]? with
      | none =>
        simp only [readLoop, hblock, Except.ok.injEq, Prod.mk.injEq] at h
        rw [← h.2]
        exact .refl b
      | some block =>
        simp only [readLoop, hblock] at h
        have hne : b.blocks ≠ [] := List.ne_nil_of_mem (List.mem_of_getElem? hblock)
        exact (ReadFrame.nextReadBlock hne _).trans (ih h)

variable {b b' : InternalByteBuffer} {n : ℕ} {out : Bytes}

/-- A read from the front block up to the end of the last one, with recycling. -/
def Drains (b : InternalByteBuffer) (n : ℕ) : Prop :=
  b.enableBlockRecycle = true ∧ b.readBlock = 0 ∧ n ≤ maxSize ∧
    b.blocks.length * blockSize ≤ b.readOffset + n

instance (b : InternalByteBuffer) (n : ℕ) : Decidable (Drains b n) :=
  inferInstanceAs (Decidable (_ ∧ _ ∧ _ ∧ _))

theorem le_maxSize_of_read (hread : b.read n = .ok (out, b')) : n ≤ maxSize := by
  by_contra hlarge
  rw [InternalByteBuffer.read, if_pos (by omega)] at hread
  cases hread

theorem Shape.advances (h : Shape b) (hread : b.read n = .ok (out, b')) : Advances b b' n := by
  obtain ⟨b'', hread', hadv⟩ := h.read (le_maxSize_of_read hread)
  rw [hread'] at hread
  cases hread
  exact hadv

theorem read_frame (hread : b.read n = .ok (out, b')) : ReadFrame b b' := by
  rw [InternalByteBuffer.read, if_neg (by have := le_maxSize_of_read hread; omega)] at hread
  exact readLoop_frame hread

/-- The blocks left behind a read: memory is left exactly when a block is. -/
theorem Shape.blocks_pos_iff_of_front (h : Shape b) (hfront : b.readBlock = 0) :
    0 < b.blocks.length ↔ 0 < (ahead b).length := by
  have hlen := h.length_ahead
  have hoff := h.readOffset_lt
  rw [hfront, Nat.zero_mul, Nat.zero_add] at hlen
  constructor
  · intro hpos
    have hmul : 1 * blockSize ≤ b.blocks.length * blockSize := Nat.mul_le_mul_right blockSize hpos
    omega
  · intro hpos
    by_contra hnil
    rw [Nat.eq_zero_of_not_pos hnil, Nat.zero_mul] at hlen
    omega

/-- A read drops every block of a regular table exactly when it drains it. -/
theorem Regular.blocks_eq_nil_iff (h : Regular b) (hread : b.read n = .ok (out, b')) :
    b'.blocks = [] ↔ Drains b n := by
  have hadv := h.toShape.advances hread
  have hframe := read_frame hread
  have hwriter := h.writer
  rw [← List.length_eq_zero_iff]
  cases hrecycle : b.enableBlockRecycle with
  | false =>
    simp only [Drains, hrecycle, hframe.blocks_eq hrecycle, Bool.false_eq_true, false_and, iff_false]
    omega
  | true =>
    have hle := hadv.shape.readBlock_le
    have hblock := hframe.readBlock_eq hrecycle
    by_cases hfront : b.readBlock = 0
    · have hleft := hadv.shape.blocks_pos_iff_of_front (hblock.trans hfront)
      have hlen := h.toShape.length_ahead
      have hmul : 1 * blockSize ≤ b.blocks.length * blockSize := Nat.mul_le_mul_right _ (by omega)
      have hoff := h.readOffset_lt
      rw [hadv.ahead_eq, List.length_drop] at hleft
      rw [hfront, Nat.zero_mul, Nat.zero_add] at hlen
      simp only [Drains, hrecycle, hfront, le_maxSize_of_read hread, true_and]
      omega
    · simp only [Drains, hfront, false_and, and_false, iff_false]
      omega

/-- What a reader that passes memory leaves of a regular table. -/
theorem Regular.advance (h : Regular b) (hadv : Advances b b' n) (hframe : ReadFrame b b') :
    Regular b' ∨ Drained b' := by
  obtain ⟨k, hblocks, hwrite⟩ := hadv.dropped
  have hwriter := h.writer
  by_cases hk : k < b.blocks.length
  · refine .inl ⟨hadv.shape, ?_, by rw [hadv.writeOffset_eq]; exact h.writeOffset_lt⟩
    rw [hblocks, List.length_drop]
    omega
  · have hnil : b'.blocks = [] := by rw [hblocks, List.drop_eq_nil_iff]; omega
    have hne : b.blocks ≠ [] := List.ne_nil_of_length_pos (by omega)
    exact .inr ⟨hadv.shape, hnil, by omega, hframe.readOffset_eq (fun h => absurd h hne) hnil⟩

theorem Drained.advance (h : Drained b) (hadv : Advances b b' n) (hframe : ReadFrame b b') :
    Drained b' := by
  obtain ⟨k, hblocks, hwrite⟩ := hadv.dropped
  have hnil : b'.blocks = [] := by rw [hblocks, h.blocks_eq, List.drop_nil]
  refine ⟨hadv.shape, hnil, ?_, hframe.readOffset_eq (fun _ => h.readOffset_eq) hnil⟩
  rw [hwrite, h.writeBlock_eq, Nat.zero_sub]

theorem Regular.drained (h : Regular b) (hread : b.read n = .ok (out, b')) (hdrains : Drains b n) :
    Drained b' := by
  have hnil := (h.blocks_eq_nil_iff hread).mpr hdrains
  obtain hregular | hdrained := h.advance (h.toShape.advances hread) (read_frame hread)
  · have := hregular.writer
    rw [hnil] at this
    cases this
  · exact hdrained

theorem Regular.read (h : Regular b) (hread : b.read n = .ok (out, b')) (hkeep : ¬ Drains b n) :
    Regular b' := by
  obtain hregular | hdrained := h.advance (h.toShape.advances hread) (read_frame hread)
  · exact hregular
  · exact absurd ((h.blocks_eq_nil_iff hread).mp hdrained.blocks_eq) hkeep

end InternalByteBuffer

namespace Table

open InternalByteBuffer Queue History

/-! ### Runs -/

/-- A command returns, or a read asks for more than a vector can hold: the exception
leaves the buffer as it was. -/
def CommandStep (b : InternalByteBuffer) (c : Command) (b' : InternalByteBuffer) : Prop :=
  (∃ out, Queue.step b c = .ok (out, b')) ∨ (Queue.step b c = .error .lengthError ∧ b' = b)

/-- Runs from a fresh buffer. -/
abbrev CommandRun : Past InternalByteBuffer Command → InternalByteBuffer → Prop :=
  Run (· = .new) CommandStep

/-- The cursors are inside their bounds, the blocks have the block size, a write stays
inside the table, and the sizes agree. -/
structure Sound (b : InternalByteBuffer) : Prop where
  writeBlock_lt : b.writeBlock < b.blocks.length
  writeOffset_lt : b.writeOffset < blockSize
  readOffset_lt : b.readOffset < blockSize
  uniform : Uniform blockSize b.blocks
  write : ∀ bytes, ∃ b', b.write bytes = .ok b'
  size_eq : ∀ isBigEndian, b.getBytes.length = (ByteBuffer.mk b isBigEndian).size

/-- The command is a read that drops every block. -/
def DrainedBy (b : InternalByteBuffer) : Command → Prop
  | .read n => Drains b n
  | _ => False

variable {past : Past InternalByteBuffer Command} {b b' : InternalByteBuffer} {c : Command}

theorem CommandStep.write {bytes : Bytes} (h : b.write bytes = .ok b') :
    CommandStep b (.write bytes) b' := .inl ⟨[], by rw [Queue.step, h]; rfl⟩

theorem CommandStep.read {n : ℕ} {out : Bytes} (h : b.read n = .ok (out, b')) :
    CommandStep b (.read n) b' := .inl ⟨out, h⟩

theorem CommandStep.toggleBlockRecycle (state : Bool) :
    CommandStep b (.toggleBlockRecycle state) (b.toggleBlockRecycle state) := .inl ⟨[], rfl⟩

theorem sound_of_regular (h : Regular b) : Sound b where
  writeBlock_lt := by
    have := h.writer
    omega
  writeOffset_lt := h.writeOffset_lt
  readOffset_lt := h.readOffset_lt
  uniform := h.uniform
  write := fun bytes => by
    obtain ⟨b', hwrite, -⟩ := h.write bytes
    exact ⟨b', hwrite⟩
  size_eq := fun _ => h.length_getBytes

theorem not_sound_of_drained (h : Drained b) : ¬ Sound b := by
  intro hsound
  have hlt := hsound.writeBlock_lt
  simp [h.blocks_eq] at hlt

/-- One command: a regular table stays regular, or a read drains it. -/
theorem step_of_regular (h : Regular b) (hstep : CommandStep b c b') :
    (Regular b' ∧ ¬ DrainedBy b c) ∨ (Drained b' ∧ DrainedBy b c) := by
  obtain ⟨out, hstep⟩ | ⟨hthrow, rfl⟩ := hstep
  · cases c with
    | write bytes =>
      obtain ⟨b'', hwrite, hregular, -⟩ := h.write bytes
      rw [Queue.step, hwrite] at hstep
      cases hstep
      exact .inl ⟨hregular, id⟩
    | read n =>
      by_cases hdrains : Drains b n
      · exact .inr ⟨h.drained hstep hdrains, hdrains⟩
      · exact .inl ⟨h.read hstep hdrains, hdrains⟩
    | toggleBlockRecycle state =>
      cases hstep
      exact .inl ⟨⟨⟨h.uniform, h.readBlock_le, h.readOffset_lt⟩, h.writer, h.writeOffset_lt⟩, id⟩
    | clear =>
      cases hstep
      exact .inl ⟨(holds_clear b).regular, id⟩
  · refine .inl ⟨h, fun hdrained => ?_⟩
    cases c with
    | read n =>
      have hmax : n ≤ maxSize := hdrained.2.2.1
      obtain ⟨b', hread, -⟩ := h.toShape.read hmax
      rw [Queue.step, hread] at hthrow
      cases hthrow
    | _ => exact hdrained

/-- A drained table stays drained until it is cleared. -/
theorem step_of_drained (h : Drained b) (hstep : CommandStep b c b') :
    Drained b' ∨ Regular b' := by
  obtain ⟨out, hstep⟩ | ⟨-, rfl⟩ := hstep
  · cases c with
    | write bytes =>
      obtain ⟨b'', hwrite, hrest⟩ := Throw.bind_eq_ok.mp hstep
      cases hrest
      exact .inl (h.eq_of_write hwrite ▸ h)
    | read n => exact .inl (h.advance (h.toShape.advances hstep) (read_frame hstep))
    | toggleBlockRecycle state =>
      cases hstep
      exact .inl ⟨⟨h.uniform, h.readBlock_le, h.readOffset_lt⟩, h.blocks_eq, h.writeBlock_eq,
        h.readOffset_eq⟩
    | clear =>
      cases hstep
      exact .inr (holds_clear b).regular
  · exact .inl h

theorem regular_or_drained (h : CommandRun past b) : Regular b ∨ Drained b := by
  induction h with
  | start h =>
    cases h
    exact .inl holds_new.regular
  | next h hstep ih =>
    obtain hregular | hdrained := ih
    · obtain ⟨h', -⟩ | ⟨h', -⟩ := step_of_regular hregular hstep
      · exact .inl h'
      · exact .inr h'
    · exact (step_of_drained hdrained hstep).symm

/-- Every reachable buffer is well shaped. -/
theorem shape_of_run (h : CommandRun past b) : Shape b := by
  obtain hregular | hdrained := regular_or_drained h
  · exact hregular.toShape
  · exact hdrained.toShape

/-- The table is sound in every state of a run exactly when no read of the run drains it. -/
theorem sound_iff (h : CommandRun past b) :
    ((∀ x ∈ past, Sound x.1) ∧ Sound b) ↔ ∀ x ∈ past, ¬ DrainedBy x.1 x.2 := by
  induction h with
  | start h =>
    cases h
    simp [sound_of_regular holds_new.regular]
  | @next past b b' c h hstep ih =>
    rw [List.forall_mem_append, List.forall_mem_append, List.forall_mem_singleton,
      List.forall_mem_singleton, ih]
    refine and_congr_right fun hpast => ?_
    obtain hregular | hdrained := regular_or_drained h
    · obtain ⟨h', hkeep⟩ | ⟨h', hdrain⟩ := step_of_regular hregular hstep
      · exact iff_of_true (sound_of_regular h') hkeep
      · exact iff_of_false (not_sound_of_drained h') (not_not_intro hdrain)
    · exact absurd (ih.mpr hpast).2 (not_sound_of_drained hdrained)

/-- Two blocks are written and all but the last bytes are recycled. -/
theorem sound_iff_recycle : ∃ past b, CommandRun past b ∧
    actions past = [.write (zeros 5000), .toggleBlockRecycle true, .read 5000] ∧
    (((∀ x ∈ past, Sound x.1) ∧ Sound b) ↔ ∀ x ∈ past, ¬ DrainedBy x.1 x.2) := by
  obtain ⟨b₁, hwrite, hregular, -⟩ := holds_new.regular.write (zeros 5000)
  obtain ⟨b₂, hread, -⟩ := (Shape.mk hregular.uniform hregular.readBlock_le hregular.readOffset_lt :
    Shape (b₁.toggleBlockRecycle true)).read (show 5000 ≤ maxSize by decide)
  have hrun : CommandRun [] .new := .start rfl
  have hrun₁ := hrun.next (.write hwrite)
  have hrun₂ := hrun₁.next (.toggleBlockRecycle true)
  have hrun₃ := hrun₂.next (.read hread)
  exact ⟨_, b₂, hrun₃, rfl, sound_iff hrun₃⟩

/-- One block is recycled as a whole. -/
theorem not_sound : ¬ ∀ past b, CommandRun past b → (∀ x ∈ past, Sound x.1) ∧ Sound b := by
  intro h
  let b₁ := InternalByteBuffer.new.toggleBlockRecycle true
  have hregular : Regular b₁ := ⟨⟨holds_new.regular.uniform, Nat.zero_le _, blockSize_pos⟩, rfl,
    blockSize_pos⟩
  obtain ⟨b₂, hread, -⟩ := hregular.toShape.read (show 4096 ≤ maxSize by decide)
  have hrun : CommandRun [] .new := .start rfl
  have hrun₁ := hrun.next (.toggleBlockRecycle true)
  have hrun₂ := hrun₁.next (.read hread)
  have hnil := (hregular.blocks_eq_nil_iff hread).mpr (by decide)
  have hlt := (h _ _ hrun₂).2.writeBlock_lt
  simp [hnil] at hlt

end Table

end Zinc.Buffer
