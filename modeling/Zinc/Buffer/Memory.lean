import Zinc.Buffer.Internal

/-! The memory of an internal buffer as one flat sequence. A well-shaped buffer
has blocks of the block size and a reader inside them or at their end; `ahead`
is the allocated memory from the reader on, written or not. A read returns a
prefix of it and advances. In a regular table the writer stands in the last block.
`Holds` adds that behind it the memory is zero, and that the bytes between the two
cursors are the unread ones. Writing appends to them, and reading at most their number drops
them from the front, with or without recycling. -/

namespace Zinc.Buffer.InternalByteBuffer

open Blocks

/-! ### Shape -/

structure Shape (b : InternalByteBuffer) : Prop where
  uniform : Uniform blockSize b.blocks
  readBlock_le : b.readBlock ≤ b.blocks.length
  readOffset_lt : b.readOffset < blockSize

/-- The allocated memory from the reader on. -/
def ahead (b : InternalByteBuffer) : Bytes :=
  b.blocks.flatten.drop (b.readBlock * blockSize + b.readOffset)

theorem Shape.length_ahead {b : InternalByteBuffer} (hb : Shape b) :
    (ahead b).length + (b.readBlock * blockSize + b.readOffset) =
      max (b.blocks.length * blockSize) (b.readBlock * blockSize + b.readOffset) := by
  rw [ahead, List.length_drop, hb.uniform.length_flatten]
  omega

theorem Shape.ahead_of_getElem? {b : InternalByteBuffer} (hb : Shape b) {block : Bytes}
    (hblock : b.blocks[b.readBlock]? = some block) :
    ahead b = block.drop b.readOffset ++ b.blocks.flatten.drop ((b.readBlock + 1) * blockSize) :=
  hb.uniform.drop_flatten_add hblock hb.readOffset_lt.le

theorem Shape.ahead_of_end {b : InternalByteBuffer} (hb : Shape b)
    (hend : b.blocks[b.readBlock]? = none) : ahead b = [] := by
  have hle : b.blocks.length ≤ b.readBlock := by simpa using hend
  have hmul := Nat.mul_le_mul_right blockSize hle
  rw [ahead, List.drop_eq_nil_iff, hb.uniform.length_flatten]
  omega

/-! ### Reading -/

/-- `b'` is `b` after its reader passed `n` bytes; recycling dropped front blocks. -/
structure Advances (b b' : InternalByteBuffer) (n : ℕ) : Prop where
  shape : Shape b'
  ahead_eq : ahead b' = (ahead b).drop n
  dropped : ∃ k, b'.blocks = b.blocks.drop k ∧ b'.writeBlock = b.writeBlock - k
  writeOffset_eq : b'.writeOffset = b.writeOffset
  recycle_eq : b'.enableBlockRecycle = b.enableBlockRecycle
  writeBlock_eq : b.enableBlockRecycle = false → b'.writeBlock = b.writeBlock

theorem Advances.zero {b : InternalByteBuffer} (hb : Shape b) : Advances b b 0 :=
  ⟨hb, rfl, ⟨0, rfl, rfl⟩, rfl, rfl, fun _ => rfl⟩

theorem Advances.trans {b b' b'' : InternalByteBuffer} {m n : ℕ} (h : Advances b b' m)
    (h' : Advances b' b'' n) : Advances b b'' (m + n) := by
  obtain ⟨k, hk, hw⟩ := h.dropped
  obtain ⟨k', hk', hw'⟩ := h'.dropped
  refine ⟨h'.shape, ?_, ⟨k + k', ?_, ?_⟩, ?_, ?_, fun hoff => ?_⟩
  · rw [h'.ahead_eq, h.ahead_eq, List.drop_drop]
  · rw [hk', hk, List.drop_drop]
  · rw [hw', hw, Nat.sub_sub]
  · rw [h'.writeOffset_eq, h.writeOffset_eq]
  · rw [h'.recycle_eq, h.recycle_eq]
  · rw [h'.writeBlock_eq (h.recycle_eq.trans hoff), h.writeBlock_eq hoff]

theorem blockSize_pos : 0 < blockSize := by decide

/-- One iteration of `read`. -/
theorem Shape.advance {b : InternalByteBuffer} (hb : Shape b) {block : Bytes}
    (hblock : b.blocks[b.readBlock]? = some block) {n : ℕ} (hn : b.readOffset + n ≤ blockSize) :
    Advances b (nextReadBlock { b with readOffset := b.readOffset + n }) n := by
  have hlt : b.readBlock < b.blocks.length := (List.getElem?_eq_some_iff.mp hblock).1
  unfold nextReadBlock
  split
  next h =>
    have hnext : b.readBlock * blockSize + b.readOffset + n = (b.readBlock + 1) * blockSize := by
      simp only at h
      rw [Nat.add_assoc, h, Nat.succ_mul]
    split
    · -- the dropped block lies in front of the reader, also when it was finished long ago
      refine ⟨⟨fun c hc => hb.uniform c (List.mem_of_mem_tail hc), ?_, blockSize_pos⟩, ?_,
        ⟨1, ?_, rfl⟩, rfl, rfl, fun hoff => ?_⟩
      · simp only [List.length_tail]
        omega
      · have htail := hb.uniform.drop_flatten 1
        rw [List.drop_one] at htail
        simp only [ahead, ← htail, List.drop_drop, hnext, Nat.add_zero, ← Nat.add_mul]
        rw [Nat.add_comm]
      · simp
      · exact absurd hoff (by simpa using ‹_›)
    · refine ⟨⟨hb.uniform, hlt, blockSize_pos⟩, ?_, ⟨0, rfl, rfl⟩, rfl, rfl, fun _ => rfl⟩
      simp only [ahead, List.drop_drop, hnext, Nat.add_zero]
  next h =>
    have hoff : b.readOffset + n < blockSize := lt_of_le_of_ne hn h
    refine ⟨⟨hb.uniform, hb.readBlock_le, hoff⟩, ?_, ⟨0, rfl, rfl⟩, rfl, rfl, fun _ => rfl⟩
    simp only [ahead, List.drop_drop, Nat.add_assoc]

/-- An iteration that finishes its block leaves one block less in front of the reader. -/
theorem blocks_left_nextReadBlock {b : InternalByteBuffer} (hlt : b.readBlock < b.blocks.length)
    (hfull : b.readOffset = blockSize) :
    (nextReadBlock b).blocks.length - (nextReadBlock b).readBlock + 1 =
      b.blocks.length - b.readBlock := by
  unfold nextReadBlock
  rw [if_pos hfull]
  split <;> simp <;> omega

theorem Shape.readLoop {b : InternalByteBuffer} (hb : Shape b) {fuel : ℕ} (r : ℕ) (result : Bytes)
    (hfuel : b.blocks.length - b.readBlock < fuel) :
    ∃ b', readLoop fuel r result b = .ok (result ++ (ahead b).take r, b') ∧ Advances b b' r := by
  induction fuel generalizing b r result with
  | zero => omega
  | succ fuel ih =>
    cases r with
    | zero => exact ⟨b, by simp [InternalByteBuffer.readLoop], Advances.zero hb⟩
    | succ r =>
      cases hblock : b.blocks[b.readBlock]? with
      | none =>
        have hnil := hb.ahead_of_end hblock
        refine ⟨b, by simp [InternalByteBuffer.readLoop, hblock, hnil], ?_⟩
        refine ⟨hb, ?_, ⟨0, rfl, rfl⟩, rfl, rfl, fun _ => rfl⟩
        rw [hnil, List.drop_nil]
      | some block =>
        have hlt : b.readBlock < b.blocks.length := (List.getElem?_eq_some_iff.mp hblock).1
        have hlen : block.length = blockSize := hb.uniform _ (List.mem_of_getElem? hblock)
        have hoff := hb.readOffset_lt
        obtain ⟨n, hn⟩ : ∃ n, n = min (r + 1) (blockSize - b.readOffset) := ⟨_, rfl⟩
        have hadv := hb.advance hblock (n := n) (by omega)
        have hcopy : (block.drop b.readOffset).take n = (ahead b).take n := by
          rw [hb.ahead_of_getElem? hblock,
            List.take_append_of_le_length (by rw [List.length_drop]; omega)]
        have hsplit : (ahead b).take n ++ ((ahead b).drop n).take (r + 1 - n) =
            (ahead b).take (r + 1) := by
          rw [← List.take_add, show n + (r + 1 - n) = r + 1 by omega]
        have hrest : ∃ b', InternalByteBuffer.readLoop fuel (r + 1 - n) (result ++ (ahead b).take n)
              (nextReadBlock { b with readOffset := b.readOffset + n }) =
              .ok (result ++ (ahead b).take (r + 1), b') ∧
            Advances (nextReadBlock { b with readOffset := b.readOffset + n }) b' (r + 1 - n) := by
          by_cases hfull : b.readOffset + n = blockSize
          · have hleft := blocks_left_nextReadBlock (b := { b with readOffset := b.readOffset + n })
              hlt hfull
            simp only at hleft
            obtain ⟨b', h, h'⟩ := ih hadv.shape (r + 1 - n) (result ++ (ahead b).take n) (by omega)
            rw [hadv.ahead_eq, List.append_assoc, hsplit] at h
            exact ⟨b', h, h'⟩
          · have hdone : n = r + 1 := by omega
            refine ⟨_, ?_, by rw [hdone, Nat.sub_self]; exact Advances.zero (hdone ▸ hadv.shape)⟩
            rw [hdone, Nat.sub_self]
            cases fuel <;> rfl
        obtain ⟨b', h, h'⟩ := hrest
        refine ⟨b', ?_, ?_⟩
        · simp only [InternalByteBuffer.readLoop, hblock, ← hn, hcopy]
          exact h
        · have := hadv.trans h'
          rwa [show n + (r + 1 - n) = r + 1 by omega] at this

/-- `read` returns the next `n` bytes of memory, or all that is left of it. -/
theorem Shape.read {b : InternalByteBuffer} (hb : Shape b) {n : ℕ} (hn : n ≤ maxSize) :
    ∃ b', b.read n = .ok ((ahead b).take n, b') ∧ Advances b b' n := by
  obtain ⟨b', h, h'⟩ := hb.readLoop n [] (Nat.lt_succ_of_le (Nat.sub_le b.blocks.length b.readBlock))
  refine ⟨b', ?_, h'⟩
  rw [InternalByteBuffer.read, if_neg (by omega), h, List.nil_append]

/-! ### Regular tables -/

/-- The writer stands in the last block. -/
structure Regular (b : InternalByteBuffer) : Prop extends Shape b where
  writer : b.writeBlock + 1 = b.blocks.length
  writeOffset_lt : b.writeOffset < blockSize

/-- The written bytes are the memory up to the writer. -/
theorem Regular.getBytes_eq {b : InternalByteBuffer} (h : Regular b) :
    b.getBytes = b.blocks.flatten.take (b.writeBlock * blockSize + b.writeOffset) := by
  have hw := h.writer
  have hlt : b.writeBlock < b.blocks.length := by omega
  have hall : b.blocks = b.blocks.take b.writeBlock ++ [b.blocks[b.writeBlock]] := by
    rw [← List.take_succ_eq_append_getElem hlt, hw, List.take_length]
  have hsplit : b.blocks.flatten = (b.blocks.take b.writeBlock).flatten ++ b.blocks[b.writeBlock] := by
    conv_lhs => rw [hall, List.flatten_append, List.flatten_singleton]
  have huni : Uniform blockSize (b.blocks.take b.writeBlock) :=
    fun c hc => h.uniform c (List.mem_of_mem_take hc)
  have hfront := huni.length_flatten
  rw [List.length_take, Nat.min_eq_left hlt.le] at hfront
  rw [InternalByteBuffer.getBytes, List.getElem?_eq_getElem hlt, hsplit, ← hfront,
    List.take_length_add_append]
  rfl

theorem Regular.length_getBytes {b : InternalByteBuffer} (h : Regular b) :
    b.getBytes.length = b.writeBlock * blockSize + b.writeOffset := by
  have hoff := h.writeOffset_lt
  rw [h.getBytes_eq, List.length_take, h.uniform.length_flatten, ← h.writer, Nat.succ_mul]
  omega

/-! ### Unread bytes -/

/-- `bs` are the written and unread bytes of `b`. -/
structure Holds (b : InternalByteBuffer) (bs : Bytes) : Prop where
  shape : Shape b
  writer : b.writeBlock + 1 = b.blocks.length
  writeOffset_lt : b.writeOffset < blockSize
  ahead_eq : ahead b = bs ++ zeros (blockSize - b.writeOffset)

theorem Holds.regular {b : InternalByteBuffer} {bs : Bytes} (h : Holds b bs) : Regular b :=
  ⟨h.shape, h.writer, h.writeOffset_lt⟩

theorem holds_fresh (b : InternalByteBuffer) (hblocks : b.blocks = [zeros blockSize])
    (hw : b.writeBlock = 0) (hwo : b.writeOffset = 0) (hr : b.readBlock = 0)
    (hro : b.readOffset = 0) : Holds b [] := by
  refine ⟨⟨?_, by omega, by rw [hro]; exact blockSize_pos⟩, by simp [hblocks, hw],
    by rw [hwo]; exact blockSize_pos, ?_⟩
  · intro c hc
    obtain rfl : c = zeros blockSize := by simpa [hblocks] using hc
    exact length_zeros blockSize
  · simp [ahead, hblocks, hr, hro, hwo]

theorem holds_new : Holds new [] := holds_fresh new rfl rfl rfl rfl rfl

theorem holds_clear (b : InternalByteBuffer) : Holds b.clear [] :=
  holds_fresh b.clear rfl rfl rfl rfl rfl

theorem Holds.toggleBlockRecycle {b : InternalByteBuffer} {bs : Bytes} (h : Holds b bs)
    (state : Bool) : Holds (b.toggleBlockRecycle state) bs :=
  ⟨⟨h.shape.uniform, h.shape.readBlock_le, h.shape.readOffset_lt⟩, h.writer, h.writeOffset_lt,
    h.ahead_eq⟩

/-- The distance of the cursors is the number of unread bytes. -/
theorem Holds.position {b : InternalByteBuffer} {bs : Bytes} (h : Holds b bs) :
    b.writeBlock * blockSize + b.writeOffset =
      b.readBlock * blockSize + b.readOffset + bs.length := by
  have hlen := h.shape.length_ahead
  have hoff := h.writeOffset_lt
  rw [h.ahead_eq, List.length_append, length_zeros, ← h.writer, Nat.succ_mul] at hlen
  omega

/-- The memory is what the reader passed, the unread bytes, and zeros. -/
theorem Holds.flatten_eq {b : InternalByteBuffer} {bs : Bytes} (h : Holds b bs) :
    ∃ pre : Bytes, pre.length = b.readBlock * blockSize + b.readOffset ∧
      b.blocks.flatten = pre ++ bs ++ zeros (blockSize - b.writeOffset) := by
  refine ⟨b.blocks.flatten.take (b.readBlock * blockSize + b.readOffset), ?_, ?_⟩
  · have hpos := h.position
    have hoff := h.writeOffset_lt
    rw [List.length_take, h.shape.uniform.length_flatten, ← h.writer, Nat.succ_mul]
    omega
  · rw [List.append_assoc, ← h.ahead_eq, ahead, List.take_append_drop]

/-- Reading at most the unread bytes drops them from the front. -/
theorem Holds.advance {b b' : InternalByteBuffer} {bs : Bytes} (h : Holds b bs) {n : ℕ}
    (hn : n ≤ bs.length) (hadv : Advances b b' n) : Holds b' (bs.drop n) := by
  obtain ⟨k, hblocks, hwrite⟩ := hadv.dropped
  have hahead : ahead b' = bs.drop n ++ zeros (blockSize - b'.writeOffset) := by
    rw [hadv.ahead_eq, h.ahead_eq, List.drop_append_of_le_length hn, hadv.writeOffset_eq]
  have hwo : b'.writeOffset < blockSize := by rw [hadv.writeOffset_eq]; exact h.writeOffset_lt
  refine ⟨hadv.shape, ?_, hwo, hahead⟩
  -- the writer's block is still there, since memory is left behind the reader
  have hk : k < b.blocks.length := by
    by_contra hge
    have hnil : b'.blocks = [] := by rw [hblocks, List.drop_eq_nil_iff]; omega
    have hlen := congrArg List.length hahead
    simp [ahead, hnil] at hlen
    omega
  have := h.writer
  rw [hblocks, List.length_drop]
  omega

theorem Holds.read {b : InternalByteBuffer} {bs : Bytes} (h : Holds b bs) {n : ℕ}
    (hn : n ≤ bs.length) (hmax : n ≤ maxSize) :
    ∃ b', b.read n = .ok (bs.take n, b') ∧ Holds b' (bs.drop n) := by
  obtain ⟨b', hread, hadv⟩ := h.shape.read hmax
  refine ⟨b', ?_, h.advance hn hadv⟩
  rw [hread, h.ahead_eq, List.take_append_of_le_length hn]

/-- A read beyond the unread bytes returns memory that was never written. -/
theorem Holds.read_overrun {b : InternalByteBuffer} {bs : Bytes} (h : Holds b bs) {n : ℕ}
    (hn : bs.length < n) (hmax : n ≤ maxSize) :
    ∃ xs b', b.read n = .ok (xs, b') ∧ bs.length < xs.length := by
  obtain ⟨b', hread, -⟩ := h.shape.read hmax
  refine ⟨_, b', hread, ?_⟩
  have hoff := h.writeOffset_lt
  simp only [h.ahead_eq, List.length_take, List.length_append, length_zeros]
  omega

/-! ### Writing -/

/-- One iteration of `write`. -/
theorem Holds.writeStep {b : InternalByteBuffer} {bs xs block : Bytes} (h : Holds b bs)
    (hblock : b.blocks[b.writeBlock]? = some block) (hxs : b.writeOffset + xs.length ≤ blockSize) :
    Holds (nextWriteBlock
      { b with blocks := b.blocks.set b.writeBlock (overwrite block b.writeOffset xs)
               writeOffset := b.writeOffset + xs.length }) (bs ++ xs) := by
  obtain ⟨pre, hpre, hflat⟩ := h.flatten_eq
  have hlen : block.length = blockSize := h.shape.uniform _ (List.mem_of_getElem? hblock)
  have huni : Uniform blockSize (b.blocks.set b.writeBlock (overwrite block b.writeOffset xs)) :=
    h.shape.uniform.set _ (by rw [length_overwrite (by omega), hlen])
  have hflat' : (b.blocks.set b.writeBlock (overwrite block b.writeOffset xs)).flatten =
      pre ++ (bs ++ xs ++ zeros (blockSize - (b.writeOffset + xs.length))) := by
    have hroom : (zeros (blockSize - b.writeOffset)).drop xs.length =
        zeros (blockSize - (b.writeOffset + xs.length)) := by
      rw [zeros, List.drop_replicate, Nat.sub_sub, zeros]
    have hpos : b.writeBlock * blockSize + b.writeOffset = (pre ++ bs).length := by
      rw [h.position, List.length_append, hpre]
    rw [h.shape.uniform.flatten_set hblock hxs, hpos, hflat, overwrite_append, hroom]
    simp only [List.append_assoc]
  unfold nextWriteBlock
  split
  next hfull =>
    refine ⟨⟨huni.concat (length_zeros _), ?_, h.shape.readOffset_lt⟩, ?_, blockSize_pos, ?_⟩
    · have := h.shape.readBlock_le
      simp only [List.length_append, List.length_set]
      omega
    · simp [h.writer]
    · simp only at hfull
      rw [hfull, Nat.sub_self, zeros, List.replicate_zero, List.append_nil] at hflat'
      simp only [ahead, List.flatten_append, hflat', ← hpre, List.append_assoc,
        List.drop_append_length, Nat.sub_zero]
      simp
  next hroom =>
    have hoff : b.writeOffset + xs.length < blockSize := lt_of_le_of_ne hxs hroom
    refine ⟨⟨huni, ?_, h.shape.readOffset_lt⟩, by simp [h.writer], hoff, ?_⟩
    · simpa using h.shape.readBlock_le
    · simp only [ahead, hflat', ← hpre, List.drop_append_length]

/-- What the writer leaves alone. -/
structure SameReader (b b' : InternalByteBuffer) : Prop where
  readBlock_eq : b'.readBlock = b.readBlock
  readOffset_eq : b'.readOffset = b.readOffset
  recycle_eq : b'.enableBlockRecycle = b.enableBlockRecycle

theorem SameReader.nextWriteBlock (b : InternalByteBuffer) : SameReader b (nextWriteBlock b) := by
  unfold InternalByteBuffer.nextWriteBlock
  split <;> exact ⟨rfl, rfl, rfl⟩

theorem SameReader.trans {b b' b'' : InternalByteBuffer} (h : SameReader b b')
    (h' : SameReader b' b'') : SameReader b b'' :=
  ⟨h'.readBlock_eq.trans h.readBlock_eq, h'.readOffset_eq.trans h.readOffset_eq,
    h'.recycle_eq.trans h.recycle_eq⟩

/-- What each step of a write keeps, with the bytes it has written, the write keeps. -/
theorem exists_writeLoop {I : InternalByteBuffer → Bytes → Prop}
    (hregular : ∀ b bs, I b bs → Regular b)
    (hstep : ∀ b bs xs block, I b bs → b.blocks[b.writeBlock]? = some block →
      b.writeOffset + xs.length ≤ blockSize → I (nextWriteBlock
        { b with blocks := b.blocks.set b.writeBlock (overwrite block b.writeOffset xs)
                 writeOffset := b.writeOffset + xs.length }) (bs ++ xs))
    {b : InternalByteBuffer} {bs : Bytes} (h : I b bs) {fuel : ℕ} (data : Bytes)
    (hfuel : data.length < fuel) :
    ∃ b', writeLoop fuel data b = .ok b' ∧ I b' (bs ++ data) ∧ SameReader b b' := by
  induction fuel generalizing b bs data with
  | zero => omega
  | succ fuel ih =>
    cases data with
    | nil => exact ⟨b, rfl, by rwa [List.append_nil], ⟨rfl, rfl, rfl⟩⟩
    | cons x xs =>
      obtain ⟨block, hblock⟩ : ∃ block, b.blocks[b.writeBlock]? = some block :=
        ⟨_, List.getElem?_eq_getElem (by have := (hregular b bs h).writer; omega)⟩
      have hoff := (hregular b bs h).writeOffset_lt
      obtain ⟨n, hn⟩ : ∃ n, n = min (x :: xs).length (blockSize - b.writeOffset) := ⟨_, rfl⟩
      have hlen : ((x :: xs).take n).length = n := by rw [List.length_take]; omega
      have hnext := hstep b bs _ block h hblock
        (show b.writeOffset + ((x :: xs).take n).length ≤ blockSize by omega)
      rw [hlen] at hnext
      obtain ⟨b', hb', hI, hsame⟩ := ih hnext ((x :: xs).drop n) (by
        rw [List.length_drop, List.length_cons] at *
        omega)
      rw [List.append_assoc, List.take_append_drop] at hI
      refine ⟨b', ?_, hI, ?_⟩
      · simp only [InternalByteBuffer.writeLoop, hblock, ← hn]
        exact hb'
      · have hreader := (SameReader.nextWriteBlock _).trans hsame
        exact ⟨hreader.readBlock_eq, hreader.readOffset_eq, hreader.recycle_eq⟩

theorem Holds.writeLoop {b : InternalByteBuffer} {bs : Bytes} (h : Holds b bs) {fuel : ℕ}
    (data : Bytes) (hfuel : data.length < fuel) :
    ∃ b', writeLoop fuel data b = .ok b' ∧ Holds b' (bs ++ data) ∧ SameReader b b' :=
  exists_writeLoop (fun _ _ h => h.regular)
    (fun _ _ _ _ h hblock hxs => h.writeStep hblock hxs) h data hfuel

/-- `write` appends to the unread bytes. -/
theorem Holds.write {b : InternalByteBuffer} {bs : Bytes} (h : Holds b bs) (data : Bytes) :
    ∃ b', b.write data = .ok b' ∧ Holds b' (bs ++ data) ∧ SameReader b b' :=
  h.writeLoop data (Nat.lt_succ_self _)

/-- The written bytes behind the reader's position are the unread ones. -/
theorem Holds.getBytes {b : InternalByteBuffer} {bs : Bytes} (h : Holds b bs) :
    b.getBytes.drop (b.readBlock * blockSize + b.readOffset) = bs := by
  obtain ⟨pre, hpre, hflat⟩ := h.flatten_eq
  rw [h.regular.getBytes_eq, hflat, h.position, ← hpre, ← List.length_append,
    List.take_append_of_le_length le_rfl, List.take_length, List.drop_left]

end Zinc.Buffer.InternalByteBuffer
