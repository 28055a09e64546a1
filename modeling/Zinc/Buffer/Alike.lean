import Zinc.Network.Equality

/-! `InternalByteBuffer::operator==` compares the cursors, the written bytes and the flag for
recycling, but not the blocks. In a regular table of a run the memory is the written bytes and
zeros behind them, so these four determine it, and the state behind a write does not depend on
the pieces in which the bytes came. A table without blocks shows no bytes, as an empty one. -/

namespace Zinc.Buffer

open Blocks Throw

namespace InternalByteBuffer

/-- The members that `operator==` compares. -/
structure Same (b b' : InternalByteBuffer) : Prop where
  reader : b.getReader = b'.getReader
  writer : b.getWriter = b'.getWriter
  bytes : b.getBytes = b'.getBytes
  recycle : b.enableBlockRecycle = b'.enableBlockRecycle

theorem equal_iff (b b' : InternalByteBuffer) : equal b b' = true ↔ Same b b' := by
  simp only [equal, Bool.and_eq_true, decide_eq_true_eq]
  constructor
  · rintro ⟨⟨⟨hreader, hwriter⟩, hbytes⟩, hrecycle⟩
    exact ⟨hreader, hwriter, hbytes, hrecycle⟩
  · rintro ⟨hreader, hwriter, hbytes, hrecycle⟩
    exact ⟨⟨⟨hreader, hwriter⟩, hbytes⟩, hrecycle⟩

/-! ### Memory -/

/-- The memory is `bs`, up to the writer, and zeros. -/
structure Stores (b : InternalByteBuffer) (bs : Bytes) : Prop extends Regular b where
  flatten_eq : b.blocks.flatten = bs ++ zeros (blockSize - b.writeOffset)

variable {b b' : InternalByteBuffer} {bs xs block : Bytes} {n : ℕ} {out : Bytes}

theorem Stores.position (h : Stores b bs) : b.writeBlock * blockSize + b.writeOffset = bs.length := by
  have hlen := congrArg List.length h.flatten_eq
  have hoff := h.writeOffset_lt
  rw [h.uniform.length_flatten, List.length_append, length_zeros, ← h.writer, Nat.succ_mul] at hlen
  omega

theorem Stores.getBytes (h : Stores b bs) : b.getBytes = bs := by
  rw [h.getBytes_eq, h.flatten_eq, h.position, List.take_left]

theorem Stores.blocks_ne_nil (h : Stores b bs) : b.blocks ≠ [] := by
  intro hnil
  have hwriter := h.writer
  rw [hnil] at hwriter
  cases hwriter

theorem flatten_zeros : [zeros blockSize].flatten = [] ++ zeros (blockSize - 0) := by
  rw [List.flatten_singleton, List.nil_append, Nat.sub_zero]

theorem stores_new : Stores new [] where
  toRegular := holds_new.regular
  flatten_eq := flatten_zeros

theorem stores_clear (b : InternalByteBuffer) : Stores b.clear [] where
  toRegular := (holds_clear b).regular
  flatten_eq := flatten_zeros

theorem Stores.toggleBlockRecycle (h : Stores b bs) (state : Bool) :
    Stores (b.toggleBlockRecycle state) bs :=
  ⟨⟨⟨h.uniform, h.readBlock_le, h.readOffset_lt⟩, h.writer, h.writeOffset_lt⟩, h.flatten_eq⟩

/-- One iteration of `write`. -/
theorem Stores.writeStep (h : Stores b bs) (hblock : b.blocks[b.writeBlock]? = some block)
    (hxs : b.writeOffset + xs.length ≤ blockSize) :
    Stores (nextWriteBlock
      { b with blocks := b.blocks.set b.writeBlock (overwrite block b.writeOffset xs)
               writeOffset := b.writeOffset + xs.length }) (bs ++ xs) := by
  refine ⟨h.toRegular.writeStep hblock hxs, ?_⟩
  have hflat : (b.blocks.set b.writeBlock (overwrite block b.writeOffset xs)).flatten =
      bs ++ xs ++ zeros (blockSize - (b.writeOffset + xs.length)) := by
    rw [h.uniform.flatten_set hblock hxs, h.position, h.flatten_eq, overwrite_append, zeros,
      List.drop_replicate, Nat.sub_sub, zeros]
  unfold nextWriteBlock
  split
  next hfull =>
    simp only at hfull
    rw [hfull, Nat.sub_self] at hflat
    simp only [List.flatten_append, hflat, List.flatten_singleton, List.append_assoc, Nat.sub_zero]
    rfl
  next => exact hflat

theorem Stores.write (h : Stores b bs) (data : Bytes) :
    ∃ b', b.write data = .ok b' ∧ Stores b' (bs ++ data) ∧ SameReader b b' :=
  exists_writeLoop (fun _ _ h => h.toRegular) (fun _ _ _ _ h hblock hxs => h.writeStep hblock hxs) h
    data (Nat.lt_succ_self _)

/-- A read that leaves a block drops a part of what is stored. -/
theorem Stores.read (h : Stores b bs) (hread : b.read n = .ok (out, b')) (hregular : Regular b') :
    ∃ bs', Stores b' bs' := by
  have hadv := h.toShape.advances hread
  obtain ⟨k, hblocks, hwrite⟩ := hadv.dropped
  have hwriter := h.writer
  have hwriter' := hregular.writer
  have hk : k ≤ b.writeBlock := by
    rw [hblocks, List.length_drop] at hwriter'
    omega
  have hmul := Nat.mul_le_mul_right blockSize hk
  have hpos := h.position
  refine ⟨bs.drop (k * blockSize), hregular, ?_⟩
  rw [hblocks, ← h.uniform.drop_flatten, h.flatten_eq, hadv.writeOffset_eq,
    List.drop_append_of_le_length (by omega)]

/-! ### What is compared -/

/-- Uniform blocks are known from their concatenation. -/
theorem eq_of_flatten {cs cs' : List Bytes} (h : Uniform blockSize cs) (h' : Uniform blockSize cs')
    (heq : cs.flatten = cs'.flatten) : cs = cs' := by
  have hlen : cs.length = cs'.length := by
    have := congrArg List.length heq
    rw [h.length_flatten, h'.length_flatten] at this
    exact Nat.eq_of_mul_eq_mul_right blockSize_pos this
  induction cs generalizing cs' with
  | nil => exact (List.length_eq_zero_iff.mp hlen.symm).symm
  | cons c cs ih =>
    cases cs' with
    | nil => cases hlen
    | cons c' cs' =>
      rw [List.flatten_cons, List.flatten_cons] at heq
      obtain ⟨rfl, hrest⟩ := List.append_inj heq
        ((h c List.mem_cons_self).trans (h' c' List.mem_cons_self).symm)
      rw [ih h.tail h'.tail hrest (Nat.succ_inj.mp hlen)]

/-- Equal members are equal tables. -/
theorem Same.eq_of_stores {bs' : Bytes} (hsame : Same b b') (h : Stores b bs) (h' : Stores b' bs') :
    b = b' := by
  obtain ⟨hreader, hwriter, hbytes, hrecycle⟩ := hsame
  rw [h.getBytes, h'.getBytes] at hbytes
  obtain ⟨hreadBlock, hreadOffset⟩ := Prod.mk.inj hreader
  obtain ⟨hwriteBlock, hwriteOffset⟩ := Prod.mk.inj hwriter
  have hblocks : b.blocks = b'.blocks := by
    apply eq_of_flatten h.uniform h'.uniform
    rw [h.flatten_eq, h'.flatten_eq, hbytes, hwriteOffset]
  cases b
  cases b'
  simp only at hblocks hreadBlock hreadOffset hwriteBlock hwriteOffset hrecycle
  rw [hblocks, hreadBlock, hreadOffset, hwriteBlock, hwriteOffset, hrecycle]

theorem Same.eq_of_drained (hsame : Same b b') (h : Drained b) (h' : Drained b') : b = b' := by
  obtain ⟨hreadBlock, hreadOffset⟩ := Prod.mk.inj hsame.reader
  obtain ⟨hwriteBlock, hwriteOffset⟩ := Prod.mk.inj hsame.writer
  have hblocks : b.blocks = b'.blocks := h.blocks_eq.trans h'.blocks_eq.symm
  have hrecycle := hsame.recycle
  cases b
  cases b'
  simp only at hblocks hreadBlock hreadOffset hwriteBlock hwriteOffset hrecycle
  rw [hblocks, hreadBlock, hreadOffset, hwriteBlock, hwriteOffset, hrecycle]

/-- The stored bytes, the reader and the flag are enough. -/
theorem Stores.ext (h : Stores b bs) (h' : Stores b' bs) (hreader : SameReader b b') : b' = b := by
  have hwriter : b.getWriter = b'.getWriter := Network.ZincPacket.position_inj h.writeOffset_lt
    h'.writeOffset_lt (h.position.trans h'.position.symm)
  have hsame : Same b b' := {
    reader := Prod.ext hreader.readBlock_eq.symm hreader.readOffset_eq.symm
    writer := hwriter
    bytes := h.getBytes.trans h'.getBytes.symm
    recycle := hreader.recycle_eq.symm }
  exact (hsame.eq_of_stores h h').symm

end InternalByteBuffer

namespace Table

open InternalByteBuffer Queue History

variable {past past' : Past InternalByteBuffer Command} {b b' : InternalByteBuffer}

/-- The tables of runs. -/
theorem stores_or_drained (h : CommandRun past b) : (∃ bs, Stores b bs) ∨ Drained b := by
  induction h with
  | start h =>
    cases h
    exact .inl ⟨[], stores_new⟩
  | @next past b b' c hrun hstep ih =>
    obtain ⟨out, hok⟩ | ⟨-, rfl⟩ := hstep
    · obtain hregular | hdrained := regular_or_drained (hrun.next (.inl ⟨out, hok⟩))
      · obtain ⟨bs, hstores⟩ | hdrained := ih
        · cases c with
          | write bytes =>
            obtain ⟨b'', hwrite, hstores', -⟩ := hstores.write bytes
            rw [Queue.step, hwrite] at hok
            cases hok
            exact .inl ⟨_, hstores'⟩
          | read n => exact .inl (hstores.read hok hregular)
          | toggleBlockRecycle state =>
            cases hok
            exact .inl ⟨bs, hstores.toggleBlockRecycle state⟩
          | clear =>
            cases hok
            exact .inl ⟨[], stores_clear b⟩
        · cases c with
          | clear =>
            cases hok
            exact .inl ⟨[], stores_clear b⟩
          | write bytes =>
            obtain ⟨b'', hwrite, hrest⟩ := bind_eq_ok.mp hok
            cases hrest
            exact .inr (hdrained.eq_of_write hwrite ▸ hdrained)
          | read n => exact .inr (hdrained.advance (hdrained.toShape.advances hok) (read_frame hok))
          | toggleBlockRecycle state =>
            cases hok
            exact .inr ⟨⟨hdrained.uniform, hdrained.readBlock_le, hdrained.readOffset_lt⟩,
              hdrained.blocks_eq, hdrained.writeBlock_eq, hdrained.readOffset_eq⟩
      · exact .inr hdrained
    · exact ih

/-- A write into a table without blocks has no defined result. -/
theorem run_write_of_drained (h : Drained b) (c : UInt8) :
    Fifo.run Queue.step b [.write [c]] = .error .undefined := by
  simp [Fifo.run, Queue.step, InternalByteBuffer.write, InternalByteBuffer.writeLoop, h.blocks_eq,
    Throw.error_bind]

theorem run_write_of_stores {bs : Bytes} (h : Stores b bs) (c : UInt8) :
    ∃ b', Fifo.run Queue.step b [.write [c]] = .ok ([[]], b') := by
  obtain ⟨b', hwrite, -⟩ := h.write [c]
  exact ⟨b', by simp [Fifo.run, Queue.step, hwrite, Throw.ok_bind]⟩

/-- Every sequence of commands gets the same answers and ends in the same way. -/
def Alike (b b' : InternalByteBuffer) : Prop :=
  ∀ cs, (Fifo.run Queue.step b cs).map Prod.fst = (Fifo.run Queue.step b' cs).map Prod.fst

/-- Equal buffers of any two runs behave alike exactly if both or none of them lost all blocks. -/
theorem alike_iff_of_equal (h : CommandRun past b) (h' : CommandRun past' b')
    (hequal : equal b b' = true) : Alike b b' ↔ (b.blocks = [] ↔ b'.blocks = []) := by
  have hsame := (equal_iff b b').mp hequal
  obtain ⟨bs, hb⟩ | hb := stores_or_drained h <;> obtain ⟨bs', hb'⟩ | hb' := stores_or_drained h'
  · obtain rfl := hsame.eq_of_stores hb hb'
    exact ⟨fun _ => Iff.rfl, fun _ _ => rfl⟩
  · constructor
    · intro halike
      obtain ⟨b₁, hrun⟩ := run_write_of_stores hb 0
      have hwrite := halike [.write [0]]
      rw [hrun, run_write_of_drained hb' 0] at hwrite
      cases hwrite
    · exact fun hiff => absurd (hiff.mpr hb'.blocks_eq) hb.blocks_ne_nil
  · constructor
    · intro halike
      obtain ⟨b₁, hrun⟩ := run_write_of_stores hb' 0
      have hwrite := halike [.write [0]]
      rw [hrun, run_write_of_drained hb 0] at hwrite
      cases hwrite
    · exact fun hiff => absurd (hiff.mp hb.blocks_eq) hb'.blocks_ne_nil
  · obtain rfl := hsame.eq_of_drained hb hb'
    exact ⟨fun _ => Iff.rfl, fun _ _ => rfl⟩

/-- Two runs that write the same bytes in other pieces. -/
theorem alike_iff_of_equal_pieces : ∃ past past' b b', CommandRun past b ∧ CommandRun past' b' ∧
    past.length ≠ past'.length ∧ (Alike b b' ↔ (b.blocks = [] ↔ b'.blocks = [])) := by
  obtain ⟨b₁, h₁, hs₁, hr₁⟩ := stores_new.write [1, 2]
  obtain ⟨b₂, h₂, hs₂, hr₂⟩ := stores_new.write [1]
  obtain ⟨b₃, h₃, hs₃, hr₃⟩ := hs₂.write [2]
  have hequal : equal b₁ b₃ = true := by
    rw [hs₁.ext hs₃ ⟨by rw [hr₃.readBlock_eq, hr₂.readBlock_eq, hr₁.readBlock_eq],
      by rw [hr₃.readOffset_eq, hr₂.readOffset_eq, hr₁.readOffset_eq],
      by rw [hr₃.recycle_eq, hr₂.recycle_eq, hr₁.recycle_eq]⟩]
    exact (equal_iff b₁ b₁).mpr ⟨rfl, rfl, rfl, rfl⟩
  have hnew : CommandRun [] .new := .start rfl
  have hrun₁ := hnew.next (CommandStep.write h₁)
  have hrun₃ := (hnew.next (CommandStep.write h₂)).next (CommandStep.write h₃)
  exact ⟨_, _, b₁, b₃, hrun₁, hrun₃, by simp, alike_iff_of_equal hrun₁ hrun₃ hequal⟩

/-! ### Pieces -/

theorem foldlM_write_of_drained (h : Drained b) (chunks : List Bytes) :
    chunks.foldlM (fun b chunk => b.write chunk) b = b.write chunks.flatten := by
  induction chunks with
  | nil => rfl
  | cons chunk chunks ih =>
    rw [List.foldlM_cons, List.flatten_cons]
    cases chunk with
    | nil => exact ih
    | cons c chunk =>
      have hfault : ∀ bytes : Bytes, b.write (c :: bytes) = .error .undefined := by
        intro bytes
        simp [InternalByteBuffer.write, InternalByteBuffer.writeLoop, h.blocks_eq]
      rw [hfault, List.cons_append, hfault]
      rfl

theorem foldlM_write_of_stores {bs : Bytes} (h : Stores b bs) (chunks : List Bytes) :
    ∃ b', chunks.foldlM (fun b chunk => b.write chunk) b = .ok b' ∧
      Stores b' (bs ++ chunks.flatten) ∧ SameReader b b' := by
  induction chunks generalizing b bs with
  | nil => exact ⟨b, rfl, by rwa [List.flatten_nil, List.append_nil], ⟨rfl, rfl, rfl⟩⟩
  | cons chunk chunks ih =>
    obtain ⟨b₁, hwrite, hstores, hreader⟩ := h.write chunk
    obtain ⟨b', hrest, hstores', hreader'⟩ := ih hstores
    refine ⟨b', ?_, ?_, hreader.trans hreader'⟩
    · rw [List.foldlM_cons, hwrite, ok_bind, hrest]
    · rwa [List.flatten_cons, ← List.append_assoc]

/-- Bytes that are written in pieces leave the buffer that one write of them leaves. -/
theorem write_pieces (h : CommandRun past b) (chunks : List Bytes) :
    chunks.foldlM (fun b chunk => b.write chunk) b = b.write chunks.flatten := by
  obtain ⟨bs, hstores⟩ | hdrained := stores_or_drained h
  · obtain ⟨b₁, hpieces, hstores₁, hreader₁⟩ := foldlM_write_of_stores hstores chunks
    obtain ⟨b₂, hwrite, hstores₂, hreader₂⟩ := hstores.write chunks.flatten
    rw [hpieces, hwrite, hstores₂.ext hstores₁
      ⟨hreader₁.readBlock_eq.trans hreader₂.readBlock_eq.symm,
        hreader₁.readOffset_eq.trans hreader₂.readOffset_eq.symm,
        hreader₁.recycle_eq.trans hreader₂.recycle_eq.symm⟩]
  · exact foldlM_write_of_drained hdrained chunks

/-- A fresh buffer. -/
theorem write_pieces_new : [[1], [], [2, 3]].foldlM (fun b chunk => b.write chunk) .new =
    InternalByteBuffer.new.write [1, 2, 3] :=
  write_pieces (Run.start rfl) [[1], [], [2, 3]]

end Table

end Zinc.Buffer
