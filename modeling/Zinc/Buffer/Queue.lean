import Zinc.Base.Fifo
import Zinc.Buffer.Memory

/-! The internal buffer as a queue of bytes. A command sequence from a fresh
buffer is matched by the queue as long as every read asks for at most the unread
bytes, for any mix of block recycling. A longer read is answered from memory the
writer never reached, so the buffer conforms to the queue on exactly those
sequences. -/

namespace Zinc.Buffer.Queue

open InternalByteBuffer

inductive Command where
  | write (bytes : Bytes)
  | read (length : ℕ)
  | toggleBlockRecycle (state : Bool)
  | clear

/-- A command with the bytes it returns. -/
def step (b : InternalByteBuffer) : Command → Except Fault (Bytes × InternalByteBuffer)
  | .write bytes => do
    let b ← b.write bytes
    return ([], b)
  | .read length => b.read length
  | .toggleBlockRecycle state => .ok ([], b.toggleBlockRecycle state)
  | .clear => .ok ([], b.clear)

/-- The meaning of a command on a queue. -/
def op : Command → Fifo.Op UInt8
  | .write bytes => .write bytes
  | .read length => .read length
  | .toggleBlockRecycle _ => .idle
  | .clear => .clear

/-- The answers and the final state of a sequence of commands from a fresh buffer. -/
abbrev run (cs : List Command) : Except Fault (List Bytes × InternalByteBuffer) :=
  Fifo.run step .new cs

/-- Each read asks for at most the bytes written and not yet read since the last
clear, and for at most the bytes that a vector can hold. -/
abbrev Within (cs : List Command) : Prop := Fifo.Within maxSize [] (cs.map op)

/-- The buffer holds what the queue holds. -/
theorem refines : Fifo.Refines step op Holds maxSize where
  step_fits := by
    intro b bs c h hfit
    cases c with
    | write bytes =>
      obtain ⟨b', hb', h', -⟩ := h.write bytes
      exact ⟨b', by rw [step, hb']; rfl, h'⟩
    | read length => exact h.read hfit.1 hfit.2
    | toggleBlockRecycle state => exact ⟨_, rfl, h.toggleBlockRecycle state⟩
    | clear => exact ⟨_, rfl, holds_clear b⟩

/-- The sizes reported by the buffer around the internal one. -/
theorem size_eq {b : InternalByteBuffer} {bs : Bytes} (h : Holds b bs) (isBigEndian : Bool) :
    (ByteBuffer.mk b isBigEndian).size =
      (ByteBuffer.mk b isBigEndian).getReaderPointer + bs.length :=
  h.position

/-- A read that does not fit never gives the queue's answer. -/
theorem step_not_fits {b b' : InternalByteBuffer} {bs : Bytes} {c : Command} (h : Holds b bs)
    (hfit : ¬ (op c).Fits maxSize bs) : step b c ≠ .ok ((op c).out bs, b') := by
  cases c with
  | read length =>
    intro hstep
    by_cases hmax : length ≤ maxSize
    · have hlong : bs.length < length := by
        by_contra hle
        exact hfit ⟨by omega, hmax⟩
      obtain ⟨xs, b₁, hread, hxs⟩ := h.read_overrun hlong hmax
      simp only [step, hread, op, Fifo.Op.out, Except.ok.injEq, Prod.mk.injEq] at hstep
      rw [hstep.1, List.length_take] at hxs
      omega
    · rw [step, InternalByteBuffer.read, if_pos (by omega)] at hstep
      exact absurd hstep (by simp)
  | _ => exact absurd trivial hfit

/-! ### Main results -/

/-- Every read returns the next unread bytes in write order, and the distance of
the two cursors is the number of unread bytes. -/
theorem read_in_order (cs : List Command) (h : Within cs) :
    ∃ b, run cs = .ok (Fifo.outs [] (cs.map op), b) ∧ ∀ isBigEndian,
      (ByteBuffer.mk b isBigEndian).getReaderPointer ≤ (ByteBuffer.mk b isBigEndian).size ∧
      (ByteBuffer.mk b isBigEndian).size - (ByteBuffer.mk b isBigEndian).getReaderPointer =
        (Fifo.content [] (cs.map op)).length := by
  obtain ⟨b, hrun, hb⟩ := refines.run_within cs holds_new h
  refine ⟨b, hrun, fun isBigEndian => ?_⟩
  have hsize := size_eq hb isBigEndian
  omega

/-- Recycling switched on after two finished blocks. -/
theorem read_in_order_recycle :
    let cs := [.write (zeros 8192 ++ [1]), .read 8192, .toggleBlockRecycle true, .read 1]
    ∃ b, run cs = .ok (Fifo.outs [] (cs.map op), b) ∧ ∀ isBigEndian,
      (ByteBuffer.mk b isBigEndian).getReaderPointer ≤ (ByteBuffer.mk b isBigEndian).size ∧
      (ByteBuffer.mk b isBigEndian).size - (ByteBuffer.mk b isBigEndian).getReaderPointer =
        (Fifo.content [] (cs.map op)).length :=
  read_in_order _ (by simp [Within, Fifo.Within, op, Fifo.Op.Fits, Fifo.Op.next, maxSize])

/-- The reader is not beyond the writer. -/
def ReaderBounded (b : InternalByteBuffer) : Prop :=
  b.getReader.1 * blockSize + b.getReader.2 ≤ b.getWriter.1 * blockSize + b.getWriter.2

/-- Every command of the sequence returns exactly the bytes that the queue of
written bytes returns, and leaves the reader not beyond the writer. -/
abbrev StaysBehindWriter (cs : List Command) : Prop :=
  Fifo.Conforms step op ReaderBounded .new [] cs

/-- Reads stay behind the writer on exactly the sequences that never ask for
more than the unread bytes. -/
theorem staysBehindWriter_iff (cs : List Command) : StaysBehindWriter cs ↔ Within cs := by
  refine refines.conforms_iff ?_ ?_ cs holds_new
  · intro b bs h
    have hpos := h.position
    simp only [ReaderBounded, getReader, getWriter]
    omega
  · intro b bs c b' h hfit hstep
    exact absurd hstep (step_not_fits h hfit)

/-- One byte is read from a buffer into which nothing was written. -/
theorem not_staysBehindWriter_read_empty : ¬ StaysBehindWriter [.read 1] := by
  rintro ⟨b, hread, -⟩
  have hlen : (InternalByteBuffer.new.read 1).map (fun p => p.1.length) = .ok 1 := by decide
  simp only [step] at hread
  rw [hread] at hlen
  simp [op, Fifo.Op.out, Except.map] at hlen

end Zinc.Buffer.Queue
