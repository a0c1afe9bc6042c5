/-
Module: Chaotix.Kernel.RingBuf
Layer: Kernel
Purpose: The ring buffer of `kernel/ring_buf.c`: a ring of bytes. Reading and writing are only called on
  a buffer that is not empty or not full, under its lock. The write that evicts is called on any buffer.
Imports: Chaotix.Lib.CellRing, Chaotix.Kernel.Base
Trusted boundary: human-reviewed model of `kernel/ring_buf.c`
Main exports: RingBuf, ringBufInit, ringBufRead, ringBufWrite, ringBufWriteEvictingOldest
-/
import Chaotix.Lib.CellRing
import Chaotix.Kernel.Base

namespace Chaotix

/-- `BUF_CAPACITY`. -/
abbrev BUF_CAPACITY : Nat := 1024

/-- `struct ring_buf`; `cells` is the memory at `inner_buf`. -/
abbrev RingBuf := CellRing UInt8 BUF_CAPACITY

/-- `ring_buf_init`, around the memory that `kmalloc` returned. -/
def ringBufInit (innerBuf : Nat → UInt8) : RingBuf :=
  { cells := innerBuf, writeIdx := 0, readIdx := 0, writeIdx_lt := by decide, readIdx_lt := by decide }

/-- `ring_buf_read`: the bytes it stores at `bytes`. -/
def ringBufRead (buf : RingBuf) (count : Nat) : List UInt8 × RingBuf := buf.popWhile count

/-- `ring_buf_write`: how many bytes it wrote. -/
def ringBufWrite (buf : RingBuf) (bytes : List UInt8) : Nat × RingBuf := buf.pushWhile bytes

/-- `ring_buf_write_evicting_oldest`: how many bytes it wrote. -/
def ringBufWriteEvictingOldest (buf : RingBuf) (bytes : List UInt8) : Nat × RingBuf := (bytes.length, buf.pushAll bytes)

theorem contents_ringBufInit (innerBuf : Nat → UInt8) : (ringBufInit innerBuf).contents = [] :=
  (CellRing.isEmpty_iff_contents _).1 rfl

theorem ringBufRead_spec {buf : RingBuf} (h : ¬buf.IsEmpty) (count : Nat) :
    buf.contents = (ringBufRead buf count).1 ++ (ringBufRead buf count).2.contents ∧
      (0 < count → (ringBufRead buf count).1 ≠ []) := by
  obtain ⟨hcontents, _, hne⟩ := buf.popWhile_spec h count
  exact ⟨hcontents, hne⟩

theorem ringBufWrite_spec {buf : RingBuf} (h : ¬buf.IsFull) (bytes : List UInt8) :
    (ringBufWrite buf bytes).2.contents = buf.contents ++ bytes.take (ringBufWrite buf bytes).1 ∧
      (ringBufWrite buf bytes).1 ≤ bytes.length := by
  obtain ⟨hcontents, hle, _⟩ := buf.pushWhile_spec h bytes
  exact ⟨hcontents, hle⟩

theorem length_contents_le (buf : RingBuf) : buf.contents.length ≤ BUF_CAPACITY - 1 := by
  rw [CellRing.length_contents]
  exact Nat.le_sub_one_of_lt buf.used_lt

end Chaotix
