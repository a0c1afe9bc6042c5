/-
Module: Chaotix.Kernel.BufPrintf
Layer: Kernel
Purpose: `growable_buf_vsprintf`: `vsnprintf` stores into the spare room of the buffer, and when the text does not fit,
  the buffer grows and the whole text is stored again. What the range allocator answers in each call of `grow_buf` is
  given from outside. A bound on the rounds of the loop keeps it total.
Imports: Chaotix.Kernel.GrowableBuf, Chaotix.Kernel.Stdio
Trusted boundary: human-reviewed model of `growable_buf_vsprintf` of `kernel/growable_buf.c`
Main exports: bufStore, printAttempt, growableBufVsprintf
-/
import Chaotix.Kernel.GrowableBuf
import Chaotix.Kernel.Stdio

open Chaotix.Stdio

namespace Chaotix

/-- `dest[idx] = ch`, for a `dest` in a block. -/
def bufStore (block : Segment) (dest idx : Nat) (ch : UInt8) : Kernel BufState Unit :=
  memcpyTo block ((dest + idx) % wordSize) [ch]

/-- A round of the loop, up to the call of `grow_buf`: the length of the text, when it has been stored. -/
def printAttempt (format : List UInt8) (args : List Arg) : Kernel BufState (Option Nat) := do
  let buf := (← get).buf
  let maxLen := (buf.capacity + wordSize - buf.size) % wordSize
  if maxLen > 0 then
    let dest := (buf.addr + buf.size) % wordSize
    let len ← vsnprintf (bufStore buf.block dest) maxLen format args
    if len < maxLen then
      modify fun s => { s with buf := { s.buf with size := (s.buf.size + len) % wordSize } }
      return some len
    else
      return none
  else
    return none

/-- `growable_buf_vsprintf`, from round `k` on. -/
def growableBufVsprintf (choices : Nat → GrowChoice) (format : List UInt8) (args : List Arg) :
    Nat → Nat → Kernel BufState (Except Errno Nat)
  | 0, _ => throw .hang
  | rounds + 1, k => do
      match ← printAttempt format args with
      | some len => return .ok len
      | none => do
          match ← growBuf (choices k) 0 with
          | .error e => return .error e
          | .ok () => growableBufVsprintf choices format args rounds (k + 1)

end Chaotix
