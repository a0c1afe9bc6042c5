/-
Module: Chaotix.Kernel.SharedWrite
Layer: Kernel
Purpose: Processes that write through one open description of a tmpfs file. `tmpfs_write` is cut where a
  process can be preempted: before each of its two locks, around each part of `growable_buf_pwrite`, and
  before `desc->offset += nwritten`. `growableBufPwrite_eq` says that the parts of `growable_buf_pwrite`,
  run one after the other, are the function.
Imports: Mathlib.Logic.Function.Basic, Chaotix.Lib.Transition, Chaotix.Kernel.Lock, Chaotix.Kernel.TmpfsFile
Trusted boundary: human-reviewed model of `tmpfs_write` of `kernel/fs/tmpfs.c` under preemption
Main exports: growFor, copyTo, setEnd, growableBufPwrite_eq, WritePc, WriteState, WriteEvent, WriteStep,
  sharedWriteSystem
-/
import Mathlib.Logic.Function.Basic
import Chaotix.Lib.Transition
import Chaotix.Kernel.Lock
import Chaotix.Kernel.TmpfsFile

namespace Chaotix

/-! ### The parts of `growable_buf_pwrite` -/

/-- `if (end > buf->capacity) grow_buf(buf, end)`. -/
def growFor (c : GrowChoice) (finish : Nat) : Kernel BufState (Except Errno Unit) := do
  if finish > (← get).buf.capacity then
    growBuf c finish
  else
    return .ok ()

/-- `memcpy((void*)(buf->addr + offset), bytes, count)`. -/
def copyTo (bytes : List UInt8) (offset : Nat) : Kernel BufState Unit := do
  let buf := (← get).buf
  memcpyTo buf.block ((buf.addr + offset) % wordSize) bytes

/-- `if (buf->size < end) buf->size = end`. -/
def BufState.setEnd (s : BufState) (finish : Nat) : BufState :=
  { s with buf := { s.buf with size := max s.buf.size finish } }

theorem writeAt_eq (bytes : List UInt8) (offset finish : Nat) :
    writeAt bytes offset finish = (do
      copyTo bytes offset
      modify fun s => s.setEnd finish) := by
  funext s
  simp only [writeAt, copyTo, Program.run_bind, Program.run_get]
  rfl

/-- Without preemption, the parts are `growable_buf_pwrite`. -/
theorem growableBufPwrite_eq (c : GrowChoice) (bytes : List UInt8) (offset : Nat) :
    growableBufPwrite c bytes offset = (do
      let finish := (offset + bytes.length) % wordSize
      match ← growFor c finish with
      | .error e => return .error e
      | .ok () => do
          copyTo bytes offset
          modify fun s => s.setEnd finish
          return .ok bytes.length) := by
  funext s
  simp only [growableBufPwrite, growFor, writeAt_eq, bind_assoc, Program.run_bind, Program.run_get]
  split
  · exact Program.run_bind _ _ s
  · simp only [Program.run_bind, Program.run_pure]

/-! ### Where a process is -/

/-- Where a process is in `tmpfs_write`, with its arguments and locals. -/
inductive WritePc where
  | outside
  | lockOffset (buffer : List UInt8)
  | lockBuf (buffer : List UInt8)
  | grow (buffer : List UInt8)
  | copy (buffer : List UInt8) (offset : Nat)
  | setSize (buffer : List UInt8) (offset : Nat)
  | unlockBuf (buffer : List UInt8) (nwritten : Except Errno Nat)
  | advance (buffer : List UInt8) (nwritten : Except Errno Nat)
  | unlockOffset (nwritten : Except Errno Nat)

/-- The file, the `offset_lock` of the description, the lock of the buffer, and where every process is. -/
structure WriteState (P : Type) where
  file : FileState
  offsetLock : Mutex P
  bufLock : Mutex P
  pc : P → WritePc

/-- What happens in one step: a process calls, goes through one part of the function, or returns; or the rest
    of the kernel changes something else. -/
inductive WriteEvent (P : Type) where
  | call (p : P) (buffer : List UInt8)
  | lock (p : P)
  | grow (p : P) (c : GrowChoice) (result : Except Errno Unit)
  | copy (p : P)
  | setSize (p : P)
  | unlockBuf (p : P)
  | advance (p : P) (buffer : List UInt8) (nwritten : Except Errno Nat)
  | returns (p : P) (nwritten : Except Errno Nat)
  | client

namespace WriteState

variable {P : Type} [DecidableEq P]

/-- A process goes on somewhere. -/
def setPc (s : WriteState P) (p : P) (pc : WritePc) : WriteState P :=
  { s with pc := Function.update s.pc p pc }

/-- The buffer changes. -/
def setNode (s : WriteState P) (node : BufState) : WriteState P :=
  { s with file := { s.file with node := node } }

/-- `if (IS_OK(nwritten)) desc->offset += nwritten`. -/
def advanced (s : WriteState P) (desc : Nat) (nwritten : Except Errno Nat) : WriteState P :=
  match nwritten with
  | .error _ => s
  | .ok n =>
      { s with file := { s.file with
          offset := Function.update s.file.offset desc (s.file.offset desc + n) } }

end WriteState

section Steps

variable {P : Type} [DecidableEq P]

/-- The steps of `tmpfs_write` on the description `desc`. A `mutex_lock` that finds another holder goes round
    its loop, and the rest of the kernel leaves the bytes of the buffer alone. -/
inductive WriteStep (desc : Nat) : WriteState P → WriteEvent P → WriteState P → Prop where
  | call {s : WriteState P} (p : P) (buffer : List UInt8) :
      s.pc p = .outside → WriteStep desc s (.call p buffer) (s.setPc p (.lockOffset buffer))
  | lockOffset {s : WriteState P} (p : P) (buffer : List UInt8) :
      s.pc p = .lockOffset buffer →
      WriteStep desc s (.lock p)
        ({ s with offsetLock := (mutexLockSection p s.offsetLock).1 }.setPc p
          (if (mutexLockSection p s.offsetLock).2 = SectionOutcome.returns then .lockBuf buffer else .lockOffset buffer))
  | lockBuf {s : WriteState P} (p : P) (buffer : List UInt8) :
      s.pc p = .lockBuf buffer →
      WriteStep desc s (.lock p)
        ({ s with bufLock := (mutexLockSection p s.bufLock).1 }.setPc p
          (if (mutexLockSection p s.bufLock).2 = SectionOutcome.returns then .grow buffer else .lockBuf buffer))
  | grow {s : WriteState P} (p : P) (buffer : List UInt8) (c : GrowChoice) (node : BufState) :
      s.pc p = .grow buffer →
      c.Sound s.file.node
        (growCapacity s.file.node.buf.capacity ((s.file.offset desc + buffer.length) % wordSize)) →
      growFor c ((s.file.offset desc + buffer.length) % wordSize) s.file.node = .ok (.ok (), node) →
      WriteStep desc s (.grow p c (.ok ())) ((s.setNode node).setPc p (.copy buffer (s.file.offset desc)))
  | growFails {s : WriteState P} (p : P) (buffer : List UInt8) (c : GrowChoice) (e : Errno) (node : BufState) :
      s.pc p = .grow buffer →
      c.Sound s.file.node
        (growCapacity s.file.node.buf.capacity ((s.file.offset desc + buffer.length) % wordSize)) →
      growFor c ((s.file.offset desc + buffer.length) % wordSize) s.file.node = .ok (.error e, node) →
      WriteStep desc s (.grow p c (.error e)) ((s.setNode node).setPc p (.unlockBuf buffer (.error e)))
  | copy {s : WriteState P} (p : P) (buffer : List UInt8) (offset : Nat) (node : BufState) :
      s.pc p = .copy buffer offset → copyTo buffer offset s.file.node = .ok ((), node) →
      WriteStep desc s (.copy p) ((s.setNode node).setPc p (.setSize buffer offset))
  | setSize {s : WriteState P} (p : P) (buffer : List UInt8) (offset : Nat) :
      s.pc p = .setSize buffer offset →
      WriteStep desc s (.setSize p)
        ((s.setNode (s.file.node.setEnd ((offset + buffer.length) % wordSize))).setPc p
          (.unlockBuf buffer (.ok buffer.length)))
  | unlockBuf {s : WriteState P} (p : P) (buffer : List UInt8) (nwritten : Except Errno Nat) :
      s.pc p = .unlockBuf buffer nwritten → (mutexUnlockSection p s.bufLock).2 ≠ .asserts →
      WriteStep desc s (.unlockBuf p)
        ({ s with bufLock := (mutexUnlockSection p s.bufLock).1 }.setPc p (.advance buffer nwritten))
  | advance {s : WriteState P} (p : P) (buffer : List UInt8) (nwritten : Except Errno Nat) :
      s.pc p = .advance buffer nwritten →
      WriteStep desc s (.advance p buffer nwritten)
        ((s.advanced desc nwritten).setPc p (.unlockOffset nwritten))
  | unlockOffset {s : WriteState P} (p : P) (nwritten : Except Errno Nat) :
      s.pc p = .unlockOffset nwritten → (mutexUnlockSection p s.offsetLock).2 ≠ .asserts →
      WriteStep desc s (.returns p nwritten)
        ({ s with offsetLock := (mutexUnlockSection p s.offsetLock).1 }.setPc p .outside)
  | client {s : WriteState P} (vm : Vm) :
      KeepsBytes (InBlock s.file.node.buf.block) s.file.node.vm vm →
      WriteStep desc s .client (s.setNode { s.file.node with vm := vm })

/-- Any number of processes that write through one description. -/
def sharedWriteSystem (P : Type) [DecidableEq P] (desc : Nat) :
    TransitionSystem (WriteState P) (WriteEvent P) where
  init s := s.offsetLock = {} ∧ s.bufLock = {} ∧ ∀ p, s.pc p = .outside
  step := WriteStep desc

end Steps

end Chaotix
