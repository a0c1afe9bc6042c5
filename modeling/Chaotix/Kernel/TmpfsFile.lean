/-
Module: Chaotix.Kernel.TmpfsFile
Layer: Kernel
Purpose: The contents of one tmpfs file and the offsets of its open descriptions, from
  `kernel/fs/tmpfs.c` over the growable buffer. `byteFile` says what the file is for: a list of bytes
  that is read and written at offsets.
Imports: Chaotix.Lib.FileBytes, Chaotix.Lib.Transition, Chaotix.Kernel.GrowableBuf
Trusted boundary: human-reviewed model of `kernel/fs/tmpfs.c`
Main exports: FileState, tmpfsRead, tmpfsWrite, tmpfsTruncate, FileStep, fileSystem, ByteFile, byteFile
-/
import Chaotix.Lib.FileBytes
import Chaotix.Lib.Transition
import Chaotix.Kernel.GrowableBuf

namespace Chaotix

/-- The inode of a file that is not a directory, of which only `buf` is used here, and the `offset` of
    each description that is open on it. -/
structure FileState where
  node : BufState
  offset : Nat → Nat

/-- Run a function of the buffer. -/
def onNode {α : Type} (m : Kernel BufState α) : Kernel FileState α :=
  Program.focus FileState.node (fun node s => { s with node := node }) m

/-- `desc->offset += n`. -/
def advance (desc n : Nat) : Kernel FileState Unit :=
  modify fun s => { s with offset := Function.update s.offset desc (s.offset desc + n) }

/-- `tmpfs_read`. It returns the bytes it has copied to the buffer of the caller. -/
def tmpfsRead (desc count : Nat) : Kernel FileState (List UInt8) := do
  let nread ← onNode (growableBufPread count ((← get).offset desc))
  advance desc nread.length
  return nread

/-- `tmpfs_write`. -/
def tmpfsWrite (c : GrowChoice) (desc : Nat) (buffer : List UInt8) :
    Kernel FileState (Except Errno Nat) := do
  match ← onNode (growableBufPwrite c buffer ((← get).offset desc)) with
  | .error e => return .error e
  | .ok nwritten => do
      advance desc nwritten
      return .ok nwritten

/-- `tmpfs_truncate`. -/
def tmpfsTruncate (c : GrowChoice) (length : Int) : Kernel FileState (Except Errno Unit) :=
  onNode (growableBufTruncate c length)

/-! ### Calls on the file -/

/-- The calls on the file, changes of an offset, and whatever else the kernel does. -/
inductive FileEvent where
  | read (desc count : Nat) (result : List UInt8)
  | write (c : GrowChoice) (desc : Nat) (buffer : List UInt8) (result : Except Errno Nat)
  | truncate (c : GrowChoice) (length : Int) (result : Except Errno Unit)
  | seek (desc offset : Nat)
  | client

/-- The largest value of an `off_t`. -/
abbrev OFF_MAX : Nat := 2 ^ 31 - 1

/-- The calls that return. -/
inductive FileStep : FileState → FileEvent → FileState → Prop where
  | read {s s' : FileState} (desc count : Nat) (result : List UInt8) :
      s.offset desc + count ≤ OFF_MAX → tmpfsRead desc count s = .ok (result, s') →
      FileStep s (.read desc count result) s'
  | write {s s' : FileState} (c : GrowChoice) (desc : Nat) (buffer : List UInt8)
      (result : Except Errno Nat) :
      1 ≤ buffer.length → s.offset desc + buffer.length ≤ OFF_MAX →
      c.Sound s.node (growCapacity s.node.buf.capacity (s.offset desc + buffer.length)) →
      tmpfsWrite c desc buffer s = .ok (result, s') → FileStep s (.write c desc buffer result) s'
  | truncate {s s' : FileState} (c : GrowChoice) (length : Int) (result : Except Errno Unit) :
      0 ≤ length → length ≤ OFF_MAX →
      c.Sound s.node (growCapacity s.node.buf.capacity (toSize length)) →
      tmpfsTruncate c length s = .ok (result, s') → FileStep s (.truncate c length result) s'
  | seek {s : FileState} (desc offset : Nat) :
      offset ≤ OFF_MAX →
      FileStep s (.seek desc offset) { s with offset := Function.update s.offset desc offset }
  | client {s : FileState} (vm : Vm) :
      KeepsBytes (InBlock s.node.buf.block) s.node.vm vm →
      FileStep s .client { s with node := { s.node with vm := vm } }

/-- A new file. -/
def fileSystem : TransitionSystem FileState FileEvent where
  init s := bufSystem.init s.node
  step := FileStep

/-! ### What a file is -/

/-- A list of bytes, and the offsets of the open descriptions. -/
structure ByteFile where
  contents : List UInt8 := []
  offset : Nat → Nat

/-- The bytes of the file, as a `memcpy` finds them. -/
def FileState.contents (s : FileState) : Option (List UInt8) :=
  match loadBytes s.node.buf.addr s.node.buf.size s.node.vm with
  | .ok (bytes, _) => some bytes
  | .error _ => none

end Chaotix
