/-
Module: Chaotix.Kernel.Lseek
Layer: Kernel
Purpose: `file_description_lseek` on one open description that processes share, beside their reads and writes, which
  advance the offset under the same lock. A sum of two `off_t` wraps. Every `stat` of a file system succeeds, and
  `inode_stat` gives the reference back that `inode_ref` has taken before it.
Imports: Chaotix.Lib.Transition, Chaotix.Kernel.Base, Chaotix.Kernel.Lock
Trusted boundary: human-reviewed model of `file_description_lseek` of `kernel/fs/fs.c`
Main exports: SeekState, fileDescriptionLseek, SeekEvent, SeekStep, seekSystem
-/
import Chaotix.Lib.Transition
import Chaotix.Kernel.Base
import Chaotix.Kernel.Lock

namespace Chaotix

/-- `SEEK_SET`. -/
abbrev SEEK_SET : Int := 0

/-- `SEEK_CUR`. -/
abbrev SEEK_CUR : Int := 1

/-- `SEEK_END`. -/
abbrev SEEK_END : Int := 2

/-- A value as an `off_t` of 32 bits. -/
def toOff (x : Int) : Int := (x + 2 ^ 31) % 2 ^ 32 - 2 ^ 31

/-- The `offset` and the `offset_lock` of a description, and the `st_size` of its file. -/
structure SeekState (P : Type) where
  offset : Int
  offsetLock : Mutex P := {}
  size : Int

section Functions

variable {P : Type} [DecidableEq P]

/-- `mutex_lock(&desc->offset_lock)` by a process that nobody runs beside: it spins forever on a mutex that another
    process has not released. -/
def lockOffset (current : P) : Kernel (SeekState P) Unit := do
  match mutexLockSection current (← get).offsetLock with
  | (m, .returns) => modify fun s => { s with offsetLock := m }
  | (_, .asserts) => throw .panic
  | _ => throw .hang

/-- `mutex_unlock(&desc->offset_lock)`. -/
def unlockOffset (current : P) : Kernel (SeekState P) Unit := do
  match mutexUnlockSection current (← get).offsetLock with
  | (m, .returns) => modify fun s => { s with offsetLock := m }
  | (_, .asserts) => throw .panic
  | _ => throw .hang

/-- `mutex_unlock_if_locked(&desc->offset_lock)`. -/
def unlockOffsetIfLocked (current : P) : Kernel (SeekState P) Unit := do
  match mutexUnlockIfLockedSection current (← get).offsetLock with
  | (m, .returnsBool _) => modify fun s => { s with offsetLock := m }
  | (_, .asserts) => throw .panic
  | _ => throw .hang

/-- The end of `file_description_lseek`, once there is a new offset. -/
def setOffset (current : P) (newOffset : Int) : Kernel (SeekState P) (Except Errno Int) := do
  if newOffset < 0 then
    unlockOffsetIfLocked current
    return .error .EINVAL
  else
    modify fun s => { s with offset := newOffset }
    unlockOffsetIfLocked current
    return .ok newOffset

/-- `file_description_lseek`. -/
def fileDescriptionLseek (current : P) (offset whence : Int) : Kernel (SeekState P) (Except Errno Int) := do
  if whence = SEEK_SET then
    setOffset current offset
  else if whence = SEEK_CUR then
    lockOffset current
    setOffset current (toOff ((← get).offset + offset))
  else if whence = SEEK_END then
    setOffset current (toOff ((← get).size + offset))
  else
    return .error .EINVAL

/-- A read or a write of `n` bytes, as far as the description is concerned. -/
def advanceOffset (current : P) (n : Nat) : Kernel (SeekState P) Unit := do
  lockOffset current
  modify fun s => { s with offset := s.offset + n }
  unlockOffset current

end Functions

/-! ### Processes that share the description -/

/-- The calls on the description, and changes of the size of the file. -/
inductive SeekEvent (P : Type) where
  | lseek (current : P) (offset whence : Int) (result : Except Errno Int)
  | advance (current : P) (n : Nat)
  | resize (size : Int)

/-- A value of an `off_t`. -/
def IsOff (x : Int) : Prop := -2 ^ 31 ≤ x ∧ x < 2 ^ 31

instance (x : Int) : Decidable (IsOff x) := inferInstanceAs (Decidable (_ ∧ _))

section Steps

variable {P : Type} [DecidableEq P]

/-- The calls that return. Reads and writes do not move the offset behind the largest `off_t`. -/
inductive SeekStep : SeekState P → SeekEvent P → SeekState P → Prop where
  | lseek {s s' : SeekState P} (current : P) (offset whence : Int) (result : Except Errno Int) :
      IsOff offset → fileDescriptionLseek current offset whence s = .ok (result, s') →
      SeekStep s (.lseek current offset whence result) s'
  | advance {s s' : SeekState P} (current : P) (n : Nat) :
      s.offset + n < 2 ^ 31 → advanceOffset current n s = .ok ((), s') → SeekStep s (.advance current n) s'
  | resize {s : SeekState P} (size : Int) :
      0 ≤ size → IsOff size → SeekStep s (.resize size) { s with size := size }

/-- An open description whose lock nobody has taken. -/
def seekSystem (P : Type) [DecidableEq P] : TransitionSystem (SeekState P) (SeekEvent P) where
  init s := s.offsetLock = {} ∧ 0 ≤ s.offset ∧ IsOff s.offset ∧ 0 ≤ s.size ∧ IsOff s.size
  step := SeekStep

end Steps

end Chaotix
