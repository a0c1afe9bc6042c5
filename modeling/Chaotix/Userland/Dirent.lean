/-
Module: Chaotix.Userland.Dirent
Layer: Userland
Purpose: `readdir` of the C library: it walks the records of a buffer by their lengths, and when the buffer is used up
  it calls `getdents` again, with twice the capacity as long as the kernel answers `EINVAL`. The directory is a tmpfs
  directory that does not change. What `realloc` returns is given from outside: no memory, or memory of any contents.
Imports: Chaotix.Kernel.Getdents
Trusted boundary: human-reviewed model of `opendir` and `readdir` of `userland/lib/dirent.c`
Main exports: Dir, opendir, readdirFill, readdir, CStrAt, Lists
-/
import Chaotix.Kernel.Getdents

namespace Chaotix

/-- `DIR`, with the memory at `buf`, the offset of the description behind `fd`, and how often `realloc` was called. -/
structure Dir where
  buf : Nat → UInt8
  bufCapacity : Nat
  bufSize : Nat
  bufCursor : Nat
  offset : Nat
  reallocs : Nat

/-- `opendir`, once it succeeds. -/
def opendir (mem : Nat → UInt8) : Dir :=
  { buf := mem, bufCapacity := 1024, bufSize := 0, bufCursor := 0, offset := 0, reallocs := 0 }

/-- `d_reclen` of the record at an address. -/
def reclenAt (mem : Nat → UInt8) (a : Nat) : Nat := (mem a).toNat + (mem (a + 1)).toNat * 2 ^ 8

section Readdir

variable (realloc : Nat → Nat → Option (Nat → UInt8)) (children : List (Dentry CString FileType))

/-- The loop of `readdir` that fills the buffer, for so many rounds: whether there is a record now. -/
def readdirFill : Nat → Dir → Option (Bool × Dir)
  | 0, _ => none
  | rounds + 1, dirp =>
      match realloc dirp.reallocs dirp.bufCapacity with
      | none => some (false, { dirp with reallocs := dirp.reallocs + 1 })
      | some newBuf =>
          let call := fileDescriptionGetdents (tmpfsGetdents children) dirp.offset newBuf dirp.bufCapacity
          let dirp := { dirp with buf := call.mem, offset := call.offset, reallocs := dirp.reallocs + 1 }
          match call.result with
          | .ok 0 => some (false, dirp)
          | .ok nread => some (true, { dirp with bufSize := nread })
          | .error .EINVAL => readdirFill rounds { dirp with bufCapacity := dirp.bufCapacity * 2 % wordSize }
          | .error _ => some (false, dirp)

/-- `readdir`, with so many rounds for its loop: the place of the record in the buffer, or `NULL`. -/
def readdir (rounds : Nat) (dirp : Dir) : Option (Option Nat × Dir) :=
  if dirp.bufCursor ≥ dirp.bufSize then
    match readdirFill realloc children rounds dirp with
    | none => none
    | some (false, dirp) => some (none, dirp)
    | some (true, dirp) => some (some 0, { dirp with bufCursor := reclenAt dirp.buf 0 })
  else
    some (some dirp.bufCursor, { dirp with bufCursor := dirp.bufCursor + reclenAt dirp.buf dirp.bufCursor })

/-- There is a string in C at an address. -/
def CStrAt (mem : Nat → UInt8) (a : Nat) (str : CString) : Prop := BytesAt mem a (str.chars ++ [0])

/-- Calling `readdir` again and again returns these names, and then `NULL`. -/
def Lists : Dir → List CString → Prop
  | dirp, [] => ∃ rounds dirp', readdir realloc children rounds dirp = some (none, dirp')
  | dirp, name :: names =>
      ∃ rounds dent dirp', readdir realloc children rounds dirp = some (some dent, dirp') ∧
        CStrAt dirp'.buf (dent + direntNameOffset) name ∧ Lists dirp' names

end Readdir

end Chaotix
