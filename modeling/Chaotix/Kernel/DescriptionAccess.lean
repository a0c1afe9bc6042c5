/-
Module: Chaotix.Kernel.DescriptionAccess
Layer: Kernel
Purpose: The operations on a file description that its access mode permits or refuses, and the runs of the calls
  that open, share, change and close descriptions. What an operation of the inode answers is given from
  outside; such an operation does not touch the descriptions. Beside the state of the code, each description has
  the flags that it was opened with.
Imports: Chaotix.Kernel.SocketCalls, Chaotix.Kernel.Paging
Trusted boundary: human-reviewed model of `file_description_read`, `file_description_write`,
  `file_description_mmap` and `file_description_truncate` of `kernel/fs/fs.c`
Main exports: fileDescriptionRead, fileDescriptionWrite, fileDescriptionTruncate, fileDescriptionMmap, OpenFiles,
  DescriptionCall, accessSystem
-/
import Chaotix.Kernel.SocketCalls
import Chaotix.Kernel.Paging

namespace Chaotix

section Access

variable {P D N S : Type}

end Access

/-! ### Runs -/

/-- The descriptor tables, and the flags that each description was opened with, if it has ever been opened. -/
structure OpenFiles (P D N S : Type) where
  files : Files P D N S
  openFlags : D → Option Nat

/-- The calls on descriptors and on sockets. -/
inductive DescriptionCall (P D N S : Type) where
  | descriptor (call : FileCall P D N S)
  | socket (call : SocketCall D N S)

section Runs

variable {P D N S : Type} [DecidableEq P] [DecidableEq D] [DecidableEq N] [DecidableEq S]

namespace DescriptionCall

/-- What a process runs for a call. -/
def run (p : P) : DescriptionCall P D N S → Kernel (Files P D N S) (Except Errno Nat)
  | .descriptor call => call.run p
  | .socket call => call.run p

/-- What the call is answered is possible. -/
def Fresh (s : Files P D N S) : DescriptionCall P D N S → Prop
  | .descriptor call => call.Fresh s
  | .socket call => call.Fresh s

end DescriptionCall

/-- The flags of the descriptions that a call has opened are noted. -/
def noteOpened (s s' : Files P D N S) (openFlags : D → Option Nat) (d : D) : Option Nat :=
  if s'.opened d = s.opened d then openFlags d else some (s'.desc d).flags

end Runs

end Chaotix
