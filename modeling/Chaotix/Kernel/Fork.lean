/-
Module: Chaotix.Kernel.Fork
Layer: Kernel
Purpose: `sys_fork` with everything it acquires: the block of the process structure, the page directory, the path
  and the inode of the working directory, the descriptor table and the kernel stack. A process is named by
  the address of its structure, and an allocation fails when the kernel heap or the physical memory of the state
  is exhausted.
Imports: Chaotix.Kernel.KernelHeap, Chaotix.Kernel.FileDescriptors
Trusted boundary: human-reviewed model of `sys_fork` of `kernel/syscall/process.c`
Main exports: Process, ForkState, ForkState.sysFork
-/
import Chaotix.Kernel.KernelHeap
import Chaotix.Kernel.FileDescriptors

namespace Chaotix

/-- `sizeof(struct process)`. -/
abbrev sizeofProcess : Nat := 672

/-- `alignof(struct process)`, the alignment of its `fpu_state`. -/
abbrev alignofProcess : Nat := 16

/-- `sizeof(file_description*)`. -/
abbrev sizeofPointer : Nat := 4

/-- `struct process`, with the fields that `fork`, `exit` and `waitpid` acquire and release; `cwd` is the string at
    `cwd_path`, and `fdTable` is `fd_table.entries`. -/
structure Process (N S : Type) where
  pid : Nat
  ppid : Nat
  pd : Nat
  stackTop : Nat
  cwd : List UInt8
  cwdPath : Nat
  cwdInode : InodeRef N S
  fdTable : Nat

/-- The kernel heap, the descriptions and tables, the processes by the addresses of their structures, and
    `next_pid`. -/
structure ForkState (D N S : Type) where
  heap : HeapState
  files : Files Nat D N S
  process : Nat → Process N S
  nextPid : Nat

namespace ForkState

variable {D N S : Type} [DecidableEq D] [DecidableEq N] [DecidableEq S]

/-- Run a function of the kernel heap. -/
def onHeap {α : Type} (f : Kernel HeapState α) : Kernel (ForkState D N S) α :=
  Program.focus ForkState.heap (fun heap s => { s with heap := heap }) f

/-- Run a function of the file system. -/
def onFiles {α : Type} (f : Kernel (Files Nat D N S) α) : Kernel (ForkState D N S) α :=
  Program.focus ForkState.files (fun files s => { s with files := files }) f

/-- `process_generate_next_pid`. -/
def processGenerateNextPid : Kernel (ForkState D N S) Nat := do
  let pid := (← get).nextPid
  modify fun s => { s with nextPid := pid + 1 }
  return pid

/-- `kstrdup`, of a string of the given length. -/
def kstrdup (length : Nat) : Kernel (ForkState D N S) (Option Nat) :=
  onHeap (HeapState.kmalloc (length + 1))

/-- The end of `sys_fork`, once the child has its page directory `pd` and its path `cwdPath`. -/
def forkTables (current child pd pid cwdPath : Nat) : Kernel (ForkState D N S) (Except Errno Nat) := do
  let parent := (← get).process current
  onFiles (inodeRef parent.cwdInode)
  let table ← onHeap (HeapState.kmalloc (OPEN_MAX * sizeofPointer))
  match ← onFiles (fileDescriptorTableCloneFrom child current table.isSome) with
  | .error e => return .error e
  | .ok () => do
      match ← onHeap (HeapState.kmalloc STACK_SIZE) with
      | none => return .error .ENOMEM
      | some stack => do
          modify fun s => { s with
            process := Function.update s.process child
              { pid := pid
                ppid := parent.pid
                pd := pd
                stackTop := stack + STACK_SIZE
                cwd := parent.cwd
                cwdPath := cwdPath
                cwdInode := parent.cwdInode
                fdTable := table.getD 0 }
            files := { s.files with registered := Function.update s.files.registered child true } }
          return .ok pid

/-- `sys_fork`, called by the process `current`. What an early return has acquired by then stays acquired, as in the
    source. -/
def sysFork (current : Nat) : Kernel (ForkState D N S) (Except Errno Nat) := do
  match ← onHeap (HeapState.kalignedAlloc alignofProcess sizeofProcess) with
  | none => return .error .ENOMEM
  | some child => do
      match ← onHeap HeapState.pagingCloneCurrentPageDirectory with
      | .error e => return .error e
      | .ok pd => do
          let pid ← processGenerateNextPid
          match ← kstrdup ((← get).process current).cwd.length with
          | none => return .error .ENOMEM
          | some cwdPath => forkTables current child pd pid cwdPath

end ForkState

end Chaotix
