/-
Module: Chaotix.Kernel.FileDescriptors
Layer: Kernel
Purpose: File descriptions, the descriptor tables of the processes that refer to them, and the inodes they
  refer to, with the system calls that fill, copy and clear slots. A call runs to its end in one step. The
  processes, descriptions, inodes and sockets are names; memory that has been freed keeps its contents. What
  the allocations, the path resolution and the `open` functions of the file systems answer is chosen by the
  caller of the model; the `close` functions of the file systems always return 0. For each description the
  number of times it has been opened and closed is kept beside the state of the code.
Imports: Mathlib.Logic.Function.Basic, Chaotix.Lib.Transition, Chaotix.Kernel.Base
Trusted boundary: human-reviewed model of `kernel/fs/fs.c`, of the descriptor functions and `die` of
  `kernel/process.c`, of the calls on descriptors of `kernel/syscall/fs.c`, and of the part of `sys_fork`
  that is about the descriptor table
Main exports: Files, inodeOpen, fileDescriptionClose, sysOpen, sysClose, sysFcntl, sysDup2, sysPipe, sysSocket,
  sysFork, processExit, FileCall, descriptorSystem
-/
import Mathlib.Logic.Function.Basic
import Chaotix.Lib.Transition
import Chaotix.Kernel.Base

namespace Chaotix

/-- The type bits of the `mode` of an inode. -/
inductive FileType where
  | S_IFREG
  | S_IFDIR
  | S_IFCHR
  | S_IFBLK
  | S_IFIFO
  | S_IFSOCK
deriving DecidableEq, Repr

/-- The inode of a description: one of a file system or of a pipe, or the one inside a `unix_socket`. -/
inductive InodeRef (N S : Type) where
  | node (n : N)
  | socket (k : S)
deriving DecidableEq, Repr

/-- `struct inode`, with the fields that the modelled calls use. -/
structure Inode (S : Type) where
  mode : FileType
  numLinks : Nat
  refCount : Nat
  boundSocket : Option S

/-- `unix_socket` without its two buffers. Its inode has mode `S_IFSOCK` and no links. -/
structure UnixSocket (D S : Type) where
  refCount : Nat
  backlog : Nat
  numPending : Nat
  next : Option S
  connected : Bool
  connectorFd : Option D

/-- `file_description`. -/
structure FileDescription (N S : Type) where
  inode : InodeRef N S
  flags : Nat
  refCount : Nat

/-- The processes with their tables, the descriptions and the inodes. The `Live` maps say what is allocated.
    `init` is the process with the pid 1. -/
structure Files (P D N S : Type) where
  init : P
  registered : P → Bool
  entries : P → Nat → Option D
  desc : D → FileDescription N S
  descLive : D → Bool
  opened : D → Nat
  closed : D → Nat
  node : N → Inode S
  nodeLive : N → Bool
  socket : S → UnixSocket D S
  socketLive : S → Bool

section Updates

variable {P D N S : Type} [DecidableEq P] [DecidableEq D] [DecidableEq N] [DecidableEq S]

namespace Files

/-- What a slot of the table of a process holds. -/
def slot (s : Files P D N S) (k : P × Nat) : Option D :=
  if s.registered k.1 = true ∧ k.2 < OPEN_MAX then s.entries k.1 k.2 else none

/-- Write a slot. -/
def setEntry (s : Files P D N S) (p : P) (fd : Nat) (entry : Option D) : Files P D N S :=
  { s with entries := Function.update s.entries p (Function.update (s.entries p) fd entry) }

/-- Write the counter of a description. -/
def setRefCount (s : Files P D N S) (d : D) (refCount : Nat) : Files P D N S :=
  { s with desc := Function.update s.desc d { s.desc d with refCount := refCount } }

/-- A new description of an inode. -/
def newDesc (s : Files P D N S) (d : D) (inode : InodeRef N S) (flags : Nat) : Files P D N S :=
  { s with
    desc := Function.update s.desc d { inode := inode, flags := flags, refCount := 1 }
    descLive := Function.update s.descLive d true
    opened := Function.update s.opened d (s.opened d + 1) }

/-- `kfree` of a description that is closed. -/
def freeDesc (s : Files P D N S) (d : D) : Files P D N S :=
  { s with
    descLive := Function.update s.descLive d false
    closed := Function.update s.closed d (s.closed d + 1) }

/-- Write the inode of a file. -/
def setNode (s : Files P D N S) (n : N) (inode : Inode S) : Files P D N S :=
  { s with node := Function.update s.node n inode }

/-- Write a socket. -/
def setSocket (s : Files P D N S) (k : S) (socket : UnixSocket D S) : Files P D N S :=
  { s with socket := Function.update s.socket k socket }

/-- A new inode of a file. -/
def newNode (s : Files P D N S) (n : N) (inode : Inode S) : Files P D N S :=
  { s.setNode n inode with nodeLive := Function.update s.nodeLive n true }

/-- A new socket. -/
def newSocket (s : Files P D N S) (k : S) (socket : UnixSocket D S) : Files P D N S :=
  { s.setSocket k socket with socketLive := Function.update s.socketLive k true }

/-- `S_ISDIR(inode->mode)`. -/
def IsDir (s : Files P D N S) : InodeRef N S → Prop
  | .node n => (s.node n).mode = .S_IFDIR
  | .socket _ => False

instance (s : Files P D N S) (inode : InodeRef N S) : Decidable (s.IsDir inode) :=
  match inode with
  | .node _ => inferInstanceAs (Decidable (_ = _))
  | .socket _ => inferInstanceAs (Decidable False)

/-- `S_ISSOCK(inode->mode)`. -/
def IsSock (s : Files P D N S) : InodeRef N S → Prop
  | .node n => (s.node n).mode = .S_IFSOCK
  | .socket _ => True

instance (s : Files P D N S) (inode : InodeRef N S) : Decidable (s.IsSock inode) :=
  match inode with
  | .node _ => inferInstanceAs (Decidable (_ = _))
  | .socket _ => inferInstanceAs (Decidable True)

end Files

/-! ### Inodes -/

/-- `inode_ref`. -/
def inodeRef : InodeRef N S → Kernel (Files P D N S) Unit
  | .node n => modify fun s => s.setNode n { s.node n with refCount := (s.node n).refCount + 1 }
  | .socket k => modify fun s => s.setSocket k { s.socket k with refCount := (s.socket k).refCount + 1 }

/-- `inode_unref`. An inode without references and links is destroyed. -/
def inodeUnref : InodeRef N S → Kernel (Files P D N S) Unit
  | .node n => do
      let s ← get
      assert (0 < (s.node n).refCount)
      let refCount := (s.node n).refCount - 1
      set (s.setNode n { s.node n with refCount := refCount })
      if refCount = 0 ∧ (s.node n).numLinks = 0 then
        modify fun s => { s with nodeLive := Function.update s.nodeLive n false }
  | .socket k => do
      let s ← get
      assert (0 < (s.socket k).refCount)
      let refCount := (s.socket k).refCount - 1
      set (s.setSocket k { s.socket k with refCount := refCount })
      if refCount = 0 then
        modify fun s => { s with socketLive := Function.update s.socketLive k false }

/-- What `inode_open` is answered: the block for the description, and the error of the `open` function of
    the inode. The inode of a socket has no such function. -/
structure OpenChoice (D : Type) where
  block : Option D
  openError : Option Errno

/-- The error of the `open` function of an inode, if it has one and that fails. -/
def OpenChoice.hookError (choice : OpenChoice D) : InodeRef N S → Option Errno
  | .node _ => choice.openError
  | .socket _ => none

/-- `inode_open`. -/
def inodeOpen (inode : InodeRef N S) (flags : Nat) (choice : OpenChoice D) :
    Kernel (Files P D N S) (Except Errno D) := do
  if (← get).IsDir inode ∧ HasFlag flags O_WRONLY then
    inodeUnref inode
    return .error .EISDIR
  match choice.block with
  | none =>
      inodeUnref inode
      return .error .ENOMEM
  | some d =>
      match choice.hookError inode with
      | some e =>
          inodeUnref inode
          return .error e
      | none =>
          modify fun s => s.newDesc d inode flags
          return .ok d

/-! ### Descriptions and tables -/

/-- `file_description_close`. -/
def fileDescriptionClose (d : D) : Kernel (Files P D N S) Unit := do
  let s ← get
  assert (0 < (s.desc d).refCount)
  set (s.setRefCount d ((s.desc d).refCount - 1))
  if (s.desc d).refCount - 1 > 0 then
    return
  modify fun s => s.freeDesc d
  inodeUnref (s.desc d).inode

/-- `++desc->ref_count`. -/
def refDesc (d : D) : Kernel (Files P D N S) Unit :=
  modify fun s => s.setRefCount d ((s.desc d).refCount + 1)

/-- The search for an empty slot, with `n` slots to go. -/
def findFreeEntry (entries : Nat → Option D) : Nat → Nat → Option Nat
  | _, 0 => none
  | i, n + 1 => if (entries i).isNone then some i else findFreeEntry entries (i + 1) n

/-- `process_alloc_file_descriptor`. -/
def processAllocFileDescriptor (p : P) (fd : Int) (d : D) : Kernel (Files P D N S) (Except Errno Nat) := do
  if (OPEN_MAX : Int) ≤ fd then
    return .error .EBADF
  let s ← get
  if 0 ≤ fd then
    if (s.entries p fd.toNat).isSome then
      return .error .EEXIST
    set (s.setEntry p fd.toNat (some d))
    return .ok fd.toNat
  match findFreeEntry (s.entries p) 0 OPEN_MAX with
  | some i =>
      set (s.setEntry p i (some d))
      return .ok i
  | none => return .error .EMFILE

/-- `process_free_file_descriptor`. -/
def processFreeFileDescriptor (p : P) (fd : Int) : Kernel (Files P D N S) (Except Errno Nat) := do
  if fd < 0 ∨ (OPEN_MAX : Int) ≤ fd then
    return .error .EBADF
  let s ← get
  if (s.entries p fd.toNat).isNone then
    return .error .EBADF
  set (s.setEntry p fd.toNat none)
  return .ok 0

/-- `process_get_file_description`. -/
def processGetFileDescription (s : Files P D N S) (p : P) (fd : Int) : Except Errno D :=
  if fd < 0 ∨ (OPEN_MAX : Int) ≤ fd then .error .EBADF
  else
    match s.entries p fd.toNat with
    | some d => .ok d
    | none => .error .EBADF

/-- The loop of `file_descriptor_table_destroy`. -/
def fileDescriptorTableDestroy (p : P) : Kernel (Files P D N S) Unit :=
  Program.forRange 0 OPEN_MAX fun i => do
    match (← get).entries p i with
    | some d => fileDescriptionClose d
    | none => pure ()

/-- `file_descriptor_table_clone_from`, where `allocated` says whether there is memory for the table. -/
def fileDescriptorTableCloneFrom (child parent : P) (allocated : Bool) :
    Kernel (Files P D N S) (Except Errno Unit) := do
  if !allocated then
    return .error .ENOMEM
  modify fun s => { s with entries := Function.update s.entries child (s.entries parent) }
  Program.forRange 0 OPEN_MAX fun i => do
    match (← get).entries parent i with
    | some d => refDesc d
    | none => pure ()
  return .ok ()

/-! ### System calls -/

/-- What `vfs_open` finds at a path: an error, an inode that exists (the one of the device behind a device
    file), or one that it has created. -/
inductive PathOutcome (N : Type) where
  | error (e : Errno)
  | found (n : N)
  | created (n : N)

/-- `vfs_open`. The inode comes with a reference. -/
def vfsOpen (path : PathOutcome N) (flags : Nat) (mode : FileType) (choice : OpenChoice D) :
    Kernel (Files P D N S) (Except Errno D) := do
  match path with
  | .error e => return .error e
  | .found n =>
      inodeRef (.node n)
      inodeOpen (.node n) flags choice
  | .created n =>
      modify fun s => s.newNode n { mode := mode, numLinks := 1, refCount := 1, boundSocket := none }
      inodeOpen (.node n) flags choice

/-- `sys_open`. -/
def sysOpen (p : P) (path : PathOutcome N) (flags : Nat) (choice : OpenChoice D) :
    Kernel (Files P D N S) (Except Errno Nat) := do
  match ← vfsOpen path flags .S_IFREG choice with
  | .error e => return .error e
  | .ok d => processAllocFileDescriptor p (-1) d

/-- `sys_close`. -/
def sysClose (p : P) (fd : Int) : Kernel (Files P D N S) (Except Errno Nat) := do
  match processGetFileDescription (← get) p fd with
  | .error e => return .error e
  | .ok d =>
      fileDescriptionClose d
      processFreeFileDescriptor p fd

/-- The commands of `sys_fcntl`. -/
inductive FcntlCmd where
  | F_DUPFD
  | F_GETFL
  | F_SETFL
  | other
deriving DecidableEq, Repr

/-- `sys_fcntl`. -/
def sysFcntl (p : P) (fd : Int) (cmd : FcntlCmd) (arg : Nat) :
    Kernel (Files P D N S) (Except Errno Nat) := do
  let s ← get
  match processGetFileDescription s p fd with
  | .error e => return .error e
  | .ok d =>
      match cmd with
      | .F_DUPFD =>
          match ← processAllocFileDescriptor p (-1) d with
          | .error e => return .error e
          | .ok ret =>
              refDesc d
              return .ok ret
      | .F_GETFL => return .ok (s.desc d).flags
      | .F_SETFL =>
          set { s with desc := Function.update s.desc d { s.desc d with flags := arg } }
          return .ok 0
      | .other => return .error .EINVAL

/-- The first part of `sys_dup2`: what is at `newfd` is closed. -/
def dup2CloseNew (p : P) (newfd : Int) : Kernel (Files P D N S) (Except Errno Nat) := do
  match processGetFileDescription (← get) p newfd with
  | .error _ => return .ok 0
  | .ok newfdDesc =>
      fileDescriptionClose newfdDesc
      processFreeFileDescriptor p newfd

/-- `sys_dup2`. -/
def sysDup2 (p : P) (oldfd newfd : Int) : Kernel (Files P D N S) (Except Errno Nat) := do
  match processGetFileDescription (← get) p oldfd with
  | .error e => return .error e
  | .ok oldfdDesc =>
      match ← dup2CloseNew p newfd with
      | .error e => return .error e
      | .ok _ =>
          match ← processAllocFileDescriptor p newfd oldfdDesc with
          | .error e => return .error e
          | .ok ret =>
              refDesc oldfdDesc
              return .ok ret

/-- What `fifo_create` and `unix_socket_create` are answered: the block for the inode, and whether there is
    memory for each buffer. -/
structure CreateChoice (α : Type) where
  block : Option α
  buffers : Bool

/-- The inode of `fifo_create`. -/
def fifoCreateInode (choice : CreateChoice N) : Kernel (Files P D N S) (Except Errno N) := do
  match choice.block with
  | none => return .error .ENOMEM
  | some n =>
      if !choice.buffers then
        return .error .ENOMEM
      modify fun s => s.newNode n { mode := .S_IFIFO, numLinks := 0, refCount := 1, boundSocket := none }
      return .ok n

/-- The end of `sys_pipe`: the two descriptions get their slots. -/
def pipeAllocFds (p : P) (reader writer : D) : Kernel (Files P D N S) (Except Errno Nat) := do
  match ← processAllocFileDescriptor p (-1) reader with
  | .error e =>
      fileDescriptionClose reader
      fileDescriptionClose writer
      return .error e
  | .ok readerFd =>
      match ← processAllocFileDescriptor p (-1) writer with
      | .error e =>
          fileDescriptionClose reader
          fileDescriptionClose writer
          let _ ← processFreeFileDescriptor p readerFd
          return .error e
      | .ok _ => return .ok 0

/-- `sys_pipe`. -/
def sysPipe (p : P) (fifo : CreateChoice N) (readerChoice writerChoice : OpenChoice D) :
    Kernel (Files P D N S) (Except Errno Nat) := do
  match ← fifoCreateInode fifo with
  | .error e => return .error e
  | .ok n =>
      inodeRef (.node n)
      match ← inodeOpen (.node n) O_RDONLY readerChoice with
      | .error e =>
          inodeUnref (.node n)
          return .error e
      | .ok reader =>
          match ← inodeOpen (.node n) O_WRONLY writerChoice with
          | .error e =>
              fileDescriptionClose reader
              return .error e
          | .ok writer => pipeAllocFds p reader writer

/-- `unix_socket_create`. When there is no memory for a buffer the socket stays allocated. -/
def unixSocketCreate (choice : CreateChoice S) : Kernel (Files P D N S) (Except Errno S) := do
  match choice.block with
  | none => return .error .ENOMEM
  | some k =>
      modify fun s => s.newSocket k
        { refCount := 1, backlog := 0, numPending := 0, next := none, connected := false, connectorFd := none }
      if !choice.buffers then
        return .error .ENOMEM
      return .ok k

abbrev AF_UNIX : Int := 1

abbrev SOCK_STREAM : Int := 1

/-- `sys_socket`. -/
def sysSocket (p : P) (domain type : Int) (create : CreateChoice S) (choice : OpenChoice D) :
    Kernel (Files P D N S) (Except Errno Nat) := do
  if domain ≠ AF_UNIX ∨ type ≠ SOCK_STREAM then
    return .error .EAFNOSUPPORT
  match ← unixSocketCreate create with
  | .error e => return .error e
  | .ok k =>
      inodeRef (.socket k)
      match ← inodeOpen (.socket k) O_RDWR choice with
      | .error e => return .error e
      | .ok d => processAllocFileDescriptor p (-1) d

/-- What the allocations of `sys_fork` are answered, in order, and the new process with its pid. -/
structure ForkChoice (P : Type) where
  child : P
  pid : Nat
  process : Bool
  pageDirectory : Option Errno
  cwdPath : Bool
  table : Bool
  stack : Bool

/-- `sys_fork`, without the page directory, the registers and the working directory of the child. A child
    that is not registered stays allocated. -/
def sysFork (p : P) (choice : ForkChoice P) : Kernel (Files P D N S) (Except Errno Nat) := do
  if !choice.process then
    return .error .ENOMEM
  match choice.pageDirectory with
  | some e => return .error e
  | none =>
      if !choice.cwdPath then
        return .error .ENOMEM
      match ← fileDescriptorTableCloneFrom choice.child p choice.table with
      | .error e => return .error e
      | .ok _ =>
          if !choice.stack then
            return .error .ENOMEM
          modify fun s => { s with registered := Function.update s.registered choice.child true }
          return .ok choice.pid

/-- `process_exit`: what `die` does with the table. The process with the pid 1 must not exit. -/
def processExit (p : P) : Kernel (Files P D N S) (Except Errno Nat) := do
  assert (p ≠ (← get).init)
  fileDescriptorTableDestroy p
  modify fun s => { s with registered := Function.update s.registered p false }
  return .ok 0

end Updates

/-! ### Runs -/

/-- The calls on descriptors. -/
inductive FileCall (P D N S : Type) where
  | open (path : PathOutcome N) (flags : Nat) (choice : OpenChoice D)
  | close (fd : Int)
  | fcntl (fd : Int) (cmd : FcntlCmd) (arg : Nat)
  | dup2 (oldfd newfd : Int)
  | pipe (fifo : CreateChoice N) (reader writer : OpenChoice D)
  | socket (domain type : Int) (create : CreateChoice S) (choice : OpenChoice D)
  | fork (choice : ForkChoice P)
  | exit

section Runs

variable {P D N S : Type} [DecidableEq P] [DecidableEq D] [DecidableEq N] [DecidableEq S]

namespace FileCall

/-- What a process runs for a call. -/
def run (p : P) : FileCall P D N S → Kernel (Files P D N S) (Except Errno Nat)
  | .open path flags choice => sysOpen p path flags choice
  | .close fd => sysClose p fd
  | .fcntl fd cmd arg => sysFcntl p fd cmd arg
  | .dup2 oldfd newfd => sysDup2 p oldfd newfd
  | .pipe fifo reader writer => sysPipe p fifo reader writer
  | .socket domain type create choice => sysSocket p domain type create choice
  | .fork choice => sysFork p choice
  | .exit => processExit p

end FileCall

/-- A block that is handed out is not in use. -/
def OpenChoice.Fresh (s : Files P D N S) (choice : OpenChoice D) : Prop :=
  ∀ d, choice.block = some d → s.descLive d = false

/-- An inode that is found exists; one that is created does not yet, and it is created only with
    `O_CREAT`. With `O_EXCL` none is found. -/
def PathOutcome.Fits (s : Files P D N S) (flags : Nat) : PathOutcome N → Prop
  | .error _ => True
  | .found n => s.nodeLive n = true ∧ ¬(HasFlag flags O_CREAT ∧ HasFlag flags O_EXCL)
  | .created n => s.nodeLive n = false ∧ HasFlag flags O_CREAT

/-- What the call is answered is possible: the blocks it is handed out are not in use and different from each
    other. -/
def FileCall.Fresh (s : Files P D N S) : FileCall P D N S → Prop
  | .open path flags choice => path.Fits s flags ∧ choice.Fresh s
  | .pipe fifo reader writer =>
      (∀ n, fifo.block = some n → s.nodeLive n = false) ∧ reader.Fresh s ∧ writer.Fresh s ∧
        ∀ d, reader.block = some d → writer.block ≠ some d
  | .socket _ _ create choice => (∀ k, create.block = some k → s.socketLive k = false) ∧ choice.Fresh s
  | .fork choice => s.registered choice.child = false
  | _ => True

/-- A call by a process, and what it returns. -/
structure DescriptorEvent (P D N S : Type) where
  process : P
  call : FileCall P D N S
  result : Except Errno Nat

/-- No descriptor is open and no inode of a socket exists; the files and the processes are any. -/
def Files.Initial (s : Files P D N S) : Prop :=
  (∀ p fd, s.entries p fd = none) ∧ (∀ d, s.descLive d = false ∧ s.opened d = 0 ∧ s.closed d = 0) ∧
    ∀ k, s.socketLive k = false

/-- Any number of processes with their calls. -/
def descriptorSystem (P D N S : Type) [DecidableEq P] [DecidableEq D] [DecidableEq N] [DecidableEq S] :
    TransitionSystem (Files P D N S) (DescriptorEvent P D N S) where
  init s := s.Initial
  step s e s' :=
    s.registered e.process = true ∧ e.call.Fresh s ∧ e.call.run e.process s = .ok (e.result, s')

end Runs

end Chaotix
