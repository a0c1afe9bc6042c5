/-
Module: Chaotix.Kernel.Directory
Layer: Kernel
Purpose: The names of one tmpfs directory and the processes that create, link and unlink them. The functions
  of `kernel/fs/dentry.c` run under the `children_lock` of the directory, one section at a time;
  `create_inode`, `sys_link` and `sys_unlink` of any number of processes are interleaved between the
  sections. Paths are resolved up to the directory, and what memory allocations and look-ups outside of it
  answer is given from outside. Reference counts and link counts are left out.
Imports: Mathlib.Logic.Function.Basic, Chaotix.Lib.Transition, Chaotix.Kernel.FileDescriptors
Trusted boundary: human-reviewed model of `kernel/fs/dentry.c`, of `create_inode` and `vfs_open` of
  `kernel/fs/vfs.c`, of `inode_open` of `kernel/fs/fs.c`, of `tmpfs_lookup_child`, `tmpfs_link_child`,
  `tmpfs_unlink_child` and `tmpfs_create_child` of `kernel/fs/tmpfs.c`, and of `sys_mkdir`, `sys_link` and
  `sys_unlink` of `kernel/syscall/fs.c`
Main exports: Dentry, dentryFind, dentryAppend, dentryRemove, Creation, DirCall, DirPc, DirState, DirEvent, DirStep,
  directorySystem
-/
import Mathlib.Logic.Function.Basic
import Chaotix.Lib.Transition
import Chaotix.Kernel.FileDescriptors

namespace Chaotix

/-- `S_ISBLK(mode) || S_ISCHR(mode)`. -/
def FileType.isDevice : FileType → Bool
  | .S_IFCHR => true
  | .S_IFBLK => true
  | _ => false

/-! ### The entries of a directory -/

/-- `struct dentry`, without `next`: a directory is the list of its entries. -/
structure Dentry (N I : Type) where
  name : N
  inode : I

section Entries

variable {N I : Type} [DecidableEq N]

/-- `dentry_find`. -/
def dentryFind : List (Dentry N I) → N → Except Errno I
  | [], _ => .error .ENOENT
  | dentry :: rest, name => if dentry.name = name then .ok dentry.inode else dentryFind rest name

/-- `dentry_append`, where `allocated` says whether there is memory for the entry. -/
def dentryAppend : List (Dentry N I) → N → I → Bool → Except Errno (List (Dentry N I))
  | [], name, child, allocated => if allocated then .ok [{ name := name, inode := child }] else .error .ENOMEM
  | it :: rest, name, child, allocated =>
      if it.name = name then .error .EEXIST
      else (dentryAppend rest name child allocated).map (it :: ·)

/-- `dentry_remove`. -/
def dentryRemove : List (Dentry N I) → N → Except Errno (I × List (Dentry N I))
  | [], _ => .error .ENOENT
  | it :: rest, name =>
      if it.name = name then .ok (it.inode, rest)
      else (dentryRemove rest name).map fun r => (r.1, it :: r.2)

/-- `tmpfs_create_child`, with whether there is memory for the inode and for the entry. -/
def tmpfsCreateChild (entries : List (Dentry N I)) (name : N) (child : I) (inodeAllocated allocated : Bool) :
    Except Errno (List (Dentry N I)) :=
  if !inodeAllocated then .error .ENOMEM else dentryAppend entries name child allocated

end Entries

/-! ### Calls -/

/-- The arguments of `create_inode`, and whether the caller is `vfs_open`, which goes on with `inode_open`, and with
    `O_WRONLY` or not; otherwise it is `vfs_create`. -/
structure Creation (N : Type) where
  name : N
  type : FileType
  exclusive : Bool
  opens : Option Bool

/-- The calls on names of the directory. `sys_link` has already found the inode `target`. -/
inductive DirCall (N I : Type) where
  | create (c : Creation N)
  | link (target : I) (name : N)
  | unlink (name : N)

/-- `vfs_open` with `O_CREAT`. -/
def vfsOpenCall {N I : Type} (name : N) (exclusive writable : Bool) (type : FileType) : DirCall N I :=
  .create { name := name, type := type, exclusive := exclusive, opens := some writable }

/-- `sys_mkdir`. -/
def sysMkdirCall {N I : Type} (name : N) : DirCall N I :=
  .create { name := name, type := .S_IFDIR, exclusive := true, opens := none }

/-- The name that a call is about. -/
def DirCall.name {N I : Type} : DirCall N I → N
  | .create c => c.name
  | .link _ name => name
  | .unlink name => name

/-- Where a process is. A description that has been opened is known by its inode. -/
inductive DirPc (N I : Type) where
  | outside
  | resolve (call : DirCall N I)
  | createChild (c : Creation N)
  | lookupChild (c : Creation N)
  | openInode (c : Creation N) (writable : Bool) (inode : I)
  | linkChild (target : I) (name : N)
  | unlinkChild (name : N)
  | done (call : DirCall N I) (result : Except Errno (Option I))

section Functions

variable {N I : Type}

/-- `create_inode` returns an inode. -/
def Creation.found (c : Creation N) (inode : I) : DirPc N I :=
  match c.opens with
  | none => .done (.create c) (.ok none)
  | some writable => .openInode c writable inode

/-- What the callers of `vfs_resolve_path` do with what it returns. -/
def afterResolve (type : I → FileType) : DirCall N I → Except Errno I → DirPc N I
  | .create c, .ok inode => if c.exclusive then .done (.create c) (.error .EEXIST) else c.found inode
  | .create c, .error e => if e = .ENOENT then .createChild c else .done (.create c) (.error e)
  | .link target name, .ok _ => .done (.link target name) (.error .EEXIST)
  | .link target name, .error e =>
      if e = .ENOENT then .linkChild target name else .done (.link target name) (.error e)
  | .unlink name, .ok inode =>
      if type inode = .S_IFDIR then .done (.unlink name) (.error .EPERM) else .unlinkChild name
  | .unlink name, .error e => .done (.unlink name) (.error e)

/-- The loop of `create_inode` after `inode_create_child`. -/
def afterCreateChild (c : Creation N) (inode : I) : Except Errno (List (Dentry N I)) → DirPc N I
  | .ok _ => c.found inode
  | .error e => if e ≠ .EEXIST ∨ c.exclusive then .done (.create c) (.error e) else .lookupChild c

/-- The loop of `create_inode` after `inode_lookup_child`. -/
def afterLookupChild (c : Creation N) : Except Errno I → DirPc N I
  | .ok inode => c.found inode
  | .error e => if e ≠ .ENOENT then .done (.create c) (.error e) else .createChild c

/-- `inode_open`: whether there is memory for the description, and what `fops->open` returns if there is one. -/
def inodeOpenResult (type : I → FileType) (writable allocated : Bool) (fopsOpen : Option (Except Errno Unit))
    (inode : I) : Except Errno (Option I) :=
  if type inode = .S_IFDIR ∧ writable then .error .EISDIR
  else if !allocated then .error .ENOMEM
  else
    match fopsOpen with
    | some (.error e) => .error e
    | _ => .ok (some inode)

/-- The rest of `vfs_open`, once there is an inode; `device` is what `find_device` answers. -/
def vfsOpenResult (type : I → FileType) (writable allocated : Bool) (fopsOpen : Option (Except Errno Unit))
    (device : Option I) (inode : I) : Except Errno (Option I) :=
  if (type inode).isDevice then
    match device with
    | none => .error .ENODEV
    | some device => inodeOpenResult type writable allocated fopsOpen device
  else inodeOpenResult type writable allocated fopsOpen inode

end Functions

/-! ### Processes -/

/-- The entries, the inodes that exist, and where every process is. -/
structure DirState (P N I : Type) where
  entries : List (Dentry N I)
  inodes : I → Prop
  pc : P → DirPc N I

/-- The entries after a section that may fail. -/
def entriesAfter {N I : Type} (entries : List (Dentry N I)) :
    Except Errno (List (Dentry N I)) → List (Dentry N I)
  | .ok entries' => entries'
  | .error _ => entries

/-- One step of a process: a call, one section, or a return. The flags say whether there was memory. -/
inductive DirEvent (P N I : Type) where
  | call (p : P) (call : DirCall N I)
  | resolve (p : P) (allocated : Bool)
  | createChild (p : P) (allocated : Bool)
  | lookupChild (p : P)
  | openInode (p : P) (allocated : Bool)
  | linkChild (p : P) (allocated : Bool)
  | unlinkChild (p : P) (name : N)
  | returns (p : P) (call : DirCall N I) (result : Except Errno (Option I))

/-- What is known of inodes: the file type of each, which never changes, whether its `fops` have an `open`, and
    whether it belongs to the file system of the directory. -/
structure Inodes (I : Type) where
  type : I → FileType
  hasOpen : I → Bool
  sameRoot : I → Bool

section Steps

variable {P N I : Type} [DecidableEq P] [DecidableEq N]

/-- A process goes on somewhere. -/
def DirState.setPc (s : DirState P N I) (p : P) (pc : DirPc N I) : DirState P N I :=
  { s with pc := Function.update s.pc p pc }

/-- The steps of the processes. What is mounted on an inode is a directory, and what is registered as a device is
    a device. -/
inductive DirStep (inodes : Inodes I) : DirState P N I → DirEvent P N I → DirState P N I → Prop where
  | call {s : DirState P N I} (p : P) (call : DirCall N I) :
      s.pc p = .outside → DirStep inodes s (.call p call) (s.setPc p (.resolve call))
  | resolve {s : DirState P N I} (p : P) (call : DirCall N I) (guest : Option I) :
      s.pc p = .resolve call → (∀ g, guest = some g → inodes.type g = .S_IFDIR) →
      DirStep inodes s (.resolve p true)
        (s.setPc p (afterResolve inodes.type call
          ((dentryFind s.entries call.name).map fun child => guest.getD child)))
  | resolveFails {s : DirState P N I} (p : P) (call : DirCall N I) :
      s.pc p = .resolve call →
      DirStep inodes s (.resolve p false) (s.setPc p (.done call (.error .ENOMEM)))
  | createChild {s : DirState P N I} (p : P) (c : Creation N) (child : I) (inodeAllocated allocated : Bool) :
      s.pc p = .createChild c → ¬s.inodes child → inodes.type child = c.type → inodes.hasOpen child = false →
      DirStep inodes s (.createChild p (inodeAllocated && allocated))
        ({ s with
            entries := entriesAfter s.entries
              (tmpfsCreateChild s.entries c.name child inodeAllocated allocated)
            inodes := fun i => s.inodes i ∨ i = child }.setPc p
          (afterCreateChild c child (tmpfsCreateChild s.entries c.name child inodeAllocated allocated)))
  | lookupChild {s : DirState P N I} (p : P) (c : Creation N) :
      s.pc p = .lookupChild c →
      DirStep inodes s (.lookupChild p) (s.setPc p (afterLookupChild c (dentryFind s.entries c.name)))
  | openInode {s : DirState P N I} (p : P) (c : Creation N) (writable : Bool) (inode : I) (device : Option I)
      (fopsOpen : Option (Except Errno Unit)) (allocated : Bool) :
      s.pc p = .openInode c writable inode →
      (∀ d, device = some d → (inodes.type d).isDevice = true) →
      ((inodes.type inode).isDevice = false → inodes.hasOpen inode = false → fopsOpen = none) →
      DirStep inodes s (.openInode p allocated)
        (s.setPc p (.done (.create c) (vfsOpenResult inodes.type writable allocated fopsOpen device inode)))
  | linkOther {s : DirState P N I} (p : P) (target : I) (name : N) :
      s.pc p = .linkChild target name → inodes.sameRoot target = false →
      DirStep inodes s (.linkChild p true) (s.setPc p (.done (.link target name) (.error .EXDEV)))
  | linkChild {s : DirState P N I} (p : P) (target : I) (name : N) (allocated : Bool) :
      s.pc p = .linkChild target name → inodes.sameRoot target = true →
      DirStep inodes s (.linkChild p allocated)
        ({ s with entries := entriesAfter s.entries (dentryAppend s.entries name target allocated) }.setPc p
          (.done (.link target name) ((dentryAppend s.entries name target allocated).map fun _ => none)))
  | unlinkChild {s : DirState P N I} (p : P) (name : N) :
      s.pc p = .unlinkChild name →
      DirStep inodes s (.unlinkChild p name)
        ({ s with
            entries := entriesAfter s.entries ((dentryRemove s.entries name).map Prod.snd) }.setPc p
          (.done (.unlink name) ((dentryRemove s.entries name).map fun _ => none)))
  | returns {s : DirState P N I} (p : P) (call : DirCall N I) (result : Except Errno (Option I)) :
      s.pc p = .done call result →
      DirStep inodes s (.returns p call result) (s.setPc p .outside)

/-- A new directory and any number of processes. -/
def directorySystem (P N I : Type) [DecidableEq P] [DecidableEq N] (inodes : Inodes I) :
    TransitionSystem (DirState P N I) (DirEvent P N I) where
  init s := s.entries = [] ∧ ∀ p, s.pc p = .outside
  step := DirStep inodes

end Steps

end Chaotix
