/-
Module: Chaotix.Kernel.Vfs
Layer: Kernel
Purpose: The tree of inodes of tmpfs and procfs, with reference counts, and the walk of a pathname through it, which
  crosses mount points. A look-up of a number in the root of procfs creates the directory of a process. The locks of
  directories are left out: a walk runs alone.
Imports: Chaotix.Lib.Transition, Chaotix.Kernel.Path, Chaotix.Kernel.Directory, Chaotix.Kernel.FbConsole
Trusted boundary: human-reviewed model of `vfs_get_root`, `find_mounted_guest` and `vfs_resolve_path` of
  `kernel/fs/vfs.c`, of `inode_ref`, `inode_unref`, `inode_destroy` and `inode_lookup_child` of `kernel/fs/fs.c`, of
  the look-ups of `kernel/fs/tmpfs.c` and `kernel/fs/procfs`, of `dentry_append` and `dentry_clear` of
  `kernel/fs/dentry.c`, and of `sys_chdir` of `kernel/syscall/process.c`
Main exports: Vfs.FileOps, Vfs.Inode, Vfs.State, inodeUnref, inodeLookupChild, procfsPidDirInodeCreate, Vfs.Resolved,
  vfsResolvePath, Vfs.Processes, sysChdir, CwdStep, cwdSystem
-/
import Chaotix.Lib.Transition
import Chaotix.Kernel.Path
import Chaotix.Kernel.Directory
import Chaotix.Kernel.FbConsole

namespace Chaotix

/-- `S_IFMT`. -/
abbrev S_IFMT : Nat := 0o170000

/-- `S_IFDIR`. -/
abbrev S_IFDIR : Nat := 0o040000

/-- `S_IFREG`. -/
abbrev S_IFREG : Nat := 0o100000

/-- `S_ISDIR(mode)`. -/
def sIsDir (mode : Nat) : Bool := mode &&& S_IFMT == S_IFDIR

namespace Vfs

open Pathname

/-! ### Inodes -/

/-- The tables of functions, `file_ops`: the ones of the directories and of the other inodes of tmpfs, of the root of
    procfs, of the other directories of procfs, and of the files of procfs. -/
inductive FileOps where
  | tmpfsDir
  | tmpfsNonDir
  | procfsRoot
  | procfsDir
  | procfsItem
deriving DecidableEq, Repr

/-- `fops->lookup_child` is not `NULL`. -/
def FileOps.hasLookupChild : FileOps → Bool
  | .tmpfsDir | .procfsRoot | .procfsDir => true
  | .tmpfsNonDir | .procfsItem => false

/-- `struct inode`, with the `children` of `tmpfs_inode` and `procfs_dir_inode`. -/
structure Inode where
  fops : FileOps
  mode : Nat
  numLinks : Nat := 0
  refCount : Nat := 1
  children : List (Dentry Chars Nat) := []

/-- The inodes by their addresses, `root`, `mount_points` with their hosts and guests, and the process identifiers of
    `all_processes`. `nextInode` is the address that the next inode gets. -/
structure State where
  inodes : Nat → Option Inode
  nextInode : Nat
  root : Nat
  mountPoints : List (Nat × Nat) := []
  pids : List Nat := []
  allocations : Allocations

/-- Run a function that only allocates. -/
def onAllocations {α : Type} (m : Kernel Allocations α) : Kernel State α :=
  Program.focus State.allocations (fun allocations s => { s with allocations := allocations }) m

/-- The inode at an address. An inode that has been freed is not accessed. -/
def getInode (i : Nat) : Kernel State Inode := do
  match (← get).inodes i with
  | none => throw .fault
  | some inode => return inode

/-- Store to the inode at an address. -/
def setInode (i : Nat) (inode : Inode) : Kernel State Unit :=
  modify fun s => { s with inodes := Function.update s.inodes i (some inode) }

/-- `kfree(inode)`. -/
def freeInode (i : Nat) : Kernel State Unit :=
  modify fun s => { s with inodes := Function.update s.inodes i none }

/-- `inode_ref`. -/
def inodeRef (i : Nat) : Kernel State Unit := do
  let inode ← getInode i
  setInode i { inode with refCount := inode.refCount + 1 }

/-- The body of the loop of `dentry_clear`, where `unref` is `inode_unref`. -/
def clearDentry (unref : Nat → Kernel State Unit) (dentry : Dentry Chars Nat) : Kernel State Unit := do
  let child ← getInode dentry.inode
  assert (child.numLinks > 0)
  setInode dentry.inode { child with numLinks := child.numLinks - 1 }
  unref dentry.inode

/-- `inode_unref` with `inode_destroy`, which goes on to the children of a directory. An inode is destroyed once, so the
    calls are not nested deeper than there are inodes. -/
def unrefNested : Nat → Nat → Kernel State Unit
  | 0, _ => throw .hang
  | n + 1, i => do
      let inode ← getInode i
      assert (inode.refCount > 0)
      setInode i { inode with refCount := inode.refCount - 1 }
      if inode.refCount - 1 = 0 ∧ inode.numLinks = 0 then
        inode.children.forM (clearDentry (unrefNested n))
        freeInode i
      else
        return ()

/-- `inode_unref`. -/
def inodeUnref (i : Nat) : Kernel State Unit := do
  unrefNested ((← get).nextInode + 1) i

/-- `kmalloc` of an inode: its address, and its fields. -/
def createInode (inode : Inode) : Kernel State (Option Nat) := do
  if ← onAllocations kmallocAnswer then
    let i := (← get).nextInode
    modify fun s => { s with nextInode := i + 1 }
    setInode i inode
    return some i
  else
    return none

/-! ### Looking up names -/

/-- `dentry_append` on the children of a directory. -/
def appendChild (dir : Nat) (name : Chars) (child : Nat) : Kernel State (Except Errno Unit) := do
  let node ← getInode dir
  match dentryAppend node.children name child true with
  | .error e => return .error e
  | .ok children =>
      if !(← onAllocations kmallocAnswer) then
        return .error .ENOMEM
      else
        match ← onAllocations (kstrdup name) with
        | none => return .error .ENOMEM
        | some _ => do
            setInode dir { node with children := children }
            let inode ← getInode child
            setInode child { inode with numLinks := inode.numLinks + 1 }
            return .ok ()

/-- `dentry_find` on the children of a directory, and the release of the directory. -/
def findChild (dir : Nat) (name : Chars) : Kernel State (Except Errno Nat) := do
  let node ← getInode dir
  match dentryFind node.children name with
  | .error e => do
      inodeUnref dir
      return .error e
  | .ok child => do
      inodeRef child
      inodeUnref dir
      return .ok child

/-- `tmpfs_lookup_child`. -/
def tmpfsLookupChild (inode : Nat) (name : Chars) : Kernel State (Except Errno Nat) := findChild inode name

/-- `procfs_dir_lookup_child`. -/
def procfsDirLookupChild (inode : Nat) (name : Chars) : Kernel State (Except Errno Nat) := findChild inode name

/-- `pid_items`, by their names. -/
def pidItems : List Chars := ["comm".toList.map Char.toUInt8]

/-- `add_item` of `pid.c`. -/
def addItem (parent : Nat) (name : Chars) : Kernel State (Except Errno Unit) := do
  match ← createInode { fops := .procfsItem, mode := S_IFREG } with
  | none => return .error .ENOMEM
  | some inode => appendChild parent name inode

/-- The loop over `pid_items`. -/
def addItems (parent : Nat) : List Chars → Kernel State (Except Errno Unit)
  | [] => return .ok ()
  | name :: rest => do
      match ← addItem parent name with
      | .error e => return .error e
      | .ok () => addItems parent rest

/-- `procfs_pid_dir_inode_create`. The errors leave the reference to the parent as it is. -/
def procfsPidDirInodeCreate (parent pid : Nat) : Kernel State (Except Errno Nat) := do
  if pid ∉ (← get).pids then
    return .error .ENOENT
  else
    match ← createInode { fops := .procfsDir, mode := S_IFDIR } with
    | none => return .error .ENOMEM
    | some inode => do
        match ← addItems inode pidItems with
        | .error e => return .error e
        | .ok () => do
            inodeUnref parent
            return .ok inode

/-- `str_is_uint`. -/
def strIsUint (s : Chars) : Bool := s.all fun c => '0'.toNat ≤ c.toNat && c.toNat ≤ '9'.toNat

/-- `procfs_root_lookup_child`. -/
def procfsRootLookupChild (inode : Nat) (name : Chars) : Kernel State (Except Errno Nat) :=
  if strIsUint name then procfsPidDirInodeCreate inode (FbConsole.atoi name) else procfsDirLookupChild inode name

/-- `inode_lookup_child`. -/
def inodeLookupChild (i : Nat) (name : Chars) : Kernel State (Except Errno Nat) := do
  let inode ← getInode i
  if !inode.fops.hasLookupChild || !sIsDir inode.mode then
    inodeUnref i
    return .error .ENOTDIR
  else
    match inode.fops with
    | .procfsRoot => procfsRootLookupChild i name
    | .procfsDir => procfsDirLookupChild i name
    | _ => tmpfsLookupChild i name

/-! ### Walks -/

/-- `vfs_get_root`. -/
def vfsGetRoot : Kernel State Nat := do
  let root := (← get).root
  inodeRef root
  return root

/-- `find_mounted_guest`. -/
def findMountedGuest (host : Nat) : Kernel State (Option Nat) := do
  match (← get).mountPoints.find? fun mp => mp.1 = host with
  | some mp => do
      inodeUnref host
      inodeRef mp.2
      return some mp.2
  | none => do
      inodeUnref host
      return none

/-- What `vfs_resolve_path` returns, and what it has stored in `*out_parent` and `*out_basename`. -/
structure Resolved where
  inode : Except Errno Nat
  parent : Option Nat := none
  basename : Option Chars := none
deriving DecidableEq

/-- What is done before the look-up of the last component: `*out_basename` and `*out_parent` are stored. -/
def storeLast (outParent outBasename : Bool) (parent : Nat) (component : Chars) :
    Kernel State (Except Errno (Option Nat × Option Chars)) := do
  let basename ← if outBasename then onAllocations (kstrdup component) else pure none
  if outBasename && basename.isNone then
    inodeUnref parent
    return .error .ENOMEM
  else if outParent then
    inodeRef parent
    return .ok (some parent, basename)
  else
    return .ok (none, basename)

/-- The look-up of one component, and the inode that is mounted on what it finds. -/
def stepInto (parent : Nat) (component : Chars) : Kernel State (Except Errno Nat) := do
  match ← inodeLookupChild parent component with
  | .error e => return .error e
  | .ok child => do
      inodeRef child
      match ← findMountedGuest child with
      | some guest => do
          inodeUnref child
          return .ok guest
      | none => return .ok child

/-- The loop of `vfs_resolve_path` from the component with number `i` on. -/
def walkComponents (outParent outBasename : Bool) (numComponents : Nat) : Nat → List Chars → Nat → Kernel State Resolved
  | _, [], parent => return { inode := .ok parent }
  | i, component :: rest, parent => do
      if i = numComponents - 1 then
        match ← storeLast outParent outBasename parent component with
        | .error e => return { inode := .error e }
        | .ok (storedParent, storedBasename) =>
            match ← stepInto parent component with
            | .error e => return { inode := .error e, parent := storedParent, basename := storedBasename }
            | .ok child => do
                let r ← walkComponents outParent outBasename numComponents (i + 1) rest child
                return { r with parent := storedParent, basename := storedBasename }
      else
        match ← stepInto parent component with
        | .error e => return { inode := .error e }
        | .ok child => walkComponents outParent outBasename numComponents (i + 1) rest child

/-- `vfs_resolve_path` by a process whose `cwd_path` is given; the flags say whether `out_parent` and `out_basename`
    are not `NULL`. -/
def vfsResolvePath (cwdPath pathname : Chars) (outParent outBasename : Bool) : Kernel State Resolved := do
  match ← onAllocations (createPathComponentList cwdPath pathname) with
  | .error e => return { inode := .error e }
  | .ok cs =>
      if cs.numComponents = 0 then
        return { inode := .ok (← vfsGetRoot) }
      else
        walkComponents outParent outBasename cs.numComponents 0 cs.list (← vfsGetRoot)

/-! ### Working directories -/

/-- `cwd_path` and `cwd_inode` of a process. -/
structure Cwd where
  path : Chars
  inode : Nat
deriving DecidableEq

/-- The file systems, and the working directories of the processes. -/
structure Processes (P : Type) where
  vfs : State
  cwd : P → Option Cwd

variable {P : Type}

/-- Run a function of the file systems. -/
def onVfs {α : Type} (m : Kernel State α) : Kernel (Processes P) α :=
  Program.focus Processes.vfs (fun vfs s => { s with vfs := vfs }) m

variable [DecidableEq P]

/-- `sys_chdir` by the process `current`. -/
def sysChdir (current : P) (path : Chars) : Kernel (Processes P) (Except Errno Unit) := do
  match (← get).cwd current with
  | none => throw .fault
  | some cwd =>
      match ← onVfs (onAllocations (vfsCanonicalizePath cwd.path path)) with
      | .error e => return .error e
      | .ok newCwdPath =>
          let resolved ← onVfs (vfsResolvePath cwd.path path false false)
          match resolved.inode with
          | .error e => return .error e
          | .ok i => do
              let inode ← onVfs (getInode i)
              if !sIsDir inode.mode then
                onVfs (inodeUnref i)
                return .error .ENOTDIR
              else
                onVfs (inodeUnref cwd.inode)
                modify fun s =>
                  { s with cwd := Function.update s.cwd current (some { path := newCwdPath, inode := i }) }
                return .ok ()

/-- What happens to working directories. -/
inductive CwdEvent (P : Type) where
  | create (p : P)
  | fork (parent child : P)
  | chdir (p : P) (path : Chars) (result : Except Errno Unit)
  | exit (p : P)
  | other

/-- The calls that return, and whatever else changes the file systems. A new process starts in the root directory, and
    a forked one where its parent is. -/
inductive CwdStep : Processes P → CwdEvent P → Processes P → Prop where
  | create {s : Processes P} (p : P) (vfs : State) : s.cwd p = none →
      CwdStep s (.create p)
        { vfs := vfs, cwd := Function.update s.cwd p (some { path := ROOT_DIR, inode := s.vfs.root }) }
  | fork {s : Processes P} (parent child : P) (cwd : Cwd) (vfs : State) :
      s.cwd parent = some cwd → s.cwd child = none →
      CwdStep s (.fork parent child) { vfs := vfs, cwd := Function.update s.cwd child (some cwd) }
  | chdir {s s' : Processes P} (p : P) (path : Chars) (result : Except Errno Unit) :
      sysChdir p path s = .ok (result, s') → CwdStep s (.chdir p path result) s'
  | exit {s : Processes P} (p : P) (vfs : State) :
      CwdStep s (.exit p) { vfs := vfs, cwd := Function.update s.cwd p none }
  | other {s : Processes P} (vfs : State) : CwdStep s .other { s with vfs := vfs }

/-- No processes. -/
def cwdSystem (P : Type) [DecidableEq P] : TransitionSystem (Processes P) (CwdEvent P) where
  init s := ∀ p, s.cwd p = none
  step := CwdStep

end Vfs

end Chaotix
