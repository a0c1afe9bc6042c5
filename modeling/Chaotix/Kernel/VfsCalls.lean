/-
Module: Chaotix.Kernel.VfsCalls
Layer: Kernel
Purpose: The system calls that change the tree of inodes or refer to it: `open`, `close`, `mkdir`, `mknod`, `link`,
  `unlink`, `rename`, `rmdir`, `chdir`, `fork` and `exit`, as far as they use inodes. Calls run one after another. The
  contents of files are left out, and so is whatever a device does; an open description is the inode it refers to.
Imports: Chaotix.Lib.Transition, Chaotix.Kernel.Getdents, Chaotix.Kernel.Vfs
Trusted boundary: human-reviewed model of `create_inode`, `vfs_open` and `vfs_create` of `kernel/fs/vfs.c`, of
  `inode_create_child`, `inode_link_child`, `inode_unlink_child`, `inode_open` and `file_description_close` of
  `kernel/fs/fs.c`, of `tmpfs_create_child`, `tmpfs_link_child` and `tmpfs_unlink_child` of `kernel/fs/tmpfs.c`, of
  `dentry_remove` of `kernel/fs/dentry.c`, and of the calls named above of `kernel/syscall/fs.c` and
  `kernel/syscall/process.c`
Main exports: Vfs.Calls.Files, createInode, inodeLinkChild, inodeUnlinkChild, makeSureDirectoryIsEmpty, sysOpen, sysLink,
  sysUnlink, sysRename, sysRmdir, Call, runCall, filesSystem
-/
import Chaotix.Lib.Transition
import Chaotix.Kernel.Getdents
import Chaotix.Kernel.Vfs

namespace Chaotix

/-- `S_IFCHR`. -/
abbrev S_IFCHR : Nat := 0o020000

/-- `S_IFBLK`. -/
abbrev S_IFBLK : Nat := 0o060000

/-- `S_IFIFO`. -/
abbrev S_IFIFO : Nat := 0o010000

/-- `S_IFSOCK`. -/
abbrev S_IFSOCK : Nat := 0o140000

/-- `S_ISBLK(mode) || S_ISCHR(mode)`. -/
def sIsDevice (mode : Nat) : Bool := mode &&& S_IFMT == S_IFBLK || mode &&& S_IFMT == S_IFCHR

namespace Vfs

open Pathname

namespace Calls

/-! ### State -/

/-- What an open description refers to: an inode of the tree, or the inode of a registered device. -/
inductive Opened where
  | inode (i : Nat)
  | device (id : Nat)
deriving DecidableEq

/-- The inodes with the rest of what the calls use of them: `fs_root_inode` of the inodes of tmpfs, which is never that
    of an inode of procfs, and `device_id`. Further the ids in the list `devices`, the descriptions that are open, and
    the working directories of the processes, each in the order in which they were created. -/
structure Files where
  vfs : State
  fsRootInode : Nat → Option Nat
  deviceId : Nat → Nat := fun _ => 0
  devices : List Nat := []
  descriptions : List Opened := []
  cwds : List Cwd := []

/-- Run a function of the file systems. -/
def onVfs {α : Type} (m : Kernel State α) : Kernel Files α :=
  Program.focus Files.vfs (fun vfs s => { s with vfs := vfs }) m

/-- `inode_unref(inode)`, which may be `NULL`. -/
def inodeUnrefOption : Option Nat → Kernel State Unit
  | none => return ()
  | some i => inodeUnref i

/-! ### Inodes -/

/-- `fops->create_child`, `fops->link_child` and `fops->unlink_child` are not `NULL`. -/
def hasLinkChild : FileOps → Bool
  | .tmpfsDir => true
  | _ => false

/-- `tmpfs_link_child`. -/
def tmpfsLinkChild (inode : Nat) (name : Chars) (child : Nat) : Kernel State (Except Errno Unit) := do
  let rc ← appendChild inode name child
  inodeUnref inode
  return rc

/-- `dentry_remove` on the children of a directory. -/
def removeChild (dir : Nat) (name : Chars) : Kernel State (Except Errno Nat) := do
  let node ← getInode dir
  match dentryRemove node.children name with
  | .error e => return .error e
  | .ok (child, children) => do
      setInode dir { node with children := children }
      let inode ← getInode child
      assert (inode.numLinks > 0)
      setInode child { inode with numLinks := inode.numLinks - 1 }
      return .ok child

/-- `tmpfs_unlink_child`. -/
def tmpfsUnlinkChild (inode : Nat) (name : Chars) : Kernel State (Except Errno Nat) := do
  let child ← removeChild inode name
  inodeUnref inode
  return child

/-- `tmpfs_create_child`. Without memory for the inode the reference to the directory stays. -/
def tmpfsCreateChild (inode : Nat) (name : Chars) (mode : Nat) : Kernel Files (Except Errno Nat) := do
  let fops := if sIsDir mode then FileOps.tmpfsDir else FileOps.tmpfsNonDir
  match ← onVfs (Vfs.createInode { fops := fops, mode := mode }) with
  | none => return .error .ENOMEM
  | some child => do
      modify fun s => { s with fsRootInode := Function.update s.fsRootInode child (s.fsRootInode inode) }
      onVfs (inodeRef child)
      match ← onVfs (tmpfsLinkChild inode name child) with
      | .error e => do
          onVfs (freeInode child)
          return .error e
      | .ok () => return .ok child

/-- `inode_create_child`. -/
def inodeCreateChild (i : Nat) (name : Chars) (mode : Nat) : Kernel Files (Except Errno Nat) := do
  let inode ← onVfs (getInode i)
  if !hasLinkChild inode.fops || !sIsDir inode.mode then
    onVfs (inodeUnref i)
    return .error .ENOTDIR
  else
    assert (mode &&& S_IFMT ≠ 0)
    tmpfsCreateChild i name mode

/-- `inode_link_child`. -/
def inodeLinkChild (i : Nat) (name : Chars) (child : Nat) : Kernel Files (Except Errno Unit) := do
  let inode ← onVfs (getInode i)
  if !hasLinkChild inode.fops || !sIsDir inode.mode then
    onVfs (inodeUnref i)
    onVfs (inodeUnref child)
    return .error .ENOTDIR
  else if (← get).fsRootInode i ≠ (← get).fsRootInode child then
    onVfs (inodeUnref i)
    onVfs (inodeUnref child)
    return .error .EXDEV
  else
    onVfs (inodeRef child)
    match ← onVfs (tmpfsLinkChild i name child) with
    | .error e => do
        -- of the two references to the child, one stays
        onVfs (inodeUnref child)
        return .error e
    | .ok () => do
        onVfs (inodeUnref child)
        return .ok ()

/-- `inode_unlink_child`. -/
def inodeUnlinkChild (i : Nat) (name : Chars) : Kernel State (Except Errno Unit) := do
  let inode ← getInode i
  if !hasLinkChild inode.fops || !sIsDir inode.mode then
    inodeUnref i
    return .error .ENOTDIR
  else
    match ← tmpfsUnlinkChild i name with
    | .error e => return .error e
    | .ok child => do
        inodeUnref child
        return .ok ()

/-! ### Creating and opening -/

/-- The loop of `create_inode`, for so many rounds. -/
def createLoop (parent : Nat) (basename : Chars) (mode : Nat) (exclusive : Bool) : Nat → Kernel Files (Except Errno Nat)
  | 0 => throw .hang
  | rounds + 1 => do
      onVfs (inodeRef parent)
      match ← inodeCreateChild parent basename mode with
      | .ok inode => return .ok inode
      | .error e =>
          if e ≠ .EEXIST ∨ exclusive then
            return .error e
          else do
            onVfs (inodeRef parent)
            match ← onVfs (inodeLookupChild parent basename) with
            | .ok inode => return .ok inode
            | .error e => if e ≠ .ENOENT then return .error e else createLoop parent basename mode exclusive rounds

/-- `create_inode`. No other call runs at the same time, and there is no second round. -/
def createInode (cwdPath pathname : Chars) (mode : Nat) (exclusive : Bool) : Kernel Files (Except Errno Nat) := do
  let resolved ← onVfs (vfsResolvePath cwdPath pathname true true)
  match resolved.inode with
  | .ok inode => do
      onVfs (inodeUnrefOption resolved.parent)
      if exclusive then
        onVfs (inodeUnref inode)
        return .error .EEXIST
      else
        return .ok inode
  | .error e =>
      match resolved.parent, resolved.basename with
      | none, _ => return .error e
      | some parent, none => do
          if e ≠ .ENOENT then
            onVfs (inodeUnref parent)
            return .error e
          else
            throw .fault
      | some parent, some basename => do
          if e ≠ .ENOENT then
            onVfs (inodeUnref parent)
            return .error e
          else
            let inode ← createLoop parent basename mode exclusive 1
            onVfs (inodeUnref parent)
            return inode

/-- `vfs_create`. -/
def vfsCreate (cwdPath pathname : Chars) (mode : Nat) : Kernel Files (Except Errno Nat) :=
  createInode cwdPath pathname mode true

/-- `inode_open` on an inode of the tree, where `fopsOpen` is what `fops->open` returns for the files of procfs, the
    only ones that have it. -/
def inodeOpen (i flags : Nat) (fopsOpen : Except Errno Unit) : Kernel State (Except Errno Opened) := do
  let inode ← getInode i
  if sIsDir inode.mode ∧ HasFlag flags O_WRONLY then
    inodeUnref i
    return .error .EISDIR
  else if !(← onAllocations kmallocAnswer) then
    inodeUnref i
    return .error .ENOMEM
  else
    match if inode.fops = .procfsItem then fopsOpen else .ok () with
    | .error e => do
        inodeUnref i
        return .error e
    | .ok () => return .ok (.inode i)

/-- `inode_open` on the inode of a device, whose references are not counted here. -/
def deviceOpen (id : Nat) (fopsOpen : Except Errno Unit) : Kernel State (Except Errno Opened) := do
  if !(← onAllocations kmallocAnswer) then return .error .ENOMEM
  else return fopsOpen.map fun _ => .device id

/-- The inode with which `vfs_open` begins. -/
def resolveOrCreate (cwdPath pathname : Chars) (flags mode : Nat) : Kernel Files (Except Errno Nat) :=
  if HasFlag flags O_CREAT then createInode cwdPath pathname mode (HasFlag flags O_EXCL)
  else Resolved.inode <$> onVfs (vfsResolvePath cwdPath pathname false false)

/-- `vfs_open`. -/
def vfsOpen (cwdPath pathname : Chars) (flags mode : Nat) (fopsOpen : Except Errno Unit) :
    Kernel Files (Except Errno Opened) := do
  match ← resolveOrCreate cwdPath pathname flags mode with
  | .error e => return .error e
  | .ok i => do
      let inode ← onVfs (getInode i)
      if sIsDevice inode.mode then
        let id := (← get).deviceId i
        let device := id ∈ (← get).devices
        onVfs (inodeUnref i)
        if device then onVfs (deviceOpen id fopsOpen) else return .error .ENODEV
      else
        onVfs (inodeOpen i flags fopsOpen)

/-- `inode_unref(inode)` for what a description refers to. -/
def unrefOpened : Opened → Kernel State Unit
  | .inode i => inodeUnref i
  | .device _ => return ()

/-- `sys_open`, with whether a descriptor is free. Without one the description stays, and nothing refers to it. -/
def sysOpen (cwdPath pathname : Chars) (flags mode : Nat) (fopsOpen : Except Errno Unit) (descriptor : Bool) :
    Kernel Files (Except Errno Unit) := do
  match ← vfsOpen cwdPath pathname flags ((mode &&& 0o777) ||| S_IFREG) fopsOpen with
  | .error e => return .error e
  | .ok desc => do
      modify fun s => { s with descriptions := s.descriptions ++ [desc] }
      if descriptor then return .ok () else return .error .EMFILE

/-- `file_description_close` when the last descriptor is closed. -/
def closeDescription (k : Nat) : Kernel Files (Except Errno Unit) := do
  match (← get).descriptions[k]? with
  | none => return .error .EBADF
  | some desc => do
      modify fun s => { s with descriptions := s.descriptions.eraseIdx k }
      onVfs (unrefOpened desc)
      return .ok ()

/-! ### Changing the tree -/

/-- `sys_mkdir`. -/
def sysMkdir (cwdPath pathname : Chars) (mode : Nat) : Kernel Files (Except Errno Unit) := do
  match ← vfsCreate cwdPath pathname ((mode &&& 0o777) ||| S_IFDIR) with
  | .error e => return .error e
  | .ok inode => do
      onVfs (inodeUnref inode)
      return .ok ()

/-- `sys_mknod`. -/
def sysMknod (cwdPath pathname : Chars) (mode dev : Nat) : Kernel Files (Except Errno Unit) := do
  if mode &&& S_IFMT ∉ [S_IFREG, S_IFCHR, S_IFBLK, S_IFIFO, S_IFSOCK] then
    return .error .EINVAL
  else
    match ← vfsCreate cwdPath pathname mode with
    | .error e => return .error e
    | .ok inode => do
        modify fun s => { s with deviceId := Function.update s.deviceId inode dev }
        onVfs (inodeUnref inode)
        return .ok ()

/-- `sys_link`. -/
def sysLink (cwdPath oldpath newpath : Chars) : Kernel Files (Except Errno Unit) := do
  match (← onVfs (vfsResolvePath cwdPath oldpath false false)).inode with
  | .error e => return .error e
  | .ok oldInode => do
      if sIsDir (← onVfs (getInode oldInode)).mode then
        onVfs (inodeUnref oldInode)
        return .error .EPERM
      else
        let new ← onVfs (vfsResolvePath cwdPath newpath true true)
        match new.inode with
        | .ok newInode => do
            onVfs (inodeUnref oldInode)
            onVfs (inodeUnrefOption new.parent)
            onVfs (inodeUnref newInode)
            return .error .EEXIST
        | .error e =>
            if e ≠ .ENOENT then
              onVfs (inodeUnref oldInode)
              onVfs (inodeUnrefOption new.parent)
              return .error e
            else
              match new.parent with
              | none => do
                  onVfs (inodeUnref oldInode)
                  return .error .EPERM
              | some newParent =>
                  match new.basename with
                  | none => throw .panic
                  | some newBasename => inodeLinkChild newParent newBasename oldInode

/-- `sys_unlink`. -/
def sysUnlink (cwdPath pathname : Chars) : Kernel State (Except Errno Unit) := do
  let resolved ← vfsResolvePath cwdPath pathname true true
  match resolved.inode with
  | .error e => do
      inodeUnrefOption resolved.parent
      return .error e
  | .ok i =>
      match resolved.parent with
      | none => do
          inodeUnref i
          return .error .EPERM
      | some parent =>
          if sIsDir (← getInode i).mode then
            inodeUnref parent
            inodeUnref i
            return .error .EPERM
          else
            match resolved.basename with
            | none => throw .panic
            | some basename => do
                inodeUnref i
                inodeUnlinkChild parent basename

/-- What `file_description_getdents` returns for a new description of a directory with these children and a buffer of
    `count` bytes, once `nwritten` bytes are written. Behind its own entries, the root of procfs lists the processes;
    they are left out, as it always has entries. -/
def getdentsWritten : List (Dentry Chars Nat) → Nat → Nat
  | [], _ => 0
  | dentry :: rest, remainingCount =>
      let size := direntNameOffset + dentry.name.length + 1
      if remainingCount < size then 0 else size + getdentsWritten rest (remainingCount - size)

/-- `file_description_getdents` on a new description. -/
def getdents (inode : Inode) (count : Nat) : Except Errno Nat :=
  if !inode.fops.hasLookupChild || !sIsDir inode.mode then .error .ENOTDIR
  else
    let nwritten := getdentsWritten inode.children count
    -- the buffer is too small when an entry is left
    if nwritten = 0 ∧ inode.children ≠ [] then .error .EINVAL else .ok nwritten

/-- The loop of `make_sure_directory_is_empty`, for so many rounds: `nread` behind it. There is no memory for a block
    of half of the address space. -/
def emptinessLoop (inode : Inode) : Nat → Nat → Kernel Allocations (Except Errno Nat)
  | 0, _ => throw .hang
  | rounds + 1, capacity => do
      let buf ← kmallocAnswer
      if !buf || capacity ≥ 2 ^ 31 then
        return .error .ENOMEM
      else
        match getdents inode capacity with
        | .error .EINVAL => emptinessLoop inode rounds (capacity * 2)
        | nread => return nread

/-- `make_sure_directory_is_empty`. -/
def makeSureDirectoryIsEmpty (i : Nat) : Kernel State (Except Errno Unit) := do
  assert (sIsDir (← getInode i).mode = true)
  match ← inodeOpen i O_RDONLY (.ok ()) with
  | .error e => return .error e
  | .ok desc => do
      let nread ← onAllocations (emptinessLoop (← getInode i) 22 1024)
      unrefOpened desc
      match nread with
      | .error e => return .error e
      | .ok n => if n > 0 then return .error .ENOTEMPTY else return .ok ()

/-- What follows the label `fail` of `sys_rename`. -/
def renameFail (rc : Except Errno Unit) (oldParent oldInode newParent newInode : Option Nat) :
    Kernel State (Except Errno Unit) := do
  assert (rc.isOk = false)
  inodeUnrefOption oldParent
  inodeUnrefOption oldInode
  inodeUnrefOption newParent
  inodeUnrefOption newInode
  return rc

/-- The end of `sys_rename`, when nothing has the new name any more. -/
def renameLink (oldParent : Nat) (oldBasename : Chars) (oldInode newParent : Nat) (newBasename : Option Chars)
    (newInode : Option Nat) : Kernel Files (Except Errno Unit) := do
  match newBasename with
  | none => throw .panic
  | some newBasename => do
      match ← inodeLinkChild newParent newBasename oldInode with
      | .error e => onVfs (renameFail (.error e) (some oldParent) none none newInode)
      | .ok () => onVfs (inodeUnlinkChild oldParent oldBasename)

/-- The part of `sys_rename` that removes what has the new name. The reference to a directory has been used by
    `make_sure_directory_is_empty`, also where `fail` gives it back. -/
def renameReplace (oldParent : Nat) (oldBasename : Chars) (oldInode newInode : Nat) (newParent : Option Nat)
    (newBasename : Option Chars) : Kernel Files (Except Errno Unit) := do
  match newParent, newBasename with
  | some newParent, some newBasename => do
      onVfs (inodeRef newParent)
      match ← onVfs (inodeUnlinkChild newParent newBasename) with
      | .error e => onVfs (renameFail (.error e) (some oldParent) (some oldInode) (some newParent) (some newInode))
      | .ok () => renameLink oldParent oldBasename oldInode newParent (some newBasename) (some newInode)
  -- `inode_ref(NULL)`, or the name `NULL`
  | none, _ => throw .panic
  | some _, none => throw .fault

/-- The part of `sys_rename` behind the second walk. -/
def renameResolved (oldParent : Nat) (oldBasename : Chars) (oldInode : Nat) (new : Resolved) :
    Kernel Files (Except Errno Unit) := do
  match new.inode with
  | .ok newInode => do
      if newInode = oldInode then
        onVfs (renameFail (.ok ()) (some oldParent) (some oldInode) new.parent (some newInode))
      else if sIsDir (← onVfs (getInode newInode)).mode then
        if !sIsDir (← onVfs (getInode oldInode)).mode then
          onVfs (renameFail (.error .EISDIR) (some oldParent) (some oldInode) new.parent (some newInode))
        else
          match ← onVfs (makeSureDirectoryIsEmpty newInode) with
          | .error e => onVfs (renameFail (.error e) (some oldParent) (some oldInode) new.parent none)
          | .ok () => renameReplace oldParent oldBasename oldInode newInode new.parent new.basename
      else
        renameReplace oldParent oldBasename oldInode newInode new.parent new.basename
  | .error e =>
      if e ≠ .ENOENT then
        onVfs (renameFail (.error e) (some oldParent) (some oldInode) new.parent none)
      else
        match new.parent with
        | none => onVfs (renameFail (.error .EPERM) (some oldParent) (some oldInode) none none)
        | some newParent => renameLink oldParent oldBasename oldInode newParent new.basename none

/-- `sys_rename`. -/
def sysRename (cwdPath oldpath newpath : Chars) : Kernel Files (Except Errno Unit) := do
  let old ← onVfs (vfsResolvePath cwdPath oldpath true true)
  match old.inode with
  | .error e => onVfs (renameFail (.error e) old.parent none none none)
  | .ok oldInode =>
      match old.parent, old.basename with
      | none, _ => onVfs (renameFail (.error .EPERM) none (some oldInode) none none)
      | some _, none => throw .panic
      | some oldParent, some oldBasename => do
          let new ← onVfs (vfsResolvePath cwdPath newpath true true)
          renameResolved oldParent oldBasename oldInode new

/-- `sys_rmdir`. -/
def sysRmdir (cwdPath pathname : Chars) : Kernel State (Except Errno Unit) := do
  let resolved ← vfsResolvePath cwdPath pathname true true
  match resolved.inode with
  | .error e => do
      inodeUnrefOption resolved.parent
      return .error e
  | .ok i =>
      match resolved.parent with
      | none => do
          inodeUnref i
          return .error .EPERM
      | some parent =>
          match resolved.basename with
          | none => throw .panic
          | some basename => do
              if !sIsDir (← getInode i).mode then
                inodeUnref parent
                inodeUnref i
                return .error .ENOTDIR
              else
                match ← makeSureDirectoryIsEmpty i with
                | .error e => do
                    inodeUnref parent
                    return .error e
                | .ok () => inodeUnlinkChild parent basename

/-! ### Processes -/

/-- The file systems and the working directory of one process. -/
def Files.process (k : Nat) (s : Files) : Processes Unit := { vfs := s.vfs, cwd := fun _ => s.cwds[k]? }

def Files.setProcess (k : Nat) (t : Processes Unit) (s : Files) : Files :=
  { s with vfs := t.vfs, cwds := ((t.cwd ()).map (s.cwds.set k)).getD s.cwds }

/-- `sys_chdir` by the process with number `k`. -/
def chdir (k : Nat) (path : Chars) : Kernel Files (Except Errno Unit) := do
  if (← get).cwds.length ≤ k then return .error .ESRCH
  else Program.focus (Files.process k) (Files.setProcess k) (sysChdir () path)

/-- What `sys_fork` does with the working directory of the process with number `k`. -/
def forkCwd (k : Nat) : Kernel Files (Except Errno Unit) := do
  match (← get).cwds[k]? with
  | none => return .error .ESRCH
  | some cwd =>
      match ← onVfs (onAllocations (kstrdup cwd.path)) with
      | none => return .error .ENOMEM
      | some path => do
          onVfs (inodeRef cwd.inode)
          modify fun s => { s with cwds := s.cwds ++ [{ path := path, inode := cwd.inode }] }
          return .ok ()

/-- What `die` does with the working directory of the process with number `k`. -/
def exitCwd (k : Nat) : Kernel Files (Except Errno Unit) := do
  match (← get).cwds[k]? with
  | none => return .error .ESRCH
  | some cwd => do
      modify fun s => { s with cwds := s.cwds.eraseIdx k }
      onVfs (inodeUnref cwd.inode)
      return .ok ()

/-! ### Runs -/

/-- The calls. The process that makes a call is known by its number, or by the path of its working directory where only
    that matters. -/
inductive Call where
  | open (cwdPath pathname : Chars) (flags mode : Nat) (fopsOpen : Except Errno Unit) (descriptor : Bool)
  | close (description : Nat)
  | mkdir (cwdPath pathname : Chars) (mode : Nat)
  | mknod (cwdPath pathname : Chars) (mode dev : Nat)
  | link (cwdPath oldpath newpath : Chars)
  | unlink (cwdPath pathname : Chars)
  | rename (cwdPath oldpath newpath : Chars)
  | rmdir (cwdPath pathname : Chars)
  | chdir (process : Nat) (path : Chars)
  | fork (process : Nat)
  | exit (process : Nat)

/-- A call. -/
def runCall : Call → Kernel Files (Except Errno Unit)
  | .open cwdPath pathname flags mode fopsOpen descriptor => sysOpen cwdPath pathname flags mode fopsOpen descriptor
  | .close description => closeDescription description
  | .mkdir cwdPath pathname mode => sysMkdir cwdPath pathname mode
  | .mknod cwdPath pathname mode dev => sysMknod cwdPath pathname mode dev
  | .link cwdPath oldpath newpath => sysLink cwdPath oldpath newpath
  | .unlink cwdPath pathname => onVfs (sysUnlink cwdPath pathname)
  | .rename cwdPath oldpath newpath => sysRename cwdPath oldpath newpath
  | .rmdir cwdPath pathname => onVfs (sysRmdir cwdPath pathname)
  | .chdir process path => chdir process path
  | .fork process => forkCwd process
  | .exit process => exitCwd process

/-- The calls that return, with what they return, one after another. A run may begin anywhere. -/
def filesSystem : TransitionSystem Files (Call × Except Errno Unit) where
  init _ := True
  step s e s' := runCall e.1 s = .ok (e.2, s')

end Calls

end Vfs

end Chaotix
