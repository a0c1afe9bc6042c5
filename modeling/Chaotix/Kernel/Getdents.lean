/-
Module: Chaotix.Kernel.Getdents
Layer: Kernel
Purpose: Listing a directory: `file_description_getdents` packs records of different lengths into the caller's buffer
  and resumes by the offset of the description. tmpfs lists the children of the inode. Each call runs under the locks
  of the description and of the directory.
Imports: Chaotix.Lib.ByteMem, Chaotix.Lib.Transition, Chaotix.Kernel.Directory, Chaotix.Kernel.ExecStack
Trusted boundary: human-reviewed model of `getdents_callback`, `file_description_getdents` and `mode_to_dirent_type` of
  `fs/fs.c`, of `dentry_getdents` of `fs/dentry.c`, of `tmpfs_getdents` of `fs/tmpfs.c`, of
  `make_sure_directory_is_empty` of `syscall/fs.c`, and of `struct dirent` of `api/dirent.h`
Main exports: direntSize, direntBytes, GetdentsCtx, getdentsCallback, dentryGetdents, fileDescriptionGetdents,
  tmpfsGetdents, makeSureDirectoryIsEmpty, GetdentsEvent, listingSystem
-/
import Chaotix.Lib.ByteMem
import Chaotix.Lib.Transition
import Chaotix.Kernel.Directory
import Chaotix.Kernel.ExecStack

namespace Chaotix

/-! ### Records -/

/-- `offsetof(struct dirent, d_name)`: `d_reclen` has two bytes, `d_type` and `d_namlen` have one. -/
abbrev direntNameOffset : Nat := 4

/-- `offsetof(struct dirent, d_name) + strlen(name) + 1`. -/
def direntSize (name : CString) : Nat := direntNameOffset + name.size

/-- `mode_to_dirent_type`: `DT_REG`, `DT_DIR` and so on. -/
def modeToDirentType : FileType → UInt8
  | .S_IFDIR => 4
  | .S_IFCHR => 2
  | .S_IFBLK => 6
  | .S_IFREG => 8
  | .S_IFIFO => 1
  | .S_IFSOCK => 12

/-- What `getdents_callback` stores: the fields of `struct dirent`, each cut to its width, and the name. -/
def direntBytes (name : CString) (type : UInt8) : List UInt8 :=
  [UInt8.ofNat (direntSize name), UInt8.ofNat (direntSize name / 2 ^ 8), type, UInt8.ofNat name.chars.length] ++
    strlcpyBytes name.chars name.size

/-! ### Calls -/

/-- `struct getdents_ctx` and the memory at the caller's buffer; `dirp` counts from its start. `listed` is not in the
    code: it holds the names that were stored, in order. -/
structure GetdentsCtx where
  mem : Nat → UInt8
  dirp : Nat := 0
  remainingCount : Nat
  nwritten : Nat := 0
  bufferIsTooSmall : Bool := false
  listed : List CString := []

/-- `getdents_callback`. -/
def getdentsCallback (ctx : GetdentsCtx) (name : CString) (type : UInt8) : Bool × GetdentsCtx :=
  let size := direntSize name
  if ctx.remainingCount < size then (false, { ctx with bufferIsTooSmall := true })
  else
    (true,
      { ctx with
        mem := writeBytes ctx.mem ctx.dirp (direntBytes name type)
        dirp := ctx.dirp + size
        remainingCount := ctx.remainingCount - size
        nwritten := ctx.nwritten + size
        listed := ctx.listed ++ [name] })

/-- The second loop of `dentry_getdents`, with `desc->offset`. -/
def dentryGetdentsLoop : List (Dentry CString FileType) → GetdentsCtx → Nat → GetdentsCtx × Nat
  | [], ctx, offset => (ctx, offset)
  | dentry :: rest, ctx, offset =>
      let (stored, ctx) := getdentsCallback ctx dentry.name (modeToDirentType dentry.inode)
      if stored then dentryGetdentsLoop rest ctx (offset + 1) else (ctx, offset)

/-- `dentry_getdents`. It always returns zero. -/
def dentryGetdents (head : List (Dentry CString FileType)) (ctx : GetdentsCtx) (offset : Nat) : GetdentsCtx × Nat :=
  dentryGetdentsLoop (head.drop offset) ctx offset

/-- What a call of `file_description_getdents` leaves: its result, the caller's buffer, the offset of the description,
    and the names that were stored. -/
structure GetdentsResult where
  result : Except Errno Nat
  mem : Nat → UInt8
  offset : Nat
  listed : List CString

/-- `file_description_getdents` on a directory with a `getdents` that returns zero. -/
def fileDescriptionGetdents (getdents : GetdentsCtx → Nat → GetdentsCtx × Nat) (offset : Nat) (mem : Nat → UInt8)
    (count : Nat) : GetdentsResult :=
  let (ctx, offset) := getdents { mem := mem, remainingCount := count } offset
  { result := if ctx.nwritten = 0 ∧ ctx.bufferIsTooSmall then .error .EINVAL else .ok ctx.nwritten
    mem := ctx.mem
    offset := offset
    listed := ctx.listed }

/-- `tmpfs_getdents`. -/
def tmpfsGetdents (children : List (Dentry CString FileType)) : GetdentsCtx → Nat → GetdentsCtx × Nat :=
  dentryGetdents children

/-- The loop of `make_sure_directory_is_empty`, for so many rounds: `nread` behind it. `krealloc` is given by the memory
    that its calls return, and `allocs` counts them. -/
def emptinessLoop (krealloc : Nat → Nat → Option (Nat → UInt8)) (children : List (Dentry CString FileType)) :
    Nat → Nat → Nat → Nat → Option (Except Errno Nat)
  | 0, _, _, _ => none
  | rounds + 1, allocs, capacity, offset =>
      match krealloc allocs capacity with
      | none => some (.error .ENOMEM)
      | some buf =>
          let call := fileDescriptionGetdents (dentryGetdents children) offset buf capacity
          match call.result with
          | .error .EINVAL => emptinessLoop krealloc children rounds (allocs + 1) (capacity * 2 % wordSize) call.offset
          | nread => some nread

/-- `make_sure_directory_is_empty`, once the directory is open. -/
def makeSureDirectoryIsEmpty (krealloc : Nat → Nat → Option (Nat → UInt8))
    (children : List (Dentry CString FileType)) (rounds : Nat) : Option (Except Errno Unit) :=
  (emptinessLoop krealloc children rounds 0 1024 0).map fun nread =>
    match nread with
    | .ok n => if 0 < n then .error .ENOTEMPTY else .ok ()
    | .error e => .error e

/-! ### Calls on one description -/

/-- A call of `file_description_getdents`: the caller's buffer, its size, and what the call leaves. -/
structure GetdentsEvent where
  mem : Nat → UInt8
  count : Nat
  call : GetdentsResult

/-- An open directory whose entries do not change, by the offset of its description. -/
def listingSystem (entries : List (Dentry CString FileType)) : TransitionSystem Nat GetdentsEvent where
  init offset := offset = 0
  step offset e offset' :=
    e.call = fileDescriptionGetdents (dentryGetdents entries) offset e.mem e.count ∧ offset' = e.call.offset

/-! ### What a call stores -/

theorem length_direntBytes (name : CString) (type : UInt8) : (direntBytes name type).length = direntSize name := by
  simp only [direntBytes, strlcpyBytes, direntSize, CString.size, direntNameOffset, List.length_append,
    List.length_cons, List.length_nil, List.length_take]
  omega

/-- The records of entries, one after the other. -/
def direntsBytes (entries : List (Dentry CString FileType)) : List UInt8 :=
  entries.flatMap fun dentry => direntBytes dentry.name (modeToDirentType dentry.inode)

/-- What one call of `dentry_getdents` does to a context: it stores the records of the next entries that fit. -/
structure StoresDirents (entries : List (Dentry CString FileType)) (ctx ctx' : GetdentsCtx) : Prop where
  bytes : BytesAt ctx'.mem ctx.dirp (direntsBytes entries)
  before : ∀ a, a < ctx.dirp → ctx'.mem a = ctx.mem a
  dirp : ctx'.dirp = ctx.dirp + (direntsBytes entries).length
  nwritten : ctx'.nwritten = ctx.nwritten + (direntsBytes entries).length
  listed : ctx'.listed = ctx.listed ++ entries.map (·.name)

theorem dentryGetdentsLoop_spec (dentries : List (Dentry CString FileType)) (ctx : GetdentsCtx) (offset : Nat) :
    ∃ entries rest, dentries = entries ++ rest ∧ StoresDirents entries ctx (dentryGetdentsLoop dentries ctx offset).1 ∧
      (dentryGetdentsLoop dentries ctx offset).2 = offset + entries.length ∧
      (direntsBytes entries).length ≤ ctx.remainingCount ∧
      (rest = [] ∧ (dentryGetdentsLoop dentries ctx offset).1.bufferIsTooSmall = ctx.bufferIsTooSmall ∨
        ∃ dentry rest', rest = dentry :: rest' ∧
          ctx.remainingCount < (direntsBytes entries).length + direntSize dentry.name ∧
          (dentryGetdentsLoop dentries ctx offset).1.bufferIsTooSmall = true) := by
  induction dentries generalizing ctx offset with
  | nil =>
      exact ⟨[], [], rfl, ⟨fun i hi => absurd hi (Nat.not_lt_zero i), fun _ _ => rfl, rfl, rfl, by simp
        [dentryGetdentsLoop]⟩, rfl, Nat.zero_le _, Or.inl ⟨rfl, rfl⟩⟩
  | cons dentry dentries ih =>
      by_cases hfits : ctx.remainingCount < direntSize dentry.name
      · have hloop : dentryGetdentsLoop (dentry :: dentries) ctx offset =
            ({ ctx with bufferIsTooSmall := true }, offset) := by
          simp [dentryGetdentsLoop, getdentsCallback, hfits]
        rw [hloop]
        exact ⟨[], dentry :: dentries, rfl, ⟨fun i hi => absurd hi (Nat.not_lt_zero i), fun _ _ => rfl, rfl, rfl, by
          simp⟩, rfl, Nat.zero_le _, Or.inr ⟨dentry, dentries, rfl, by simpa [direntsBytes] using hfits, rfl⟩⟩
      · -- the entry is stored, and the loop goes on behind its record
        set next : GetdentsCtx := { ctx with
          mem := writeBytes ctx.mem ctx.dirp (direntBytes dentry.name (modeToDirentType dentry.inode))
          dirp := ctx.dirp + direntSize dentry.name
          remainingCount := ctx.remainingCount - direntSize dentry.name
          nwritten := ctx.nwritten + direntSize dentry.name
          listed := ctx.listed ++ [dentry.name] }
        have hloop : dentryGetdentsLoop (dentry :: dentries) ctx offset =
            dentryGetdentsLoop dentries next (offset + 1) := by
          simp [dentryGetdentsLoop, getdentsCallback, hfits, next]
        have hsize := length_direntBytes dentry.name (modeToDirentType dentry.inode)
        obtain ⟨entries, rest, hsplit, hstored, hoffset, hle, hend⟩ := ih next (offset + 1)
        have hlength : (direntsBytes (dentry :: entries)).length =
            direntSize dentry.name + (direntsBytes entries).length := by
          rw [direntsBytes, List.flatMap_cons, List.length_append, hsize]
          rfl
        rw [hloop]
        refine ⟨dentry :: entries, rest, by rw [hsplit, List.cons_append], ?_, ?_, ?_, ?_⟩
        · constructor
          case bytes =>
            rw [direntsBytes, List.flatMap_cons, bytesAt_append, hsize]
            constructor
            · intro i hi
              rw [hstored.before _ (by simp only [next]; omega)]
              exact bytesAt_writeBytes ctx.mem ctx.dirp _ i hi
            · exact hstored.bytes
          case before =>
            intro a ha
            rw [hstored.before a (Nat.lt_of_lt_of_le ha (Nat.le_add_right _ _))]
            exact writeBytes_outside (Or.inl ha)
          case dirp =>
            rw [hstored.dirp, hlength, ← Nat.add_assoc]
          case nwritten =>
            rw [hstored.nwritten, hlength, ← Nat.add_assoc]
          case listed =>
            rw [hstored.listed]
            simp [next]
        · rw [hoffset, List.length_cons]
          omega
        · rw [hlength]
          simp only [next] at hle
          omega
        · rcases hend with hend | ⟨dentry', rest', rfl, hlt, hsmall⟩
          · exact Or.inl hend
          · refine Or.inr ⟨dentry', rest', rfl, ?_, hsmall⟩
            simp only [next] at hlt
            omega

end Chaotix
