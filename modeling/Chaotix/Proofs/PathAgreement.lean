/-
Module: Chaotix.Proofs.PathAgreement
Layer: Proofs
Purpose: Resolving a pathname and resolving its canonical form. Both consume the same list of components, and apart from
  what it allocates a walk does not depend on how much has been allocated, so the outcome and the file systems behind it
  are the same.
Imports: Chaotix.Lib.Agreement, Chaotix.Kernel.Vfs, Chaotix.Proofs.CanonicalPaths
Trusted boundary: none
Main exports: SameFiles, respects_walkComponents, resolve_canonical
-/
import Chaotix.Lib.Agreement
import Chaotix.Kernel.Vfs
import Chaotix.Proofs.CanonicalPaths

namespace Chaotix

namespace Vfs

open Pathname

/-- The same file systems, while memory does not run out. Only the number of allocations may differ. -/
structure SameFiles (s s' : State) : Prop where
  inodes : s.inodes = s'.inodes
  nextInode : s.nextInode = s'.nextInode
  root : s.root = s'.root
  mountPoints : s.mountPoints = s'.mountPoints
  pids : s.pids = s'.pids
  succeed : s.allocations.Succeed
  succeed' : s'.allocations.Succeed

section Parts

theorem respects_getInode (i : Nat) : Respects SameFiles (getInode i) := by
  intro s s' h
  refine Agree.get_bind ?_
  rw [h.inodes]
  cases s'.inodes i with
  | none => exact Agree.throw _
  | some inode => exact Agree.pure inode h

theorem respects_setInode (i : Nat) (inode : Inode) : Respects SameFiles (setInode i inode) :=
  Respects.modify fun _ _ h => { h with inodes := congrArg (fun f => Function.update f i (some inode)) h.inodes }

theorem respects_freeInode (i : Nat) : Respects SameFiles (freeInode i) :=
  Respects.modify fun _ _ h => { h with inodes := congrArg (fun f => Function.update f i none) h.inodes }

theorem respects_inodeRef (i : Nat) : Respects SameFiles (inodeRef i) :=
  (respects_getInode i).bind fun _ => respects_setInode i _

theorem respects_assert (c : Prop) [Decidable c] : Respects SameFiles (assert c) := Respects.require c Stop.panic

theorem respects_clearDentry {unref : Nat → Kernel State Unit} (h : ∀ i, Respects SameFiles (unref i))
    (dentry : Dentry Chars Nat) : Respects SameFiles (clearDentry unref dentry) :=
  (respects_getInode _).bind fun child => (respects_assert (child.numLinks > 0)).bind fun _ =>
    (respects_setInode _ _).bind fun _ => h dentry.inode

theorem respects_unrefNested (n i : Nat) : Respects SameFiles (unrefNested n i) := by
  induction n generalizing i with
  | zero => exact Respects.throw _
  | succ n ih =>
      refine (respects_getInode i).bind fun inode => (respects_assert (inode.refCount > 0)).bind fun _ =>
        (respects_setInode i _).bind fun _ => ?_
      refine Respects.ite _ ?_ (Respects.pure ())
      exact (Respects.forM fun dentry _ => respects_clearDentry ih dentry).bind fun _ => respects_freeInode i

theorem respects_inodeUnref (i : Nat) : Respects SameFiles (inodeUnref i) := by
  intro s s' h
  refine Agree.get_bind ?_
  rw [h.nextInode]
  exact respects_unrefNested _ i s s' h

/-- A call of `kmalloc` that returns memory. -/
theorem respects_onAllocations {α : Type} {m : Kernel Allocations α} {a : α}
    (h : ∀ u : Allocations, u.Succeed → Yields m u fun b v => b = a ∧ v.answers = u.answers) :
    Respects SameFiles (onAllocations m) := by
  intro s s' hsame
  obtain ⟨b, v, hreturn, rfl, hanswers⟩ := yields_iff.1 (h s.allocations hsame.succeed)
  obtain ⟨b', v', hreturn', rfl, hanswers'⟩ := yields_iff.1 (h s'.allocations hsame.succeed')
  have hrun : onAllocations m s = .ok (b', { s with allocations := v }) := by
    rw [onAllocations, Program.focus, hreturn]
  have hrun' : onAllocations m s' = .ok (b', { s' with allocations := v' }) := by
    rw [onAllocations, Program.focus, hreturn']
  exact Agree.of_return hrun hrun'
    { hsame with
      succeed := (Allocations.succeed_congr hanswers).2 hsame.succeed
      succeed' := (Allocations.succeed_congr hanswers').2 hsame.succeed' }

theorem respects_kmalloc : Respects SameFiles (onAllocations kmallocAnswer) := by
  refine respects_onAllocations (a := true) fun u hu => ?_
  apply (kmallocAnswer_spec u).mono
  rintro r v ⟨hanswers, hfails⟩
  cases r with
  | true => exact ⟨rfl, hanswers⟩
  | false => exact absurd hu (hfails rfl)

theorem respects_kstrdup (src : Chars) : Respects SameFiles (onAllocations (kstrdup src)) := by
  refine respects_onAllocations (a := some src) fun u hu => ?_
  apply (kstrdup_spec src u).mono
  rintro r v ⟨hanswers, hresult⟩
  obtain rfl | ⟨-, hfails⟩ := hresult
  · exact ⟨rfl, hanswers⟩
  · exact absurd hu hfails

theorem respects_createInode (inode : Inode) : Respects SameFiles (createInode inode) := by
  refine respects_kmalloc.bind fun r => Respects.ite _ ?_ (Respects.pure none)
  intro s s' h
  refine Agree.get_bind ?_
  dsimp only
  rw [h.nextInode]
  refine (Agree.modify ?_).bind fun _ t t' ht => ?_
  · exact { h with nextInode := rfl }
  · exact ((respects_setInode _ inode).bind fun _ => Respects.pure (some s'.nextInode)) t t' ht

theorem respects_appendChild (dir : Nat) (name : Chars) (child : Nat) :
    Respects SameFiles (appendChild dir name child) := by
  refine (respects_getInode dir).bind fun node => ?_
  cases dentryAppend node.children name child true with
  | error e => exact Respects.pure _
  | ok children =>
      refine respects_kmalloc.bind fun r => Respects.ite _ (Respects.pure _) ?_
      refine (respects_kstrdup name).bind fun r => ?_
      cases r with
      | none => exact Respects.pure _
      | some _ =>
          exact (respects_setInode dir _).bind fun _ => (respects_getInode child).bind fun inode =>
            (respects_setInode child _).bind fun _ => Respects.pure _

theorem respects_findChild (dir : Nat) (name : Chars) : Respects SameFiles (findChild dir name) := by
  refine (respects_getInode dir).bind fun node => ?_
  cases dentryFind node.children name with
  | error e => exact (respects_inodeUnref dir).bind fun _ => Respects.pure _
  | ok child =>
      exact (respects_inodeRef child).bind fun _ => (respects_inodeUnref dir).bind fun _ => Respects.pure _

theorem respects_addItems (parent : Nat) (names : List Chars) : Respects SameFiles (addItems parent names) := by
  induction names with
  | nil => exact Respects.pure _
  | cons name rest ih =>
      have hitem : Respects SameFiles (addItem parent name) := by
        refine (respects_createInode _).bind fun r => ?_
        cases r with
        | none => exact Respects.pure _
        | some inode => exact respects_appendChild parent name inode
      refine hitem.bind fun r => ?_
      cases r with
      | error e => exact Respects.pure _
      | ok _ => exact ih

theorem respects_procfsPidDirInodeCreate (parent pid : Nat) :
    Respects SameFiles (procfsPidDirInodeCreate parent pid) := by
  intro s s' h
  refine Agree.get_bind ?_
  rw [h.pids]
  refine Respects.ite (pid ∉ s'.pids) (Respects.pure _) ?_ s s' h
  refine (respects_createInode _).bind fun r => ?_
  cases r with
  | none => exact Respects.pure _
  | some inode =>
      refine (respects_addItems inode pidItems).bind fun r => ?_
      cases r with
      | error e => exact Respects.pure _
      | ok _ => exact (respects_inodeUnref parent).bind fun _ => Respects.pure _

theorem respects_inodeLookupChild (i : Nat) (name : Chars) : Respects SameFiles (inodeLookupChild i name) := by
  refine (respects_getInode i).bind fun inode => Respects.ite _ ?_ ?_
  · exact (respects_inodeUnref i).bind fun _ => Respects.pure _
  · cases inode.fops with
    | procfsRoot => exact Respects.ite _ (respects_procfsPidDirInodeCreate i _) (respects_findChild i name)
    | procfsDir => exact respects_findChild i name
    | tmpfsDir => exact respects_findChild i name
    | tmpfsNonDir => exact respects_findChild i name
    | procfsItem => exact respects_findChild i name

end Parts

/-! ### Walks -/

section Walks

theorem respects_vfsGetRoot : Respects SameFiles vfsGetRoot := by
  intro s s' h
  refine Agree.get_bind ?_
  rw [h.root]
  exact ((respects_inodeRef s'.root).bind fun _ => Respects.pure s'.root) s s' h

theorem respects_findMountedGuest (host : Nat) : Respects SameFiles (findMountedGuest host) := by
  intro s s' h
  refine Agree.get_bind ?_
  rw [h.mountPoints]
  cases s'.mountPoints.find? fun mp => mp.1 = host with
  | none => exact ((respects_inodeUnref host).bind fun _ => Respects.pure none) s s' h
  | some mp =>
      exact ((respects_inodeUnref host).bind fun _ => (respects_inodeRef mp.2).bind fun _ =>
        Respects.pure (some mp.2)) s s' h

theorem respects_storeLast (outParent outBasename : Bool) (parent : Nat) (component : Chars) :
    Respects SameFiles (storeLast outParent outBasename parent component) := by
  have hfails : Respects SameFiles (do
      inodeUnref parent
      pure (.error .ENOMEM) : Kernel State (Except Errno (Option Nat × Option Chars))) :=
    (respects_inodeUnref parent).bind fun _ => Respects.pure _
  have hstores : ∀ basename : Option Chars, Respects SameFiles (if outParent = true then do
      inodeRef parent
      pure (.ok (some parent, basename))
    else pure (.ok (none, basename)) : Kernel State (Except Errno (Option Nat × Option Chars))) := fun basename =>
    Respects.ite _ ((respects_inodeRef parent).bind fun _ => Respects.pure _) (Respects.pure _)
  refine Respects.ite _ ?_ ?_
  · exact (respects_kstrdup component).bind fun basename => Respects.ite _ hfails (hstores basename)
  · exact Respects.ite _ hfails (hstores none)

theorem respects_stepInto (parent : Nat) (component : Chars) : Respects SameFiles (stepInto parent component) := by
  refine (respects_inodeLookupChild parent component).bind fun r => ?_
  cases r with
  | error e => exact Respects.pure _
  | ok child =>
      refine (respects_inodeRef child).bind fun _ => (respects_findMountedGuest child).bind fun r => ?_
      cases r with
      | none => exact Respects.pure _
      | some guest => exact (respects_inodeUnref child).bind fun _ => Respects.pure _

/-- A walk over the same components. -/
theorem respects_walkComponents (outParent outBasename : Bool) (numComponents i : Nat) (components : List Chars)
    (parent : Nat) :
    Respects SameFiles (walkComponents outParent outBasename numComponents i components parent) := by
  induction components generalizing i parent with
  | nil => exact Respects.pure _
  | cons component rest ih =>
      refine Respects.ite _ ?_ ?_
      · refine (respects_storeLast outParent outBasename parent component).bind fun r => ?_
        cases r with
        | error e => exact Respects.pure _
        | ok stored =>
            refine (respects_stepInto parent component).bind fun r => ?_
            cases r with
            | error e => exact Respects.pure _
            | ok child => exact (ih (i + 1) child).bind fun _ => Respects.pure _
      · refine (respects_stepInto parent component).bind fun r => ?_
        cases r with
        | error e => exact Respects.pure _
        | ok child => exact ih (i + 1) child

/-- The rest of `vfs_resolve_path` behind the list of components. -/
def resolveComponents (outParent outBasename : Bool) (cs : ComponentList) : Kernel State Resolved := do
  if cs.numComponents = 0 then
    return { inode := .ok (← vfsGetRoot) }
  else
    walkComponents outParent outBasename cs.numComponents 0 cs.list (← vfsGetRoot)

theorem respects_resolveComponents (outParent outBasename : Bool) (cs : ComponentList) :
    Respects SameFiles (resolveComponents outParent outBasename cs) :=
  Respects.ite _ (respects_vfsGetRoot.bind fun _ => Respects.pure _)
    (respects_vfsGetRoot.bind fun root => respects_walkComponents outParent outBasename cs.numComponents 0 cs.list root)

/-- While memory does not run out, a pathname is resolved along the components that are kept of it. -/
theorem vfsResolvePath_eq {cwdPath : Chars} (hcwd : Canonical cwdPath) (pathname : Chars) (outParent outBasename : Bool)
    {s : State} (hsucceed : s.allocations.Succeed) :
    ∃ t : Allocations, t.Succeed ∧
      vfsResolvePath cwdPath pathname outParent outBasename s =
        resolveComponents outParent outBasename (.of (normalComponents cwdPath pathname)) { s with allocations := t } := by
  obtain ⟨r, t, hreturn, hlist⟩ := yields_iff.1 (createPathComponentList_spec hcwd pathname s.allocations)
  obtain ⟨rfl, ht⟩ := hlist.ok hsucceed
  refine ⟨t, ht, ?_⟩
  have hrun : onAllocations (createPathComponentList cwdPath pathname) s =
      .ok (.ok (.of (normalComponents cwdPath pathname)), { s with allocations := t }) := by
    rw [onAllocations, Program.focus, hreturn]
  rw [vfsResolvePath, Program.run_bind, hrun]
  rfl

/-- A canonical path has its own components, wherever it is resolved from. -/
theorem normalComponents_normalForm (cwdPath cwdPath' pathname : Chars) :
    normalComponents cwdPath' (normalForm cwdPath pathname) = normalComponents cwdPath pathname := by
  have hcomponents := isComponent_normalComponents cwdPath pathname
  rw [normalForm, normalComponents_of_absolute (isAbsolutePath_written _), fields_written hcomponents,
    foldl_keep_of_isComponent hcomponents, List.nil_append]

/-- A pathname and its canonical form are resolved in the same way, from any file systems that differ in allocations at
    most and from any working directory. -/
theorem agree_normalForm {cwdPath cwdPath' : Chars} (hcwd : Canonical cwdPath) (hcwd' : Canonical cwdPath')
    (pathname : Chars) (outParent outBasename : Bool) {s s' : State} (h : SameFiles s s') :
    Agree SameFiles (vfsResolvePath cwdPath pathname outParent outBasename) s
      (vfsResolvePath cwdPath' (normalForm cwdPath pathname) outParent outBasename) s' := by
  obtain ⟨t, ht, hrun⟩ := vfsResolvePath_eq hcwd pathname outParent outBasename h.succeed
  obtain ⟨t', ht', hrun'⟩ := vfsResolvePath_eq hcwd' (normalForm cwdPath pathname) outParent outBasename h.succeed'
  rw [normalComponents_normalForm] at hrun'
  have hsame : SameFiles { s with allocations := t } { s' with allocations := t' } :=
    { h with succeed := ht, succeed' := ht' }
  have hagree := respects_resolveComponents outParent outBasename (.of (normalComponents cwdPath pathname)) _ _ hsame
  unfold Agree at hagree ⊢
  rwa [hrun, hrun']

/-- While memory does not run out, resolving what `vfs_canonicalize_path` returns, from any working directory, has the
    same outcome as resolving the pathname itself: the same inode or error, the same parent and base name, and the same
    file systems behind it. -/
theorem resolve_canonical {cwdPath : Chars} (hcwd : Canonical cwdPath) (pathname : Chars) (outParent outBasename : Bool)
    {s : State} (hs : s.allocations.Succeed) :
    ∃ canonical t, vfsCanonicalizePath cwdPath pathname s.allocations = .ok (.ok canonical, t) ∧
      ∀ cwdPath', Canonical cwdPath' →
        Agree SameFiles (vfsResolvePath cwdPath pathname outParent outBasename) s
          (vfsResolvePath cwdPath' canonical outParent outBasename) { s with allocations := t } := by
  obtain ⟨r, t, hreturn, hform⟩ := yields_iff.1 (vfsCanonicalizePath_spec hcwd pathname s.allocations)
  obtain ⟨rfl, ht⟩ := hform.ok hs
  refine ⟨normalForm cwdPath pathname, t, hreturn, fun cwdPath' hcwd' => ?_⟩
  exact agree_normalForm hcwd hcwd' pathname outParent outBasename ⟨rfl, rfl, rfl, rfl, rfl, hs, ht⟩

end Walks

section Chdir

variable {P : Type} [DecidableEq P]

/-- What is recorded resolves to what is recorded. -/
def RecordedResolves (vfs : State) (cwd : Cwd) : Prop :=
  Canonical cwd.path ∧ ∀ cwdPath, Canonical cwdPath →
    ∃ r u, vfsResolvePath cwdPath cwd.path false false vfs = .ok (r, u) ∧ r.inode = .ok cwd.inode

theorem sysChdir_recorded {current : P} {path : Chars} {s : Processes P} (hcanonical : CanonicalCwds s)
    (hs : s.vfs.allocations.Succeed) :
    Ensures (sysChdir current path) s fun r t =>
      r = .ok () → ∃ cwd, t.cwd current = some cwd ∧ RecordedResolves s.vfs cwd := by
  rw [sysChdir, ensures_bind, ensures_get]
  cases hcwd : s.cwd current with
  | none => trivial
  | some cwd =>
      have hpath := hcanonical current cwd hcwd
      rw [ensures_bind, onVfs, ensures_focus, onAllocations, ensures_focus]
      apply (vfsCanonicalizePath_spec hpath path s.vfs.allocations).ensures.mono
      intro r u hr
      obtain ⟨rfl, hu⟩ := hr.ok hs
      rw [ensures_bind, onVfs, ensures_focus, ensures_iff]
      intro resolved v hresolved
      have hsame : SameFiles { s.vfs with allocations := u } s.vfs := ⟨rfl, rfl, rfl, rfl, rfl, hu, hs⟩
      have hrecorded : ∀ i, resolved.inode = .ok i →
          RecordedResolves s.vfs { path := normalForm cwd.path path, inode := i } := by
        refine fun i hi => ⟨canonical_normalForm cwd.path path, fun cwdPath hcwdPath => ?_⟩
        obtain ⟨r, w, w', hrun, hrun', -⟩ | ⟨e, hstop, -⟩ :=
          (agree_normalForm hpath hcwdPath path false false hsame).cases
        · obtain ⟨rfl, -⟩ := Prod.mk.inj (Except.ok.inj (hrun.symm.trans hresolved))
          exact ⟨r, w', hrun', hi⟩
        · exact absurd (hstop.symm.trans hresolved) (by simp)
      dsimp only
      cases hi : resolved.inode with
      | error e => exact fun hok => by cases hok
      | ok i =>
          rw [ensures_bind, ensures_iff]
          intro inode w _
          split
          · rw [ensures_bind, ensures_iff]
            exact fun _ _ _ hok => by cases hok
          · rw [ensures_bind, ensures_iff]
            intro _ x _ _
            exact ⟨_, Function.update_self current _ _, hrecorded i hi⟩

/-- The path that `sys_chdir` records, resolved from anywhere in the file systems that the call has found, gives the
    directory that it records. -/
theorem chdir_resolves {current : P} {path : Chars} {s t : Processes P} (hcanonical : CanonicalCwds s)
    (hs : s.vfs.allocations.Succeed) (h : sysChdir current path s = .ok (.ok (), t)) :
    ∃ cwd, t.cwd current = some cwd ∧ Canonical cwd.path ∧
      ∀ cwdPath, Canonical cwdPath →
        ∃ r u, vfsResolvePath cwdPath cwd.path false false s.vfs = .ok (r, u) ∧ r.inode = .ok cwd.inode :=
  ensures_iff.1 (sysChdir_recorded hcanonical hs) (.ok ()) t h rfl

end Chdir

/-! ### An empty directory -/

section RootOnly

/-- A root directory without entries, and memory for everything. -/
def rootOnly : State where
  inodes i := if i = 0 then some { fops := .tmpfsDir, mode := S_IFDIR } else none
  nextInode := 1
  root := 0
  allocations := { answers := fun _ => true }

/-- `..` in the root directory. -/
theorem resolve_canonical_rootOnly :
    ∃ canonical t, vfsCanonicalizePath ROOT_DIR dotDot rootOnly.allocations = .ok (.ok canonical, t) ∧
      ∀ cwdPath', Canonical cwdPath' →
        Agree SameFiles (vfsResolvePath ROOT_DIR dotDot true true) rootOnly
          (vfsResolvePath cwdPath' canonical true true) { rootOnly with allocations := t } :=
  resolve_canonical canonical_root dotDot true true fun _ => rfl

/-- A process in the root directory. -/
def rootProcess : Processes Unit := { vfs := rootOnly, cwd := fun _ => some { path := ROOT_DIR, inode := 0 } }

theorem chdir_resolves_rootOnly :
    ∃ t : Processes Unit, sysChdir () dotDot rootProcess = .ok (.ok (), t) ∧
      ∃ cwd, t.cwd () = some cwd ∧ Canonical cwd.path ∧
        ∀ cwdPath, Canonical cwdPath →
          ∃ r u, vfsResolvePath cwdPath cwd.path false false rootProcess.vfs = .ok (r, u) ∧ r.inode = .ok cwd.inode := by
  have hcanonical : CanonicalCwds rootProcess := by
    rintro p cwd ⟨⟩
    exact canonical_root
  obtain ⟨t, hreturn⟩ : ∃ t, sysChdir () dotDot rootProcess = .ok (.ok (), t) := ⟨_, rfl⟩
  exact ⟨t, hreturn, chdir_resolves hcanonical (fun _ => rfl) hreturn⟩

end RootOnly

end Vfs

end Chaotix
