/-
Module: Chaotix.Proofs.FileCalls
Layer: Proofs
Purpose: The counts of inodes over runs of the calls that change the tree. A rename onto the same inode or onto a
  directory is the one call that can go wrong.
Imports: Chaotix.Proofs.TreeChanges
Trusted boundary: none
Main exports: Leaves, sysLink_spec, RenameSpec, sysRename_spec, users, Accounts, runCall_spec, Orderly, runs_account, Plain,
  runs_account_exactly
-/
import Chaotix.Proofs.TreeChanges

namespace Chaotix

namespace Vfs

open Pathname

namespace Calls

/-! ### Calls -/

section Walks

variable {clean : Prop} {l : Multiset ℕ} {s : State}

/-- `sys_unlink`. -/
theorem sysUnlink_spec (h : Held clean ∅ 0 l s) (cwdPath pathname : Chars) :
    Yields (sysUnlink cwdPath pathname) s fun _ t => ∃ leak, (clean → leak = 0) ∧ Held clean ∅ 0 (leak + l) t := by
  rw [sysUnlink, yields_bind]
  apply (vfsResolvePath_spec h cwdPath pathname true true).mono
  intro r t hr
  obtain ⟨leak, hclean, hnone, ht⟩ := held_walked hr
  obtain ⟨resolved, parent, basename⟩ := r
  cases resolved with
  | error e =>
      rw [handed_error] at ht
      dsimp only
      rw [yields_bind]
      apply (inodeUnrefOption_spec ht).mono
      exact fun _ u hu => ⟨leak, hclean, hu⟩
  | ok i =>
      obtain rfl := hnone ⟨i, rfl⟩
      rw [handed_ok, zero_add] at ht
      cases parent with
      | none =>
          rw [refsOf_none, add_zero] at ht
          dsimp only
          rw [yields_bind]
          apply (unref_spec ht).mono
          rintro _ u ⟨hu, -⟩
          exact ⟨0, fun _ => rfl, held_congr hu (zero_add l).symm⟩
      | some parent =>
          rw [refsOf_some] at ht
          obtain ⟨inode, hinode⟩ := exists_held (i := i) ht (by simp)
          obtain ⟨basename, rfl⟩ := hr.named rfl parent rfl
          dsimp only
          rw [yields_bind_of_return (run_getInode hinode)]
          split
          · have hswap : Held clean ∅ 0 ({parent} + ({i} + l)) t := held_congr ht (by abel)
            rw [yields_bind]
            apply (unref_spec hswap).mono
            rintro _ u ⟨hu, -⟩
            rw [yields_bind]
            apply (unref_spec hu).mono
            rintro _ v ⟨hv, -⟩
            exact ⟨0, fun _ => rfl, held_congr hv (zero_add l).symm⟩
          · rw [add_assoc] at ht
            rw [yields_bind]
            apply (unref_spec ht).mono
            rintro _ u ⟨hu, -⟩
            apply (inodeUnlinkChild_spec hu basename).mono
            exact fun _ v hv => ⟨0, fun _ => rfl, held_congr hv.2 (zero_add l).symm⟩

/-- `sys_rmdir`. -/
theorem sysRmdir_spec (h : Held clean ∅ 0 l s) (cwdPath pathname : Chars) :
    Yields (sysRmdir cwdPath pathname) s fun _ t => ∃ leak, (clean → leak = 0) ∧ Held clean ∅ 0 (leak + l) t := by
  rw [sysRmdir, yields_bind]
  apply (vfsResolvePath_spec h cwdPath pathname true true).mono
  intro r t hr
  obtain ⟨leak, hclean, hnone, ht⟩ := held_walked hr
  obtain ⟨resolved, parent, basename⟩ := r
  cases resolved with
  | error e =>
      rw [handed_error] at ht
      dsimp only
      rw [yields_bind]
      apply (inodeUnrefOption_spec ht).mono
      exact fun _ u hu => ⟨leak, hclean, hu⟩
  | ok i =>
      obtain rfl := hnone ⟨i, rfl⟩
      rw [handed_ok, zero_add] at ht
      cases parent with
      | none =>
          rw [refsOf_none, add_zero] at ht
          dsimp only
          rw [yields_bind]
          apply (unref_spec ht).mono
          rintro _ u ⟨hu, -⟩
          exact ⟨0, fun _ => rfl, held_congr hu (zero_add l).symm⟩
      | some parent =>
          rw [refsOf_some, add_assoc] at ht
          have hswap : Held clean ∅ 0 ({parent} + ({i} + l)) t := held_congr ht (add_left_comm _ _ _)
          obtain ⟨inode, hinode⟩ := exists_held (i := i) ht (by simp)
          obtain ⟨basename, rfl⟩ := hr.named rfl parent rfl
          dsimp only
          rw [yields_bind_of_return (run_getInode hinode)]
          split
          case isTrue =>
            rw [yields_bind]
            apply (unref_spec hswap).mono
            rintro _ u ⟨hu, -⟩
            rw [yields_bind]
            apply (unref_spec hu).mono
            rintro _ v ⟨hv, -⟩
            exact ⟨0, fun _ => rfl, held_congr hv (zero_add l).symm⟩
          case isFalse hdir =>
            rw [yields_bind]
            apply (makeSureDirectoryIsEmpty_spec ht hinode (by simpa using hdir)).mono
            intro r u hu
            cases r with
            | error e =>
                dsimp only
                rw [yields_bind]
                apply (unref_spec hu).mono
                rintro _ v ⟨hv, -⟩
                exact ⟨0, fun _ => rfl, held_congr hv (zero_add l).symm⟩
            | ok _ =>
                apply (inodeUnlinkChild_spec hu basename).mono
                exact fun _ v hv => ⟨0, fun _ => rfl, held_congr hv.2 (zero_add l).symm⟩

end Walks

section SystemCalls

variable {clean : Prop} {l : Multiset ℕ} {f : Files} {inode : Inode}

/-- The file type in the mode of a new file. -/
theorem and_or_ifmt (mode type : ℕ) (htype : type &&& S_IFMT = type) :
    ((mode &&& 0o777) ||| type) &&& S_IFMT = type := by
  have hperm : 0o777 &&& S_IFMT = 0 := by decide
  rw [Nat.and_or_distrib_right, Nat.and_assoc, hperm, Nat.and_zero, Nat.zero_or, htype]

/-- What a call that leaves the descriptions and the working directories alone leaves behind. -/
def Leaves (clean : Prop) (l : Multiset ℕ) (f : Files) (r : Except Errno Unit) (g : Files) : Prop :=
  SameUsers f g ∧ ∃ leak, (clean → r ≠ .error .ENOMEM → leak = 0) ∧ Held clean ∅ 0 (leak + l) g.vfs

theorem Leaves.of_held {r : Except Errno Unit} {g : Files} (hsame : SameUsers f g) (h : Held clean ∅ 0 l g.vfs) :
    Leaves clean l f r g := ⟨hsame, 0, fun _ _ => rfl, held_congr h (zero_add l).symm⟩

/-- `sys_mkdir`. -/
theorem sysMkdir_spec (h : Held clean ∅ 0 l f.vfs) (cwdPath pathname : Chars) (mode : ℕ) :
    Yields (sysMkdir cwdPath pathname mode) f (Leaves clean l f) := by
  rw [sysMkdir, yields_bind]
  apply (createInode_spec h cwdPath pathname (by rw [and_or_ifmt mode S_IFDIR (by decide)]; decide) true).mono
  rintro r g ⟨hsame, leak, hleak, hg⟩
  cases r with
  | error e => exact ⟨hsame, leak, fun hc he => hleak hc fun h => he (by cases h; rfl), held_congr hg (zero_add _)⟩
  | ok i =>
      dsimp only
      rw [yields_bind, yields_onVfs]
      apply (unref_spec hg).mono
      rintro _ t ⟨ht, -⟩
      exact ⟨hsame, leak, fun hc _ => hleak hc (by simp), ht⟩

/-- `sys_mknod`. -/
theorem sysMknod_spec (h : Held clean ∅ 0 l f.vfs) (cwdPath pathname : Chars) (mode dev : ℕ) :
    Yields (sysMknod cwdPath pathname mode dev) f (Leaves clean l f) := by
  rw [sysMknod]
  split
  · exact Leaves.of_held (⟨rfl, rfl⟩) h
  · rename_i htype
    have hmode : mode &&& S_IFMT ≠ 0 := by
      intro hzero
      rw [hzero] at htype
      exact htype (by decide)
    rw [yields_bind]
    apply (createInode_spec h cwdPath pathname hmode true).mono
    rintro r g ⟨hsame, leak, hleak, hg⟩
    cases r with
    | error e => exact ⟨hsame, leak, fun hc he => hleak hc fun h => he (by cases h; rfl), held_congr hg (zero_add _)⟩
    | ok i =>
        dsimp only
        rw [yields_bind, yields_modify, yields_bind, yields_onVfs]
        apply (unref_spec hg).mono
        rintro _ t ⟨ht, -⟩
        exact ⟨hsame, leak, fun hc _ => hleak hc (by simp), ht⟩

/-- `sys_link`. -/
theorem sysLink_spec (h : Held clean ∅ 0 l f.vfs) (cwdPath oldpath newpath : Chars) :
    Yields (sysLink cwdPath oldpath newpath) f (Leaves clean l f) := by
  rw [sysLink, yields_bind, yields_onVfs]
  apply (vfsResolvePath_spec h cwdPath oldpath false false).mono
  intro old t hold
  obtain ⟨leak, hclean, hnone, ht⟩ := held_walked hold
  obtain ⟨resolved, parent, basename⟩ := old
  obtain rfl : parent = none := hold.parent rfl
  cases resolved with
  | error e => exact ⟨⟨rfl, rfl⟩, leak, fun hc _ => hclean hc, held_congr ht (by simp)⟩
  | ok i =>
      obtain rfl := hnone ⟨i, rfl⟩
      have hi : Held clean ∅ 0 ({i} + l) t := held_congr ht (by simp)
      obtain ⟨node, hnode⟩ := exists_held (i := i) hi (by simp)
      dsimp only
      rw [yields_bind, yields_onVfs, Yields, run_getInode hnode]
      dsimp only
      split
      · rw [yields_bind, yields_onVfs]
        apply (unref_spec hi).mono
        rintro _ u ⟨hu, -⟩
        exact Leaves.of_held ⟨rfl, rfl⟩ hu
      · rw [yields_bind, yields_onVfs]
        apply (vfsResolvePath_spec hi cwdPath newpath true true).mono
        intro new u hnew
        obtain ⟨leak, hclean, hnone, hu⟩ := held_walked hnew
        obtain ⟨resolved, newParent, newBasename⟩ := new
        cases resolved with
        | ok j =>
            obtain rfl := hnone ⟨j, rfl⟩
            have hswap : Held clean ∅ 0 ({i} + (refsOf newParent + ({j} + l))) u :=
              held_congr hu (by rw [handed_ok]; abel)
            dsimp only
            rw [yields_bind, yields_onVfs]
            apply (unref_spec hswap).mono
            rintro _ v ⟨hv, -⟩
            rw [yields_bind, yields_onVfs]
            apply (inodeUnrefOption_spec hv).mono
            intro _ w hw
            rw [yields_bind, yields_onVfs]
            apply (unref_spec hw).mono
            rintro _ x ⟨hx, -⟩
            exact Leaves.of_held ⟨rfl, rfl⟩ hx
        | error e =>
            have hswap : Held clean ∅ 0 ({i} + (refsOf newParent + (leak + l))) u :=
              held_congr hu (by rw [handed_error]; abel)
            dsimp only
            split
            · rw [yields_bind, yields_onVfs]
              apply (unref_spec hswap).mono
              rintro _ v ⟨hv, -⟩
              rw [yields_bind, yields_onVfs]
              apply (inodeUnrefOption_spec hv).mono
              intro _ w hw
              exact ⟨⟨rfl, rfl⟩, leak, fun hc _ => hclean hc, hw⟩
            · rename_i hmissing
              obtain rfl : e = .ENOENT := not_not.1 hmissing
              cases newParent with
              | none =>
                  rw [refsOf_none, zero_add] at hswap
                  dsimp only
                  rw [yields_bind, yields_onVfs]
                  apply (unref_spec hswap).mono
                  rintro _ v ⟨hv, -⟩
                  exact ⟨⟨rfl, rfl⟩, leak, fun hc _ => hclean hc, hv⟩
              | some newParent =>
                  obtain ⟨newBasename, rfl⟩ := hnew.named rfl newParent rfl
                  have hlink : Held clean ∅ 0 ({newParent} + ({i} + (leak + l))) u :=
                    held_congr hswap (by rw [refsOf_some]; abel)
                  obtain ⟨dir, hdir⟩ := exists_held (i := newParent) hlink (by simp)
                  apply (inodeLinkChild_spec (f := { f with vfs := u }) hlink hdir newBasename).mono
                  rintro r g ⟨hsame, -, leak', hleak', hg⟩
                  refine ⟨hsame, leak' + leak, fun hc he => ?_, held_congr hg (by abel)⟩
                  rw [hleak' (fun hfops => hnew.missing rfl newParent newBasename dir rfl rfl hdir hfops) he, hclean hc,
                    zero_add]

/-- What follows the label `fail` returns the error. -/
theorem renameFail_result (rc : Except Errno Unit) (oldParent oldInode newParent newInode : Option ℕ) (s : State) :
    Ensures (renameFail rc oldParent oldInode newParent newInode) s fun r _ => r = rc := by
  have hrest : ∀ {α : Type} (m : Kernel State α) {k : α → Kernel State (Except Errno Unit)} (t : State),
      (∀ a u, Ensures (k a) u fun r _ => r = rc) → Ensures (m >>= k) t fun r _ => r = rc := by
    intro α m k t hk
    rw [ensures_bind]
    exact ensures_iff.2 fun a u _ => hk a u
  exact hrest _ s fun _ t => hrest _ t fun _ u => hrest _ u fun _ v => hrest _ v fun _ w => hrest _ w fun _ x => rfl

/-- What follows the label `fail` gives back what it is given. -/
theorem renameFail_spec {e : Errno} {oldParent oldInode newParent newInode : Option ℕ} {s : State}
    (h : Held clean ∅ 0 (refsOf oldParent + refsOf oldInode + refsOf newParent + refsOf newInode + l) s) :
    Yields (renameFail (.error e) oldParent oldInode newParent newInode) s fun r t =>
      r = .error e ∧ Held clean ∅ 0 l t := by
  rw [renameFail, yields_bind, assert, yields_require]
  refine ⟨rfl, ?_⟩
  have h₁ : Held clean ∅ 0 (refsOf oldParent + (refsOf oldInode + (refsOf newParent + (refsOf newInode + l)))) s :=
    held_congr h (by abel)
  rw [yields_bind]
  apply (inodeUnrefOption_spec h₁).mono
  intro _ t ht
  rw [yields_bind]
  apply (inodeUnrefOption_spec ht).mono
  intro _ u hu
  rw [yields_bind]
  apply (inodeUnrefOption_spec hu).mono
  intro _ v hv
  rw [yields_bind]
  apply (inodeUnrefOption_spec hv).mono
  exact fun _ w hw => ⟨rfl, hw⟩

/-- The end of `sys_rename`, where `extra` is what is held for the inode that had the new name. -/
theorem renameLink_spec {oldParent oldInode newParent : ℕ} {newInode : Option ℕ} {dir : Inode}
    (h : Held clean ∅ 0 ({newParent} + ({oldInode} + ({oldParent} + (refsOf newInode + l)))) f.vfs)
    (hdir : f.vfs.inodes newParent = some dir) (oldBasename newBasename : Chars) :
    Yields (renameLink oldParent oldBasename oldInode newParent (some newBasename) newInode) f fun r g => SameUsers f g ∧
      ∃ leak, (newInode = none → (dir.fops = .tmpfsDir → newBasename ∉ namesOf dir.children) → r ≠ .error .ENOMEM →
        leak = 0) ∧ Held clean ∅ 0 (leak + l) g.vfs := by
  rw [renameLink, yields_bind]
  apply (inodeLinkChild_spec h hdir newBasename).mono
  rintro r g ⟨hsame, -, leak, hleak, hg⟩
  cases r with
  | error e =>
      have hfail : Held clean ∅ 0 (refsOf (some oldParent) + refsOf none + refsOf none + refsOf newInode + (leak + l))
          g.vfs := held_congr hg (by rw [refsOf_none, refsOf_some]; abel)
      dsimp only
      rw [yields_onVfs]
      apply (renameFail_spec hfail).mono
      rintro r t ⟨rfl, ht⟩
      exact ⟨hsame, leak, fun _ hmissing he => hleak hmissing he, ht⟩
  | ok _ =>
      have hswap : Held clean ∅ 0 ({oldParent} + ((refsOf newInode + leak) + l)) g.vfs := held_congr hg (by abel)
      dsimp only
      rw [yields_onVfs]
      apply (inodeUnlinkChild_spec hswap oldBasename).mono
      rintro r t ⟨-, ht⟩
      refine ⟨hsame, refsOf newInode + leak, fun hnone hmissing _ => ?_, ht⟩
      rw [hnone, hleak hmissing (by simp), refsOf_none, zero_add]

/-- The replacement of what has the new name, when its reference is still there. -/
theorem renameReplace_spec {oldParent oldInode newInode newParent : ℕ}
    (h : Held clean ∅ 0 ({newParent} + ({oldInode} + ({oldParent} + ({newInode} + l)))) f.vfs)
    (oldBasename newBasename : Chars) :
    Yields (renameReplace oldParent oldBasename oldInode newInode (some newParent) (some newBasename)) f fun _ g =>
      SameUsers f g ∧ ∃ leak, Held clean ∅ 0 (leak + l) g.vfs := by
  obtain ⟨dir, hdir⟩ := exists_held (i := newParent) h (by simp)
  rw [renameReplace, yields_bind, yields_onVfs]
  apply (ref_spec h hdir).mono
  rintro _ t ⟨ht, -⟩
  rw [yields_bind, yields_onVfs]
  apply (inodeUnlinkChild_spec ht newBasename).mono
  rintro r u ⟨-, hu⟩
  cases r with
  | error e =>
      have hfail : Held clean ∅ 0 (refsOf (some oldParent) + refsOf (some oldInode) + refsOf (some newParent) +
          refsOf (some newInode) + l) u := held_congr hu (by simp only [refsOf_some]; abel)
      dsimp only
      rw [yields_onVfs]
      apply (renameFail_spec hfail).mono
      rintro r v ⟨-, hv⟩
      exact ⟨⟨rfl, rfl⟩, 0, held_congr hv (zero_add l).symm⟩
  | ok _ =>
      obtain ⟨dir', hdir'⟩ := exists_held (i := newParent) hu (by simp)
      have hlink : Held clean ∅ 0 ({newParent} + ({oldInode} + ({oldParent} + (refsOf (some newInode) + l)))) u := hu
      apply (renameLink_spec (f := { f with vfs := u }) hlink hdir' oldBasename newBasename).mono
      rintro r g ⟨hsame, leak, -, hg⟩
      exact ⟨hsame, leak, hg⟩

/-- The replacement of a directory, whose reference is gone: it is in order as long as nothing fails after it. -/
theorem renameReplace_directory {oldParent oldInode newInode newParent : ℕ}
    (h : Held clean ∅ 0 ({newParent} + ({oldInode} + ({oldParent} + l))) f.vfs) (oldBasename newBasename : Chars) :
    Ensures (renameReplace oldParent oldBasename oldInode newInode (some newParent) (some newBasename)) f fun r g =>
      r = .ok () ∨ r = .error .ENOTEMPTY ∨ r = .error .EISDIR → SameUsers f g ∧ ∃ leak, Held clean ∅ 0 (leak + l) g.vfs := by
  obtain ⟨dir, hdir⟩ := exists_held (i := newParent) h (by simp)
  have hfails : ∀ {e : Errno} {g : Files} {oldParent oldInode newParent newInode : Option ℕ},
      e ∈ [Errno.ENOTDIR, .ENOENT, .EXDEV, .ENOMEM, .EEXIST] →
      Ensures (onVfs (renameFail (.error e) oldParent oldInode newParent newInode)) g fun r g =>
        r = .ok () ∨ r = .error .ENOTEMPTY ∨ r = .error .EISDIR →
          SameUsers f g ∧ ∃ leak, Held clean ∅ 0 (leak + l) g.vfs := by
    intro e g oldParent oldInode newParent newInode he
    rw [onVfs, ensures_focus]
    apply (renameFail_result (.error e) oldParent oldInode newParent newInode g.vfs).mono
    rintro r t rfl (hok | hnotempty | hdirectory)
    · cases hok
    · obtain rfl := Except.error.inj hnotempty
      exact absurd he (by decide)
    · obtain rfl := Except.error.inj hdirectory
      exact absurd he (by decide)
  rw [renameReplace, ensures_bind, onVfs, ensures_focus]
  apply (ref_spec h hdir).ensures.mono
  rintro _ t ⟨ht, -⟩
  rw [ensures_bind, onVfs, ensures_focus]
  apply (inodeUnlinkChild_spec ht newBasename).ensures.mono
  rintro r u ⟨he, hu⟩
  cases r with
  | error e =>
      refine hfails ?_
      have hmem := he e rfl
      simp only [List.mem_cons, List.not_mem_nil, or_false] at hmem ⊢
      tauto
  | ok _ =>
      obtain ⟨dir', hdir'⟩ := exists_held (i := newParent) hu (by simp)
      dsimp only
      rw [renameLink, ensures_bind]
      apply (inodeLinkChild_spec (f := { f with vfs := u }) hu hdir' newBasename).ensures.mono
      rintro r g ⟨hsame, he, leak, -, hg⟩
      cases r with
      | error e =>
          refine hfails ?_
          have hmem := he e rfl
          simp only [List.mem_cons, List.not_mem_nil, or_false] at hmem ⊢
          tauto
      | ok _ =>
          have hswap : Held clean ∅ 0 ({oldParent} + (leak + l)) g.vfs := held_congr hg (add_left_comm _ _ _)
          dsimp only
          rw [onVfs, ensures_focus]
          apply (inodeUnlinkChild_spec hswap oldBasename).ensures.mono
          rintro r v ⟨-, hv⟩ -
          exact ⟨hsame, leak, hv⟩

/-- What a rename finds at its two paths: the inodes, and whether the second is a directory. -/
def renameTarget (cwdPath oldpath newpath : Chars) (s : State) : Option (ℕ × ℕ × Bool) :=
  match vfsResolvePath cwdPath oldpath true true s with
  | .ok ({ inode := .ok old, parent := some _, basename := _ }, t) =>
      match vfsResolvePath cwdPath newpath true true t with
      | .ok ({ inode := .ok new, parent := _, basename := _ }, u) =>
          (u.inodes new).map fun inode => (old, new, sIsDir inode.mode)
      | _ => none
  | _ => none

/-- A rename to a new name. -/
theorem renameResolved_missing {oldParent oldInode : ℕ} {e : Errno} {newParent : Option ℕ} {newBasename : Option Chars}
    {s₀ : State} {base : Multiset ℕ}
    (hnew : Walked clean s₀ base true true 0 { inode := .error e, parent := newParent, basename := newBasename } f.vfs)
    (h : Held clean ∅ 0 (refsOf newParent + ({oldInode} + ({oldParent} + l))) f.vfs) (oldBasename : Chars) :
    Yields (renameResolved oldParent oldBasename oldInode
      { inode := .error e, parent := newParent, basename := newBasename }) f (Leaves clean l f) := by
  rw [renameResolved]
  dsimp only
  split
  · have hfail : Held clean ∅ 0 (refsOf (some oldParent) + refsOf (some oldInode) + refsOf newParent + refsOf none + l)
        f.vfs := held_congr h (by simp only [refsOf_some, refsOf_none]; abel)
    rw [yields_onVfs]
    apply (renameFail_spec hfail).mono
    rintro r t ⟨-, ht⟩
    exact Leaves.of_held ⟨rfl, rfl⟩ ht
  · rename_i hmissing
    obtain rfl : e = .ENOENT := not_not.1 hmissing
    cases newParent with
    | none =>
        have hfail : Held clean ∅ 0 (refsOf (some oldParent) + refsOf (some oldInode) + refsOf none + refsOf none + l)
            f.vfs := held_congr h (by simp only [refsOf_some, refsOf_none]; abel)
        rw [yields_onVfs]
        apply (renameFail_spec hfail).mono
        rintro r t ⟨-, ht⟩
        exact Leaves.of_held ⟨rfl, rfl⟩ ht
    | some newParent =>
        obtain ⟨newBasename, rfl⟩ := hnew.named rfl newParent rfl
        have hlink : Held clean ∅ 0 ({newParent} + ({oldInode} + ({oldParent} + (refsOf none + l)))) f.vfs :=
          held_congr h (by rw [refsOf_some, refsOf_none, zero_add])
        obtain ⟨dir, hdir⟩ := exists_held (i := newParent) hlink (by simp)
        apply (renameLink_spec hlink hdir oldBasename newBasename).mono
        rintro r g ⟨hsame, leak, hleak, hg⟩
        refine ⟨hsame, leak, fun _ he => hleak rfl (fun hfops => ?_) he, hg⟩
        exact hnew.missing rfl newParent newBasename dir rfl rfl hdir hfops

/-- A rename onto another file. -/
theorem renameResolved_file {oldParent oldInode newInode : ℕ} {newParent : Option ℕ} {newBasename : Option Chars}
    {s₀ : State} {base : Multiset ℕ}
    (hnew : Walked clean s₀ base true true 0 { inode := .ok newInode, parent := newParent, basename := newBasename } f.vfs)
    (hroot : f.vfs.root = s₀.root)
    (h : Held clean ∅ 0 (refsOf newParent + ({oldInode} + ({oldParent} + ({newInode} + l)))) f.vfs)
    (hne : oldInode ≠ newInode) (hinode : f.vfs.inodes newInode = some inode) (hfile : sIsDir inode.mode = false)
    (oldBasename : Chars) :
    Yields (renameResolved oldParent oldBasename oldInode
      { inode := .ok newInode, parent := newParent, basename := newBasename }) f fun _ g =>
        SameUsers f g ∧ ∃ leak, Held clean ∅ 0 (leak + l) g.vfs := by
  obtain ⟨newParent, rfl⟩ : ∃ p, newParent = some p := by
    cases newParent with
    | some p => exact ⟨p, rfl⟩
    | none =>
        -- only the root directory has no parent
        have hself : newInode = s₀.root := hnew.root rfl rfl newInode rfl
        have hdir := (h.kinds newInode inode hinode).rootDir (hself.trans hroot.symm)
        rw [hfile] at hdir
        cases hdir
  obtain ⟨newBasename, rfl⟩ := hnew.named rfl newParent rfl
  rw [renameResolved]
  dsimp only
  rw [if_neg hne.symm, yields_bind, yields_onVfs, Yields, run_getInode hinode]
  dsimp only
  rw [hfile, if_neg Bool.false_ne_true]
  exact renameReplace_spec h oldBasename newBasename

/-- A rename onto a directory. -/
theorem renameResolved_directory {oldParent oldInode newInode : ℕ} {newParent : Option ℕ} {newBasename : Option Chars}
    {s₀ : State} {base : Multiset ℕ}
    (hnew : Walked clean s₀ base true true 0 { inode := .ok newInode, parent := newParent, basename := newBasename } f.vfs)
    (h : Held clean ∅ 0 (refsOf newParent + ({oldInode} + ({oldParent} + ({newInode} + l)))) f.vfs)
    (hinode : f.vfs.inodes newInode = some inode) (hdir : sIsDir inode.mode = true) (oldBasename : Chars) :
    Ensures (renameResolved oldParent oldBasename oldInode
      { inode := .ok newInode, parent := newParent, basename := newBasename }) f fun r g =>
        r = .ok () ∨ r = .error .ENOTEMPTY ∨ r = .error .EISDIR →
          SameUsers f g ∧ ∃ leak, Held clean ∅ 0 (leak + l) g.vfs := by
  obtain ⟨old, hold⟩ := exists_held (i := oldInode) h (by simp)
  rw [renameResolved]
  dsimp only
  split
  · -- the same inode: the assertion behind `fail` does not hold
    rw [onVfs, ensures_focus, renameFail, ensures_bind, assert, ensures_require]
    intro hfalse
    cases hfalse
  · rw [ensures_bind, onVfs, ensures_focus, Ensures, run_getInode hinode]
    dsimp only
    rw [if_pos hdir, ensures_bind, onVfs, ensures_focus, Ensures, run_getInode hold]
    dsimp only
    split
    · have hfail : Held clean ∅ 0 (refsOf (some oldParent) + refsOf (some oldInode) + refsOf newParent +
          refsOf (some newInode) + l) f.vfs := held_congr h (by simp only [refsOf_some]; abel)
      rw [onVfs, ensures_focus]
      apply (renameFail_spec hfail).ensures.mono
      rintro r t ⟨-, ht⟩ -
      exact ⟨⟨rfl, rfl⟩, 0, held_congr ht (zero_add l).symm⟩
    · have hswap : Held clean ∅ 0 ({newInode} + (refsOf newParent + ({oldInode} + ({oldParent} + l)))) f.vfs :=
        held_congr h (by abel)
      rw [ensures_bind, onVfs, ensures_focus]
      apply (makeSureDirectoryIsEmpty_spec hswap hinode hdir).ensures.mono
      intro r t ht
      cases r with
      | error e =>
          have hfail : Held clean ∅ 0 (refsOf (some oldParent) + refsOf (some oldInode) + refsOf newParent +
              refsOf none + l) t := held_congr ht (by simp only [refsOf_some, refsOf_none]; abel)
          dsimp only
          rw [onVfs, ensures_focus]
          apply (renameFail_spec hfail).ensures.mono
          rintro r u ⟨-, hu⟩ -
          exact ⟨⟨rfl, rfl⟩, 0, held_congr hu (zero_add l).symm⟩
      | ok _ =>
          cases newParent with
          | none => trivial
          | some newParent =>
              obtain ⟨newBasename, rfl⟩ := hnew.named rfl newParent rfl
              apply (renameReplace_directory (f := { f with vfs := t }) ht oldBasename newBasename).mono
              rintro r g hg hresult
              obtain ⟨hsame, leak, hheld⟩ := hg hresult
              exact ⟨hsame, leak, hheld⟩

/-- What is known of a rename by what it finds at the two paths. Onto another file it leaves a reference behind; onto a
    directory it is in order when it succeeds or refuses; and onto the same inode it does not return. -/
def RenameSpec (clean : Prop) (l : Multiset ℕ) (f : Files) (m : Kernel Files (Except Errno Unit)) :
    Option (ℕ × ℕ × Bool) → Prop
  | none => Yields m f (Leaves clean l f)
  | some (old, new, false) => old ≠ new → Yields m f fun _ g => SameUsers f g ∧ ∃ leak, Held clean ∅ 0 (leak + l) g.vfs
  | some (_, _, true) => Ensures m f fun r g =>
      r = .ok () ∨ r = .error .ENOTEMPTY ∨ r = .error .EISDIR → SameUsers f g ∧ ∃ leak, Held clean ∅ 0 (leak + l) g.vfs

/-- `sys_rename`. -/
theorem sysRename_spec (h : Held clean ∅ 0 l f.vfs) (cwdPath oldpath newpath : Chars) :
    RenameSpec clean l f (sysRename cwdPath oldpath newpath) (renameTarget cwdPath oldpath newpath f.vfs) := by
  obtain ⟨old, t, hold, hwalked⟩ := yields_iff.1 (vfsResolvePath_spec h cwdPath oldpath true true)
  obtain ⟨leak, hclean, hnone, ht⟩ := held_walked hwalked
  have hrunOld : onVfs (vfsResolvePath cwdPath oldpath true true) f = .ok (old, { f with vfs := t }) := by
    rw [onVfs, Program.focus, hold]
  obtain ⟨resolved, oldParent, oldBasename⟩ := old
  unfold renameTarget
  rw [hold]
  cases resolved with
  | error e =>
      have hfail : Held clean ∅ 0 (refsOf oldParent + refsOf none + refsOf none + refsOf none + (leak + l)) t :=
        held_congr ht (by rw [handed_error]; simp)
      change Yields (sysRename cwdPath oldpath newpath) f (Leaves clean l f)
      rw [sysRename, yields_bind_of_return hrunOld]
      dsimp only
      rw [yields_onVfs]
      apply (renameFail_spec hfail).mono
      rintro r u ⟨-, hu⟩
      exact ⟨⟨rfl, rfl⟩, leak, fun hc _ => hclean hc, hu⟩
  | ok oldInode =>
      obtain rfl := hnone ⟨oldInode, rfl⟩
      cases oldParent with
      | none =>
          have hfail : Held clean ∅ 0 (refsOf none + refsOf (some oldInode) + refsOf none + refsOf none + l) t :=
            held_congr ht (by simp)
          change Yields (sysRename cwdPath oldpath newpath) f (Leaves clean l f)
          rw [sysRename, yields_bind_of_return hrunOld]
          dsimp only
          rw [yields_onVfs]
          apply (renameFail_spec hfail).mono
          rintro r u ⟨-, hu⟩
          exact Leaves.of_held ⟨rfl, rfl⟩ hu
      | some oldParent =>
          obtain ⟨oldBasename, rfl⟩ := hwalked.named rfl oldParent rfl
          have ht' : Held clean ∅ 0 ({oldInode} + ({oldParent} + l)) t :=
            held_congr ht (by rw [handed_ok, refsOf_some]; abel)
          obtain ⟨new, u, hnew, hwalkedNew⟩ := yields_iff.1 (vfsResolvePath_spec ht' cwdPath newpath true true)
          obtain ⟨leak, hclean, hnone, hu⟩ := held_walked hwalkedNew
          have hrun : sysRename cwdPath oldpath newpath f =
              renameResolved oldParent oldBasename oldInode new { f with vfs := u } := by
            rw [sysRename, Program.run_bind, hrunOld]
            dsimp only
            rw [Program.run_bind, onVfs, Program.focus, hnew]
          have hyields : ∀ {post : Except Errno Unit → Files → Prop},
              Yields (renameResolved oldParent oldBasename oldInode new) { f with vfs := u } post →
                Yields (sysRename cwdPath oldpath newpath) f post := by
            intro post hpost
            rwa [Yields, hrun]
          have hensures : ∀ {post : Except Errno Unit → Files → Prop},
              Ensures (renameResolved oldParent oldBasename oldInode new) { f with vfs := u } post →
                Ensures (sysRename cwdPath oldpath newpath) f post := by
            intro post hpost
            rwa [Ensures, hrun]
          obtain ⟨resolved, newParent, newBasename⟩ := new
          dsimp only
          rw [hnew]
          cases resolved with
          | error e =>
              have hswap : Held clean ∅ 0 (refsOf newParent + ({oldInode} + ({oldParent} + (leak + l)))) u :=
                held_congr hu (by rw [handed_error]; abel)
              refine hyields ?_
              apply (renameResolved_missing (f := { f with vfs := u }) hwalkedNew hswap oldBasename).mono
              rintro r g ⟨hsame, leak', hleak', hg⟩
              refine ⟨hsame, leak' + leak, fun hc he => ?_, held_congr hg (by abel)⟩
              rw [hleak' hc he, hclean hc, zero_add]
          | ok newInode =>
              obtain rfl := hnone ⟨newInode, rfl⟩
              have hswap : Held clean ∅ 0 (refsOf newParent + ({oldInode} + ({oldParent} + ({newInode} + l)))) u :=
                held_congr hu (by rw [handed_ok]; abel)
              obtain ⟨inode, hinode⟩ := exists_held (i := newInode) hswap (by simp)
              dsimp only
              rw [hinode, Option.map_some]
              cases hdir : sIsDir inode.mode with
              | false =>
                  intro hne
                  obtain ⟨_, _, _, hwalking⟩ := hwalkedNew.held
                  exact hyields (renameResolved_file (f := { f with vfs := u }) hwalkedNew hwalking.since.root hswap hne
                    hinode hdir oldBasename)
              | true =>
                  exact hensures (renameResolved_directory (f := { f with vfs := u }) hwalkedNew hswap hinode hdir
                    oldBasename)

/-- The reference that comes with a description. -/
def openedRefs : Opened → Multiset ℕ
  | .inode i => {i}
  | .device _ => 0

/-- The references of the processes: those of open descriptions and of working directories. -/
def users (f : Files) : Multiset ℕ := (f.descriptions.map openedRefs).sum + ↑(f.cwds.map Cwd.inode)

theorem users_congr {f g : Files} (h : SameUsers f g) : users g = users f := by
  rw [users, users, h.1, h.2]

/-- The counts of the inodes are right for the processes and for what has been left behind. -/
def Accounts (clean : Prop) (leak : Multiset ℕ) (f : Files) : Prop := Held clean ∅ 0 (leak + users f) f.vfs

/-- What a call leaves behind on top of what was there. -/
def CallLeaves (clean : Prop) (leak : Multiset ℕ) (r : Except Errno Unit) (g : Files) : Prop :=
  ∃ more, (clean → r ≠ .error .ENOMEM → more = 0) ∧ Accounts clean (more + leak) g

theorem Leaves.call {leak : Multiset ℕ} {r : Except Errno Unit} {g : Files}
    (h : Leaves clean (leak + users f) f r g) : CallLeaves clean leak r g := by
  obtain ⟨hsame, more, hmore, hg⟩ := h
  refine ⟨more, hmore, ?_⟩
  rw [Accounts, users_congr hsame, add_assoc]
  exact hg

/-- A further description. -/
theorem users_open (f : Files) (desc : Opened) :
    users { f with descriptions := f.descriptions ++ [desc] } = openedRefs desc + users f := by
  simp only [users, List.map_append, List.map_cons, List.map_nil, List.sum_append, List.sum_cons, List.sum_nil, add_zero]
  abel

/-- A further working directory. -/
theorem users_fork (f : Files) (cwd : Cwd) :
    users { f with cwds := f.cwds ++ [cwd] } = {cwd.inode} + users f := by
  simp only [users, List.map_append, List.map_cons, List.map_nil, ← Multiset.coe_add, Multiset.coe_singleton]
  abel

theorem sum_eraseIdx {ds : List (Multiset ℕ)} {k : ℕ} {d : Multiset ℕ} (h : ds[k]? = some d) :
    d + (ds.eraseIdx k).sum = ds.sum := by
  induction ds generalizing k with
  | nil => simp at h
  | cons x ds ih =>
      cases k with
      | zero =>
          obtain rfl : x = d := by simpa using h
          simp
      | succ k =>
          rw [List.getElem?_cons_succ] at h
          rw [List.eraseIdx_cons_succ, List.sum_cons, List.sum_cons, ← ih h]
          abel

/-- One description less. -/
theorem users_close {k : ℕ} {desc : Opened} (h : f.descriptions[k]? = some desc) :
    openedRefs desc + users { f with descriptions := f.descriptions.eraseIdx k } = users f := by
  have hsum : openedRefs desc + ((f.descriptions.map openedRefs).eraseIdx k).sum = (f.descriptions.map openedRefs).sum :=
    sum_eraseIdx (by simp [h])
  rw [List.eraseIdx_map] at hsum
  rw [users, users, ← add_assoc, hsum]

theorem coe_eraseIdx {xs : List ℕ} {k x : ℕ} (h : xs[k]? = some x) :
    ({x} + ↑(xs.eraseIdx k) : Multiset ℕ) = ↑xs := by
  obtain ⟨hlt, rfl⟩ := List.getElem?_eq_some_iff.1 h
  rw [Multiset.singleton_add, Multiset.cons_coe, Multiset.coe_eq_coe]
  exact List.getElem_cons_eraseIdx_perm hlt

/-- One working directory less. -/
theorem users_exit {k : ℕ} {cwd : Cwd} (h : f.cwds[k]? = some cwd) :
    {cwd.inode} + users { f with cwds := f.cwds.eraseIdx k } = users f := by
  have hcoe : ({cwd.inode} + ↑((f.cwds.map Cwd.inode).eraseIdx k) : Multiset ℕ) = ↑(f.cwds.map Cwd.inode) :=
    coe_eraseIdx (by simp [h])
  rw [List.eraseIdx_map] at hcoe
  rw [users, users, add_left_comm, hcoe]

/-- Another working directory. -/
theorem users_chdir {k : ℕ} {cwd : Cwd} (h : f.cwds[k]? = some cwd) (new : Cwd) :
    {cwd.inode} + users { f with cwds := f.cwds.set k new } = {new.inode} + users f := by
  obtain ⟨hlt, -⟩ := List.getElem?_eq_some_iff.1 h
  have hset : ({ f with cwds := f.cwds.set k new } : Files).cwds[k]? = some new := by
    simp [hlt]
  have hold := users_exit h
  have hnew := users_exit hset
  have herase : (f.cwds.set k new).eraseIdx k = f.cwds.eraseIdx k := List.eraseIdx_set_eq
  rw [← hnew, ← hold]
  simp only [herase]
  abel

/-- `sys_open`. -/
theorem sysOpen_spec {leak : Multiset ℕ} (h : Accounts clean leak f) (cwdPath pathname : Chars) (flags mode : ℕ)
    (fopsOpen : Except Errno Unit) (descriptor : Bool) :
    Yields (sysOpen cwdPath pathname flags mode fopsOpen descriptor) f (CallLeaves clean leak) := by
  have hfound : Yields (resolveOrCreate cwdPath pathname flags ((mode &&& 0o777) ||| S_IFREG)) f fun r g =>
      SameUsers f g ∧ ∃ more, (clean → r ≠ .error .ENOMEM → more = 0) ∧
        Held clean ∅ 0 (refsOf r.toOption + (more + (leak + users f))) g.vfs := by
    unfold resolveOrCreate
    split
    · refine createInode_spec h cwdPath pathname ?_ _
      rw [and_or_ifmt mode S_IFREG (by decide)]
      decide
    · rw [map_eq_pure_bind, yields_bind, yields_onVfs]
      apply (vfsResolvePath_spec h cwdPath pathname false false).mono
      intro r t hr
      obtain ⟨more, hclean, -, ht⟩ := held_walked hr
      have hparent := hr.parent rfl
      refine ⟨⟨rfl, rfl⟩, more, fun hc _ => hclean hc, held_congr ht ?_⟩
      rw [handed, hparent, refsOf_none, add_zero]
  rw [sysOpen, yields_bind, vfsOpen, yields_bind]
  apply hfound.mono
  rintro r g ⟨hsame, more, hmore, hg⟩
  have husers : ∀ t : State, users { g with vfs := t } = users f := fun t => users_congr hsame
  cases r with
  | error e =>
      refine ⟨more, fun hc he => hmore hc fun h => he (by cases h; rfl), ?_⟩
      rw [Accounts, users_congr hsame, add_assoc]
      exact held_congr hg (zero_add _)
  | ok i =>
      have hzero : clean → more = 0 := fun hc => hmore hc (by simp)
      have hi : Held clean ∅ 0 ({i} + (more + (leak + users f))) g.vfs := hg
      obtain ⟨inode, hinode⟩ := exists_held (i := i) hi (by simp)
      have hfails : ∀ {e : Errno} {t : State}, Held clean ∅ 0 (more + (leak + users f)) t →
          CallLeaves clean leak (.error e) { g with vfs := t } := by
        intro e t ht
        refine ⟨more, fun hc _ => hzero hc, ?_⟩
        rw [Accounts, husers, add_assoc]
        exact ht
      have hopens : ∀ {desc : Opened} {t : State}, Held clean ∅ 0 (openedRefs desc + (more + (leak + users f))) t →
          Yields (do
            modify fun s => { s with descriptions := s.descriptions ++ [desc] }
            if descriptor then return .ok () else return .error .EMFILE : Kernel Files (Except Errno Unit))
            { g with vfs := t } (CallLeaves clean leak) := by
        intro desc t ht
        have haccounts : Accounts clean (more + leak)
            { g with vfs := t, descriptions := g.descriptions ++ [desc] } := by
          rw [Accounts]
          have huse := users_open { g with vfs := t } desc
          dsimp only at huse
          rw [huse, husers]
          exact held_congr ht (by abel)
        rw [yields_bind, yields_modify]
        cases descriptor with
        | true => exact ⟨more, fun hc _ => hzero hc, haccounts⟩
        | false => exact ⟨more, fun hc _ => hzero hc, haccounts⟩
      dsimp only
      rw [yields_bind, yields_onVfs, Yields, run_getInode hinode]
      dsimp only
      split
      · rw [yields_bind, yields_get]
        dsimp only
        rw [yields_bind, yields_get]
        dsimp only
        rw [yields_bind, yields_onVfs]
        apply (unref_spec hi).mono
        rintro _ t ⟨ht, -⟩
        split
        · rw [yields_onVfs, deviceOpen, yields_bind]
          apply (yields_kmalloc t).mono
          rintro allocated u ⟨v, rfl⟩
          cases allocated with
          | false => exact hfails (ht.setAllocations v)
          | true =>
              cases fopsOpen with
              | error e => exact hfails (ht.setAllocations v)
              | ok _ => exact hopens (held_congr (ht.setAllocations v) (zero_add _).symm)
        · exact hfails ht
      · rw [yields_onVfs]
        apply (inodeOpen_spec hi flags fopsOpen).mono
        rintro r t (⟨rfl, ht⟩ | ⟨e, rfl, ht⟩)
        · exact hopens ht
        · exact hfails ht

/-- `file_description_close`. -/
theorem closeDescription_spec {leak : Multiset ℕ} (h : Accounts clean leak f) (k : ℕ) :
    Yields (closeDescription k) f (CallLeaves clean leak) := by
  rw [closeDescription, yields_bind, yields_get]
  cases hdesc : f.descriptions[k]? with
  | none => exact ⟨0, fun _ _ => rfl, by rwa [zero_add]⟩
  | some desc =>
      have husers := users_close hdesc
      rw [Accounts, ← husers, add_left_comm] at h
      dsimp only
      rw [yields_bind, yields_modify, yields_bind, yields_onVfs]
      have hunref : Yields (unrefOpened desc) f.vfs fun _ t => Held clean ∅ 0
          (leak + users { f with descriptions := f.descriptions.eraseIdx k }) t := by
        cases desc with
        | inode i => exact (unref_spec h).mono fun _ _ ht => ht.1
        | device _ => exact held_congr h (zero_add _)
      apply hunref.mono
      exact fun _ t ht => ⟨0, fun _ _ => rfl, held_congr ht (by rw [zero_add]; rfl)⟩

/-- `vfs_canonicalize_path` returns, for any path of the working directory. -/
theorem vfsCanonicalizePath_returns (cwdPath pathname : Chars) (u : Allocations) :
    Yields (vfsCanonicalizePath cwdPath pathname) u fun _ _ => True := by
  rw [vfsCanonicalizePath, yields_bind]
  apply (createPathComponentList_returns cwdPath pathname u).mono
  intro r v _
  cases r with
  | error e => trivial
  | ok cs =>
      dsimp only
      split
      · rw [yields_bind]
        apply (kstrdup_spec ROOT_DIR v).mono
        intro r w _
        cases r <;> trivial
      · rw [yields_bind]
        apply (kmallocAnswer_spec v).mono
        intro r w _
        cases r with
        | false => trivial
        | true =>
            rw [if_pos rfl, yields_bind]
            exact (writeComponents_spec w (by simp)).mono fun _ _ _ => trivial

/-- `sys_chdir`. -/
theorem chdir_spec {leak : Multiset ℕ} (h : Accounts clean leak f) (k : ℕ) (path : Chars) :
    Yields (chdir k path) f (CallLeaves clean leak) := by
  rw [chdir, yields_bind, yields_get]
  split
  · exact ⟨0, fun _ _ => rfl, by rwa [zero_add]⟩
  · rename_i hlt
    obtain ⟨cwd, hcwd⟩ : ∃ cwd, f.cwds[k]? = some cwd := ⟨_, List.getElem?_eq_getElem (not_le.1 hlt)⟩
    have hset : f.cwds.set k cwd = f.cwds := by
      obtain ⟨hlt, rfl⟩ := List.getElem?_eq_some_iff.1 hcwd
      exact List.set_getElem_self hlt
    have hfails : ∀ {more : Multiset ℕ} {e : Errno} {t : State}, (clean → more = 0) →
        Held clean ∅ 0 (more + (leak + users f)) t →
          CallLeaves clean leak (.error e) (Files.setProcess k { vfs := t, cwd := fun _ => f.cwds[k]? } f) := by
      intro more e t hmore ht
      refine ⟨more, fun hc _ => hmore hc, ?_⟩
      rw [Accounts, Files.setProcess]
      simp only [hcwd, Option.map_some, Option.getD_some, hset]
      rw [add_assoc]
      exact ht
    rw [yields_focus, sysChdir, yields_bind, yields_get]
    have hprocess : (Files.process k f).cwd () = some cwd := hcwd
    rw [hprocess]
    dsimp only
    rw [yields_bind, Vfs.onVfs, yields_focus]
    apply (yields_onAllocations (vfsCanonicalizePath_returns cwd.path path) f.vfs).mono
    rintro r t ⟨-, u, rfl⟩
    have hu := h.setAllocations u
    cases r with
    | error e => exact hfails (fun _ => rfl) (held_congr hu (zero_add _).symm)
    | ok newCwdPath =>
        dsimp only
        rw [yields_bind, Vfs.onVfs, yields_focus]
        apply (vfsResolvePath_spec hu cwd.path path false false).mono
        intro r t hr
        obtain ⟨more, hclean, hnone, ht⟩ := held_walked hr
        obtain ⟨resolved, parent, basename⟩ := r
        obtain rfl : parent = none := hr.parent rfl
        cases resolved with
        | error e => exact hfails hclean (held_congr ht (by simp))
        | ok i =>
            obtain rfl := hnone ⟨i, rfl⟩
            have hi : Held clean ∅ 0 ({i} + (leak + users f)) t := held_congr ht (by simp)
            obtain ⟨inode, hinode⟩ := exists_held (i := i) hi (by simp)
            dsimp only
            rw [yields_bind, Vfs.onVfs, yields_focus, Yields, run_getInode hinode]
            dsimp only
            split
            · rw [yields_bind, Vfs.onVfs, yields_focus]
              apply (unref_spec hi).mono
              rintro _ v ⟨hv, -⟩
              exact hfails (fun _ => rfl) (held_congr hv (zero_add _).symm)
            · have husers := users_chdir hcwd { path := newCwdPath, inode := i }
              dsimp only at husers
              rw [add_left_comm, ← husers, add_left_comm] at hi
              rw [yields_bind, Vfs.onVfs, yields_focus]
              apply (unref_spec hi).mono
              rintro _ v ⟨hv, -⟩
              rw [yields_bind, yields_modify]
              refine ⟨0, fun _ _ => rfl, ?_⟩
              rw [zero_add, Accounts, Files.setProcess]
              exact hv

/-- What `sys_fork` does with the working directory. -/
theorem forkCwd_spec {leak : Multiset ℕ} (h : Accounts clean leak f) (k : ℕ) :
    Yields (forkCwd k) f (CallLeaves clean leak) := by
  rw [forkCwd, yields_bind, yields_get]
  cases hcwd : f.cwds[k]? with
  | none => exact ⟨0, fun _ _ => rfl, by rwa [zero_add]⟩
  | some cwd =>
      have husers := users_exit hcwd
      dsimp only
      rw [yields_bind, yields_onVfs]
      apply (yields_kstrdup cwd.path f.vfs).mono
      rintro r t ⟨-, u, rfl⟩
      have hu : Held clean ∅ 0 (leak + users f) (f.vfs.setAllocations u) := h.setAllocations u
      cases r with
      | none => exact ⟨0, fun _ _ => rfl, held_congr hu (by rw [zero_add]; rfl)⟩
      | some path =>
          have hmem : cwd.inode ∈ leak + users f := by
            rw [← husers]
            simp
          obtain ⟨inode, hinode⟩ := exists_held hu hmem
          dsimp only
          rw [yields_bind, yields_onVfs]
          apply (ref_spec hu hinode).mono
          rintro _ v ⟨hv, -⟩
          rw [yields_bind, yields_modify]
          refine ⟨0, fun _ _ => rfl, ?_⟩
          rw [zero_add, Accounts, users_fork]
          exact held_congr hv (add_left_comm _ _ _)

/-- What `die` does with the working directory. -/
theorem exitCwd_spec {leak : Multiset ℕ} (h : Accounts clean leak f) (k : ℕ) :
    Yields (exitCwd k) f (CallLeaves clean leak) := by
  rw [exitCwd, yields_bind, yields_get]
  cases hcwd : f.cwds[k]? with
  | none => exact ⟨0, fun _ _ => rfl, by rwa [zero_add]⟩
  | some cwd =>
      rw [Accounts, ← users_exit hcwd, add_left_comm] at h
      dsimp only
      rw [yields_bind, yields_modify, yields_bind, yields_onVfs]
      apply (unref_spec h).mono
      rintro _ t ⟨ht, -⟩
      exact ⟨0, fun _ _ => rfl, held_congr ht (by rw [zero_add]; rfl)⟩

/-! ### Runs -/

/-- What a call finds at the two paths of a rename. -/
def replaced (f : Files) : Call → Option (ℕ × ℕ × Bool)
  | .rename cwdPath oldpath newpath => renameTarget cwdPath oldpath newpath f.vfs
  | _ => none

/-- A call that is not a rename onto something. -/
theorem runCall_spec {leak : Multiset ℕ} (h : Accounts clean leak f) (call : Call) (hnone : replaced f call = none) :
    Yields (runCall call) f (CallLeaves clean leak) := by
  have hcongr : ∀ {m : Kernel State (Except Errno Unit)},
      Yields m f.vfs (fun _ t => ∃ more, (clean → more = 0) ∧ Held clean ∅ 0 (more + (leak + users f)) t) →
        Yields (onVfs m) f (CallLeaves clean leak) := by
    intro m hm
    rw [yields_onVfs]
    apply hm.mono
    rintro r t ⟨more, hmore, ht⟩
    exact ⟨more, fun hc _ => hmore hc, held_congr ht (add_assoc _ _ _).symm⟩
  cases call with
  | «open» cwdPath pathname flags mode fopsOpen descriptor =>
      exact sysOpen_spec h cwdPath pathname flags mode fopsOpen descriptor
  | close description => exact closeDescription_spec h description
  | mkdir cwdPath pathname mode => exact (sysMkdir_spec h cwdPath pathname mode).mono fun _ _ hg => hg.call
  | mknod cwdPath pathname mode dev => exact (sysMknod_spec h cwdPath pathname mode dev).mono fun _ _ hg => hg.call
  | link cwdPath oldpath newpath => exact (sysLink_spec h cwdPath oldpath newpath).mono fun _ _ hg => hg.call
  | unlink cwdPath pathname => exact hcongr (sysUnlink_spec h cwdPath pathname)
  | rename cwdPath oldpath newpath =>
      have hspec := sysRename_spec h cwdPath oldpath newpath
      have htarget : renameTarget cwdPath oldpath newpath f.vfs = none := hnone
      rw [htarget] at hspec
      exact Yields.mono hspec fun _ _ hg => hg.call
  | rmdir cwdPath pathname => exact hcongr (sysRmdir_spec h cwdPath pathname)
  | chdir process path => exact chdir_spec h process path
  | fork process => exact forkCwd_spec h process
  | exit process => exact exitCwd_spec h process

/-- A call that returned had enough memory, and was no rename onto something that was there. -/
def Plain (f : Files) (e : Call × Except Errno Unit) : Prop := e.2 ≠ .error .ENOMEM ∧ replaced f e.1 = none

/-- In a tree of tmpfs only, a run of calls that do not run out of memory, with no rename onto something that is there,
    leaves nothing behind: the references of an inode are exactly the ones in use. -/
theorem runs_account_exactly {xs : List (Transition Files (Call × Except Errno Unit))} {g : Files}
    (h : Accounts True 0 f) (run : filesSystem.Run f xs g)
    (hplain : ∀ x ∈ xs, Plain x.before x.event) : Accounts True 0 g := by
  refine run.guarded_invariant (Accounts True 0) (fun s e s' hs hguard hstep => ?_) h hplain
  obtain ⟨hmemory, hnone⟩ : Plain s e := hguard
  obtain ⟨more, hmore, hs'⟩ := (runCall_spec hs e.1 hnone).and_return hstep
  rw [hmore trivial hmemory, zero_add] at hs'
  exact hs'

end SystemCalls

section Boot

/-- A process in an empty root directory. -/
def boot : Files where
  vfs :=
    { inodes := fun i => if i = 0 then some { fops := .tmpfsDir, mode := S_IFDIR, refCount := 2 } else none
      nextInode := 1
      root := 0
      allocations := { answers := fun _ => true } }
  fsRootInode := fun i => if i = 0 then some 0 else none
  cwds := [{ path := ROOT_DIR, inode := 0 }]

theorem accounts_boot (clean : Prop) : Accounts clean 0 boot := by
  have hinodes : ∀ i inode, boot.vfs.inodes i = some inode →
      i = 0 ∧ inode = { fops := .tmpfsDir, mode := S_IFDIR, refCount := 2 } := by
    intro i inode hi
    change (if i = 0 then some _ else none) = some inode at hi
    split_ifs at hi with hzero
    exact ⟨hzero, (Option.some.inj hi).symm⟩
  have hedges : (graph ∅ boot.vfs).edges 1 = 0 := by
    simp [ObjectGraph.edges, ObjectGraph.out, graph, graphNode, boot]
  have hheld : 0 + users boot + ownRefs boot.vfs = {0, 0} := rfl
  refine ⟨⟨?_, ?_, ?_, ?_⟩, ?_, fun i inode hi => ⟨fun _ => ?_, fun _ => ?_⟩⟩
  · intro i node hi
    obtain ⟨inode, hinode, -⟩ := exists_inode hi
    rw [(hinodes i inode hinode).1]
    exact Nat.zero_lt_one
  · intro i node hi
    obtain ⟨inode, hinode, rfl⟩ := exists_inode hi
    obtain ⟨rfl, rfl⟩ := hinodes i inode hinode
    change _ = Multiset.count 0 ((graph ∅ boot.vfs).edges 1 + 0)
    rw [hedges]
    rfl
  · intro i node hi
    obtain ⟨inode, hinode, rfl⟩ := exists_inode hi
    obtain ⟨rfl, rfl⟩ := hinodes i inode hinode
    change _ = Multiset.count 0 ((graph ∅ boot.vfs).edges 1 + 0 + (0 + users boot + ownRefs boot.vfs))
    rw [hedges, hheld]
    rfl
  · intro i hi
    change i ∈ (graph ∅ boot.vfs).edges 1 + 0 + (0 + users boot + ownRefs boot.vfs) at hi
    rw [hedges, hheld] at hi
    obtain rfl : i = 0 := by simpa using hi
    exact ⟨_, rfl⟩
  · intro i inode hi
    obtain ⟨rfl, rfl⟩ := hinodes i inode hi
    simp
  · rw [(hinodes i inode hi).2]
    decide
  · rw [(hinodes i inode hi).2]
    rfl

/-- The state after a call, where the call returns. -/
def after (f : Files) (call : Call) : Files := ((runCall call f).toOption.map Prod.snd).getD f

/-- A call that succeeds. -/
def Succeeds (f : Files) (call : Call) : Bool :=
  match runCall call f with
  | .ok (.ok (), _) => true
  | _ => false

theorem step_of_succeeds {f : Files} {call : Call} (h : Succeeds f call = true) :
    filesSystem.step f (call, .ok ()) (after f call) := by
  unfold Succeeds at h
  split at h
  case h_1 g hreturn =>
    change runCall call f = .ok (.ok (), after f call)
    rw [after, hreturn]
    rfl
  case h_2 => cases h

/-- The directory `a` is created, and renamed to `b`. -/
theorem exists_run : ∃ f g, filesSystem.step boot (.mkdir ROOT_DIR [0x61] 0, .ok ()) f ∧
    replaced f (.rename ROOT_DIR [0x61] [0x62]) = none ∧
    filesSystem.step f (.rename ROOT_DIR [0x61] [0x62], .ok ()) g :=
  ⟨after boot (.mkdir ROOT_DIR [0x61] 0), _, step_of_succeeds (by decide +kernel), by decide +kernel,
    step_of_succeeds (by decide +kernel)⟩

theorem runs_account_exactly_boot :
    ∃ xs g, xs.length = 2 ∧ filesSystem.Run boot xs g ∧ Accounts True 0 g := by
  obtain ⟨f, g, hmkdir, hnone, hrename⟩ := exists_run
  refine ⟨_, g, rfl, .cons hmkdir (.cons hrename (.nil g)), ?_⟩
  refine runs_account_exactly (accounts_boot True) (.cons hmkdir (.cons hrename (.nil g))) ?_
  exact List.forall_mem_cons.2 ⟨⟨by simp, rfl⟩, List.forall_mem_cons.2 ⟨⟨by simp, hnone⟩, List.forall_mem_nil _⟩⟩

end Boot

end Calls

end Vfs

end Chaotix
