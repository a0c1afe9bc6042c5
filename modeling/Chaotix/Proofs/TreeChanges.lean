/-
Module: Chaotix.Proofs.TreeChanges
Layer: Proofs
Purpose: The functions below the calls that change the tree of inodes, each specified by the references that it takes and
  the ones that it gives. What a failed allocation or a process directory leaves behind is a leak.
Imports: Chaotix.Kernel.VfsCalls, Chaotix.Proofs.WalkReferences
Trusted boundary: none
Main exports: held_walked, tmpfsLinkChild_spec, removeChild_spec, inodeUnlinkChild_spec, makeSureDirectoryIsEmpty_spec,
  SameUsers, inodeCreateChild_spec, createLoop_spec, createInode_spec, inodeLinkChild_spec
-/
import Chaotix.Kernel.VfsCalls
import Chaotix.Proofs.WalkReferences

namespace Chaotix

namespace Vfs

open Pathname

namespace Calls

/-! ### Functions of the file systems -/

section Tree

variable {clean : Prop} {l : Multiset ℕ} {s : State} {i : ℕ} {inode : Inode}

theorem held_congr {l' : Multiset ℕ} (h : Held clean ∅ 0 l s) (heq : l = l') : Held clean ∅ 0 l' s := heq ▸ h

/-- What is held is there. -/
theorem exists_held (h : Held clean ∅ 0 l s) (hi : i ∈ l) : ∃ inode, s.inodes i = some inode := by
  obtain ⟨inode, hinode, -⟩ := h.exists_inode hi
  exact ⟨inode, hinode⟩

/-- `inode_ref`. -/
theorem ref_spec (h : Held clean ∅ 0 l s) (hi : s.inodes i = some inode) :
    Yields (inodeRef i) s fun _ t => Held clean ∅ 0 ({i} + l) t ∧
      t = s.setInode i (some { inode with refCount := inode.refCount + 1 }) := by
  obtain ⟨hreturn, hheld⟩ := inodeRef_spec h hi
  refine yields_of_return hreturn ⟨?_, rfl⟩
  rwa [Multiset.singleton_add]

/-- `inode_unref`. -/
theorem unref_spec (h : Held clean ∅ 0 ({i} + l) s) :
    Yields (inodeUnref i) s fun _ t => Held clean ∅ 0 l t ∧ Shrinks s t := by
  rw [Multiset.singleton_add] at h
  exact inodeUnref_spec h

theorem inodeUnrefOption_spec {o : Option ℕ} (h : Held clean ∅ 0 (refsOf o + l) s) :
    Yields (inodeUnrefOption o) s fun _ t => Held clean ∅ 0 l t := by
  cases o with
  | none => exact held_congr h (zero_add l)
  | some i => exact (unref_spec h).mono fun _ _ ht => ht.1

/-- What a walk leaves that is called with `l` held. -/
theorem held_walked {outParent outBasename : Bool} {r : Resolved} {t : State}
    (h : Walked clean s l outParent outBasename 0 r t) :
    ∃ leak, (clean → leak = 0) ∧ ((∃ i, r.inode = .ok i) → leak = 0) ∧ Held clean ∅ 0 (handed r + (leak + l)) t := by
  obtain ⟨leak, hleak, herror, hwalking⟩ := h.held
  refine ⟨leak, ?_, ?_, held_congr hwalking.held (by abel)⟩
  · intro hclean
    exact hleak.resolve_right fun h => h.1 hclean
  · rintro ⟨i, hi⟩
    by_contra hne
    obtain ⟨e, he⟩ := herror hne
    rw [hi] at he
    cases he

/-- `tmpfs_link_child` takes the references to both, or only the one to the directory when it fails. -/
theorem tmpfsLinkChild_spec {dir child : ℕ} (h : Held clean ∅ 0 ({child} + ({dir} + l)) s)
    (hdir : s.inodes dir = some inode) (name : Chars) :
    Yields (tmpfsLinkChild dir name child) s fun r t =>
      (r = .ok () ∧ Held clean ∅ 0 l t) ∨ ∃ e, r = .error e ∧ Held clean ∅ 0 ({child} + l) t ∧ Shrinks s t ∧
        (e = .ENOMEM ∨ e = .EEXIST ∧ name ∈ namesOf inode.children) := by
  obtain ⟨childInode, hchild⟩ := exists_held (i := child) h (by simp)
  rw [tmpfsLinkChild, yields_bind]
  apply (appendChild_spec name hdir hchild).mono
  rintro r t (⟨e, u, rfl, rfl, he⟩ | ⟨rfl, -, u, node, hnode, rfl⟩)
  · have hswap : Held clean ∅ 0 ({dir} + ({child} + l)) (s.setAllocations u) :=
      held_congr (h.setAllocations u) (add_left_comm _ _ _)
    rw [yields_bind]
    apply (unref_spec hswap).mono
    rintro _ v ⟨hv, hshrinks⟩
    exact .inr ⟨e, rfl, hv, (Shrinks.setAllocations s u).trans hshrinks, he.symm⟩
  · rw [Multiset.singleton_add] at h
    rw [yields_bind]
    apply (unref_spec (h.addEntry u name hdir hnode)).mono
    rintro _ v ⟨hv, -⟩
    exact .inl ⟨rfl, hv⟩

/-- What is removed is one of the entries. -/
theorem inodes_of_remove {entries rest : List (Dentry Chars ℕ)} {name : Chars} {child : ℕ}
    (h : dentryRemove entries name = .ok (child, rest)) :
    (↑(rest.map Dentry.inode) + {child} : Multiset ℕ) = ↑(entries.map Dentry.inode) := by
  induction entries generalizing rest with
  | nil => cases h
  | cons d entries ih =>
      rw [dentryRemove] at h
      split_ifs at h
      · obtain ⟨rfl, rfl⟩ := Prod.mk.inj (Except.ok.inj h)
        rw [add_comm, Multiset.singleton_add, Multiset.cons_coe, List.map_cons]
      · cases hrest : dentryRemove entries name with
        | error e =>
            rw [hrest] at h
            cases h
        | ok r =>
            obtain ⟨child', rest'⟩ := r
            rw [hrest] at h
            obtain ⟨rfl, rfl⟩ := Prod.mk.inj (Except.ok.inj h)
            rw [List.map_cons, List.map_cons, ← Multiset.cons_coe, ← Multiset.cons_coe, Multiset.cons_add, ih hrest]

theorem dentryRemove_error {entries : List (Dentry Chars ℕ)} {name : Chars} {e : Errno}
    (h : dentryRemove entries name = .error e) : e = .ENOENT := by
  induction entries with
  | nil => exact (Except.error.inj h).symm
  | cons d entries ih =>
      rw [dentryRemove] at h
      split_ifs at h
      cases hrest : dentryRemove entries name with
      | ok r =>
          rw [hrest] at h
          cases h
      | error e' =>
          rw [hrest] at h
          obtain rfl := Except.error.inj h
          exact ih hrest

/-- An entry is taken out of a directory. -/
theorem held_cut {dir child : ℕ} {children : List (Dentry Chars ℕ)} (h : Held clean ∅ 0 l s)
    (hdir : s.inodes dir = some inode)
    (hchildren : (↑(children.map Dentry.inode) + {child} : Multiset ℕ) = ↑(inode.children.map Dentry.inode)) :
    Held clean ∅ (child ::ₘ 0) l (s.setInode dir (some { inode with children := children })) where
  accounted := by
    have hcut := h.accounted.cut (graph_of_some hdir) ↑(children.map Dentry.inode) {child} (by
      simpa [graphNode] using hchildren)
    rw [graph_setInode, ownRefs_setInode, ← Multiset.singleton_add]
    exact hcut
  unused := h.unused_setInode (h.unused dir inode hdir)
  kinds := h.kinds_setInode ⟨(h.kinds dir inode hdir).noProcfs, (h.kinds dir inode hdir).rootDir⟩

/-- `dentry_remove` gives the reference of the entry that it removes. -/
theorem removeChild_spec {dir : ℕ} (h : Held clean ∅ 0 l s) (hdir : s.inodes dir = some inode) (name : Chars) :
    Yields (removeChild dir name) s fun r t =>
      (∃ child, r = .ok child ∧ Held clean ∅ 0 ({child} + l) t) ∨ r = .error .ENOENT ∧ Held clean ∅ 0 l t := by
  rw [removeChild, yields_bind_of_return (run_getInode hdir)]
  cases hremove : dentryRemove inode.children name with
  | error e => exact .inr ⟨by rw [dentryRemove_error hremove], h⟩
  | ok r =>
      obtain ⟨child, children⟩ := r
      have hcut := held_cut h hdir (inodes_of_remove hremove)
      obtain ⟨node, hnode, hpos⟩ := hcut.accounted.exists_of_pending (Multiset.mem_cons_self child 0)
      obtain ⟨childInode, hchild, rfl⟩ := Vfs.exists_inode hnode
      dsimp only
      rw [yields_bind_of_return (run_setInode s dir _), yields_bind_of_return (run_getInode hchild), yields_bind, assert,
        yields_require]
      refine ⟨hpos, ?_⟩
      rw [yields_bind_of_return (run_setInode _ child _)]
      refine .inl ⟨child, rfl, ?_⟩
      rw [Multiset.singleton_add]
      exact hcut.unlink hchild

/-- `inode_unlink_child` takes the reference to the directory. -/
theorem inodeUnlinkChild_spec {dir : ℕ} (h : Held clean ∅ 0 ({dir} + l) s) (name : Chars) :
    Yields (inodeUnlinkChild dir name) s fun r t =>
      (∀ e, r = .error e → e ∈ [Errno.ENOTDIR, .ENOENT]) ∧ Held clean ∅ 0 l t := by
  obtain ⟨inode, hdir⟩ := exists_held (i := dir) h (by simp)
  rw [inodeUnlinkChild, yields_bind_of_return (run_getInode hdir)]
  split
  · rw [yields_bind]
    apply (unref_spec h).mono
    rintro _ t ⟨ht, -⟩
    refine ⟨?_, ht⟩
    rintro e ⟨⟩
    decide
  · rw [yields_bind, tmpfsUnlinkChild, yields_bind]
    apply (removeChild_spec h hdir name).mono
    rintro r t (⟨child, rfl, ht⟩ | ⟨rfl, ht⟩)
    · have hswap : Held clean ∅ 0 ({dir} + ({child} + l)) t := held_congr ht (add_left_comm _ _ _)
      rw [yields_bind]
      apply (unref_spec hswap).mono
      rintro _ u ⟨hu, -⟩
      rw [yields_pure]
      dsimp only
      rw [yields_bind]
      apply (unref_spec hu).mono
      rintro _ v ⟨hv, -⟩
      refine ⟨?_, hv⟩
      rintro e ⟨⟩
    · rw [yields_bind]
      apply (unref_spec ht).mono
      rintro _ u ⟨hu, -⟩
      refine ⟨?_, hu⟩
      rintro e ⟨⟩
      decide

/-- An inode that only its creator refers to is freed. -/
theorem held_discard (h : Held clean ∅ 0 ({i} + ({i} + l)) s) (hi : s.inodes i = some inode)
    (hrefs : inode.refCount ≤ 2) (hchildren : inode.children = []) : Held clean ∅ 0 l (s.setInode i none) := by
  have haccounted := h.accounted
  rw [Multiset.singleton_add, Multiset.singleton_add, Multiset.cons_add, Multiset.cons_add] at haccounted
  have hcount := haccounted.refs_eq (graph_of_some hi)
  rw [Multiset.count_cons_self, Multiset.count_cons_self] at hcount
  change inode.refCount = inode.numLinks + _ at hcount
  have hrelease := (haccounted.release (graph_of_some hi)).release (Function.update_self i _ _)
  have hremove := hrelease.remove (Function.update_self i _ _) (by
    change inode.refCount - 1 - 1 = 0
    omega) (by simp [graphNode, hchildren])
  rw [Function.update_idem, Function.update_idem] at hremove
  constructor
  case accounted =>
    rw [graph_setInode, ownRefs_setInode]
    exact hremove
  case unused =>
    intro j node hj
    have hji : j ≠ i := by
      rintro rfl
      simp at hj
    rw [State.setInode_of_ne hji] at hj
    exact h.unused j node hj
  case kinds =>
    intro j node hj
    have hji : j ≠ i := by
      rintro rfl
      simp at hj
    rw [State.setInode_of_ne hji] at hj
    exact h.kinds j node hj

/-- The loop of `make_sure_directory_is_empty` ends: no block is as large as half of the address space. -/
theorem emptinessLoop_returns (inode : Inode) (rounds capacity : ℕ) (u : Allocations) (hcapacity : capacity < 2 ^ 32)
    (hrounds : 2 ^ 32 ≤ capacity * 2 ^ rounds) : Yields (emptinessLoop inode rounds capacity) u fun _ _ => True := by
  induction rounds generalizing capacity u with
  | zero => omega
  | succ rounds ih =>
      rw [emptinessLoop, yields_bind]
      apply (kmallocAnswer_spec u).mono
      intro buf v _
      split
      · trivial
      · rename_i hfits
        rw [Bool.or_eq_true, not_or, decide_eq_true_eq, not_le] at hfits
        split
        · refine ih (capacity * 2) v (by omega) ?_
          rw [mul_assoc, ← pow_succ']
          exact hrounds
        · trivial

/-- `inode_open` keeps the reference for the description, or gives it back. -/
theorem inodeOpen_spec (h : Held clean ∅ 0 ({i} + l) s) (flags : ℕ) (fopsOpen : Except Errno Unit) :
    Yields (inodeOpen i flags fopsOpen) s fun r t =>
      (r = .ok (.inode i) ∧ Held clean ∅ 0 ({i} + l) t) ∨ ∃ e, r = .error e ∧ Held clean ∅ 0 l t := by
  obtain ⟨inode, hinode⟩ := exists_held (i := i) h (by simp)
  have hfails : ∀ (e : Errno) (u : Allocations), Yields (do
      inodeUnref i
      return .error e : Kernel State (Except Errno Opened)) (s.setAllocations u) fun r t =>
        (r = .ok (.inode i) ∧ Held clean ∅ 0 ({i} + l) t) ∨ ∃ e, r = .error e ∧ Held clean ∅ 0 l t := by
    intro e u
    rw [yields_bind]
    apply (unref_spec (h.setAllocations u)).mono
    rintro _ t ⟨ht, -⟩
    exact .inr ⟨e, rfl, ht⟩
  rw [inodeOpen, yields_bind_of_return (run_getInode hinode)]
  split
  · exact hfails _ s.allocations
  · rw [yields_bind]
    apply (yields_kmalloc s).mono
    rintro allocated t ⟨u, rfl⟩
    cases allocated with
    | false => exact hfails _ u
    | true =>
        rw [Bool.not_true, if_neg Bool.false_ne_true]
        split
        · exact hfails _ u
        · exact .inl ⟨rfl, h.setAllocations u⟩

/-- `make_sure_directory_is_empty` takes the reference to the directory. -/
theorem makeSureDirectoryIsEmpty_spec (h : Held clean ∅ 0 ({i} + l) s) (hi : s.inodes i = some inode)
    (hdir : sIsDir inode.mode = true) : Yields (makeSureDirectoryIsEmpty i) s fun _ t => Held clean ∅ 0 l t := by
  rw [makeSureDirectoryIsEmpty, yields_bind_of_return (run_getInode hi), yields_bind, assert, yields_require]
  refine ⟨hdir, ?_⟩
  rw [yields_bind]
  apply (inodeOpen_spec h O_RDONLY (.ok ())).mono
  rintro r t (⟨rfl, ht⟩ | ⟨e, rfl, ht⟩)
  · obtain ⟨node, hnode⟩ := exists_held (i := i) ht (by simp)
    dsimp only
    rw [yields_bind_of_return (run_getInode hnode), yields_bind]
    apply (yields_onAllocations (fun u => emptinessLoop_returns node 22 1024 u (by norm_num) (by norm_num)) t).mono
    rintro nread u ⟨-, v, rfl⟩
    rw [yields_bind]
    apply (unref_spec (ht.setAllocations v)).mono
    rintro _ w ⟨hw, -⟩
    cases nread with
    | error e => exact hw
    | ok n =>
        dsimp only
        split
        · exact hw
        · exact hw
  · exact ht

end Tree

/-! ### Functions with the file-system roots -/

/-- The descriptions and the working directories are as they were. -/
def SameUsers (f g : Files) : Prop := g.descriptions = f.descriptions ∧ g.cwds = f.cwds

section Create

variable {clean : Prop} {l : Multiset ℕ} {f : Files} {inode : Inode}

theorem yields_onVfs {α : Type} {m : Kernel State α} {f : Files} {post : α → Files → Prop} :
    Yields (onVfs m) f post ↔ Yields m f.vfs fun a t => post a { f with vfs := t } := yields_focus

/-- `tmpfs_create_child` takes the reference to the directory, and gives one to the new inode. -/
theorem tmpfsCreateChild_spec {dir : ℕ} (h : Held clean ∅ 0 ({dir} + l) f.vfs) (hdir : f.vfs.inodes dir = some inode)
    (name : Chars) (mode : ℕ) :
    Yields (tmpfsCreateChild dir name mode) f fun r g => SameUsers f g ∧
      ((∃ i, r = .ok i ∧ Held clean ∅ 0 ({i} + l) g.vfs) ∨
        ∃ e leak, r = .error e ∧ (e ≠ .ENOMEM → leak = 0) ∧ Held clean ∅ 0 (leak + l) g.vfs ∧
          (e = .EEXIST → name ∈ namesOf inode.children ∧ ∀ node, g.vfs.inodes dir = some node →
            node.fops = inode.fops ∧ node.mode = inode.mode ∧ node.children = inode.children)) := by
  obtain ⟨new, hnew⟩ : ∃ new : Inode,
      new = { fops := if sIsDir mode then FileOps.tmpfsDir else FileOps.tmpfsNonDir, mode := mode } := ⟨_, rfl⟩
  have hnewInode : NewInode new := by
    subst hnew
    refine ⟨rfl, rfl, rfl, ?_⟩
    dsimp only
    split <;> decide
  rw [tmpfsCreateChild, ← hnew, yields_bind, yields_onVfs]
  apply (Vfs.createInode_spec new f.vfs).mono
  rintro r t (⟨rfl, u, rfl⟩ | ⟨rfl, u, rfl⟩)
  · refine ⟨⟨rfl, rfl⟩, .inr ⟨_, {dir}, rfl, fun hne => absurd rfl hne, h.setAllocations u, ?_⟩⟩
    intro he
    cases he
  · have hlt := h.lt_nextInode hdir
    obtain ⟨child, hchild⟩ : ∃ child, child = f.vfs.nextInode := ⟨_, rfl⟩
    have hadd := h.addInode u hnewInode
    rw [← Multiset.singleton_add, ← hchild] at hadd
    have hchildInode : (f.vfs.addInode u new).inodes child = some new := by
      rw [hchild]
      exact Function.update_self _ _ _
    have hdirInode : (f.vfs.addInode u new).inodes dir = some inode := by
      rw [← hdir]
      exact Function.update_of_ne (by omega) _ _
    rw [← hchild]
    dsimp only
    rw [yields_bind, yields_modify, yields_bind, yields_onVfs]
    apply (ref_spec hadd hchildInode).mono
    rintro _ v ⟨hv, rfl⟩
    have hpair : Held clean ∅ 0 ({child} + ({dir} + ({child} + l)))
        ((f.vfs.addInode u new).setInode child (some { new with refCount := new.refCount + 1 })) :=
      held_congr hv (by abel)
    have hdirInode' : ((f.vfs.addInode u new).setInode child
        (some { new with refCount := new.refCount + 1 })).inodes dir = some inode := by
      rw [State.setInode_of_ne (by omega)]
      exact hdirInode
    rw [yields_bind, yields_onVfs]
    apply (tmpfsLinkChild_spec hpair hdirInode' name).mono
    rintro r w (⟨rfl, hw⟩ | ⟨e, rfl, hw, hshrinks, he⟩)
    · exact ⟨⟨rfl, rfl⟩, .inl ⟨child, rfl, hw⟩⟩
    · obtain ⟨node, hnode⟩ := exists_held (i := child) hw (by simp)
      obtain ⟨old, hold, -, -, hchildren, hrefs⟩ := hshrinks.inodes child node hnode
      rw [State.setInode_self] at hold
      obtain rfl := Option.some.inj hold
      rw [hnewInode.refCount] at hrefs
      rw [hnewInode.children] at hchildren
      refine ⟨⟨rfl, rfl⟩, .inr ⟨e, 0, rfl, fun _ => rfl, ?_, fun hexists => ?_⟩⟩
      · rw [zero_add]
        exact held_discard hw hnode hrefs hchildren
      · subst hexists
        refine ⟨(he.resolve_left (by decide)).2, fun node' hnode' => ?_⟩
        have hne : dir ≠ child := by omega
        change (w.setInode child none).inodes dir = some node' at hnode'
        rw [State.setInode_of_ne hne] at hnode'
        obtain ⟨old, hold, hfops, hmode, hchildren', -⟩ := hshrinks.inodes dir node' hnode'
        rw [hdirInode'] at hold
        obtain rfl := Option.some.inj hold
        exact ⟨hfops, hmode, hchildren'⟩

/-- `inode_create_child`. It finds the name only in a directory of tmpfs, which stays as it is. -/
theorem inodeCreateChild_spec {dir : ℕ} (h : Held clean ∅ 0 ({dir} + l) f.vfs)
    (hdir : f.vfs.inodes dir = some inode) (name : Chars) {mode : ℕ} (hmode : mode &&& S_IFMT ≠ 0) :
    Yields (inodeCreateChild dir name mode) f fun r g => SameUsers f g ∧
      ((∃ i, r = .ok i ∧ Held clean ∅ 0 ({i} + l) g.vfs) ∨
        ∃ e leak, r = .error e ∧ (e ≠ .ENOMEM → leak = 0) ∧ Held clean ∅ 0 (leak + l) g.vfs ∧
          (e = .EEXIST → ∀ node, g.vfs.inodes dir = some node →
            node.fops = .tmpfsDir ∧ sIsDir node.mode = true ∧ name ∈ namesOf node.children)) := by
  rw [inodeCreateChild, yields_bind, yields_onVfs, Yields, run_getInode hdir]
  dsimp only
  split
  · rw [yields_bind, yields_onVfs]
    apply (unref_spec h).mono
    rintro _ t ⟨ht, -⟩
    refine ⟨⟨rfl, rfl⟩, .inr ⟨_, 0, rfl, fun _ => rfl, held_congr ht (zero_add l).symm, ?_⟩⟩
    intro he
    cases he
  · rename_i hdirs
    rw [yields_bind, assert, yields_require]
    refine ⟨hmode, ?_⟩
    apply (tmpfsCreateChild_spec h hdir name mode).mono
    rintro r g ⟨hsame, hok | ⟨e, leak, rfl, hleak, hg, hexists⟩⟩
    · exact ⟨hsame, .inl hok⟩
    · refine ⟨hsame, .inr ⟨e, leak, rfl, hleak, hg, fun he node hnode => ?_⟩⟩
      obtain ⟨hmem, hkept⟩ := hexists he
      obtain ⟨hfops, hmode', hchildren⟩ := hkept node hnode
      rw [hfops, hmode', hchildren]
      have hdirs' : hasLinkChild inode.fops = true ∧ sIsDir inode.mode = true := by simpa using hdirs
      refine ⟨?_, hdirs'.2, hmem⟩
      cases hinode : inode.fops <;> simp_all [hasLinkChild]

/-- The loop of `create_inode` ends in its first round: when the name is there, it is found. -/
theorem createLoop_spec {parent : ℕ} (h : Held clean ∅ 0 ({parent} + l) f.vfs) (basename : Chars) {mode : ℕ}
    (hmode : mode &&& S_IFMT ≠ 0) (exclusive : Bool) :
    Yields (createLoop parent basename mode exclusive 1) f fun r g => SameUsers f g ∧
      ((∃ i, r = .ok i ∧ Held clean ∅ 0 ({i} + ({parent} + l)) g.vfs) ∨
        ∃ e leak, r = .error e ∧ (clean → e ≠ .ENOMEM → leak = 0) ∧
          Held clean ∅ 0 (leak + ({parent} + l)) g.vfs) := by
  obtain ⟨inode, hparent⟩ := exists_held (i := parent) h (by simp)
  rw [createLoop, yields_bind, yields_onVfs]
  apply (ref_spec h hparent).mono
  rintro _ t ⟨ht, rfl⟩
  rw [yields_bind]
  apply (inodeCreateChild_spec (f := { f with vfs := _ }) ht (State.setInode_self _ _ _) basename hmode).mono
  rintro r g ⟨hsame, ⟨i, rfl, hg⟩ | ⟨e, leak, rfl, hleak, hg, hexists⟩⟩
  · exact ⟨hsame, .inl ⟨i, rfl, hg⟩⟩
  · dsimp only
    split
    · exact ⟨hsame, .inr ⟨e, leak, rfl, fun _ => hleak, hg⟩⟩
    · rename_i hretry
      obtain ⟨rfl, -⟩ : e = .EEXIST ∧ exclusive = false := by simpa using hretry
      obtain rfl := hleak (by decide)
      rw [zero_add] at hg
      obtain ⟨node, hnode⟩ := exists_held (i := parent) hg (by simp)
      obtain ⟨hfops, hdir, hmem⟩ := hexists rfl node hnode
      rw [yields_bind, yields_onVfs]
      apply ((Walking.start hg).inodeRef hnode).mono
      intro _ u hu
      obtain ⟨node', hnode'⟩ := hu.exists_inode (i := parent) (by simp)
      obtain ⟨node₀, hnode₀, heq⟩ := hu.since.children_eq (hg.lt_nextInode hnode) hnode'
      obtain rfl := Option.some.inj (hnode.symm.trans hnode₀)
      rw [yields_bind, yields_onVfs]
      apply (inodeLookupChild_spec hg hu hnode' basename).mono
      rintro r v (⟨i, rfl, hv⟩ | ⟨e, leak, rfl, hleak', hv, hmissing⟩)
      · exact ⟨hsame, .inl ⟨i, rfl, held_congr hv.held (by abel)⟩⟩
      · have hfound : e ≠ .ENOENT := fun he => hmissing he (by rw [heq]; exact hfops) (by rw [heq]; exact hmem)
        dsimp only
        rw [if_pos hfound]
        refine ⟨hsame, .inr ⟨e, leak, rfl, fun hclean _ => ?_, held_congr hv.held (by abel)⟩⟩
        exact hleak'.resolve_right fun h => h.1 hclean

/-- `create_inode` gives a reference to what it returns. -/
theorem createInode_spec (h : Held clean ∅ 0 l f.vfs) (cwdPath pathname : Chars) {mode : ℕ}
    (hmode : mode &&& S_IFMT ≠ 0) (exclusive : Bool) :
    Yields (createInode cwdPath pathname mode exclusive) f fun r g => SameUsers f g ∧
      ∃ leak, (clean → r ≠ .error .ENOMEM → leak = 0) ∧ Held clean ∅ 0 (refsOf r.toOption + (leak + l)) g.vfs := by
  rw [createInode, yields_bind, yields_onVfs]
  apply (vfsResolvePath_spec h cwdPath pathname true true).mono
  intro r t hr
  obtain ⟨leak, hclean, hnone, ht⟩ := held_walked hr
  obtain ⟨resolved, parent, basename⟩ := r
  cases resolved with
  | ok i =>
      obtain rfl := hnone ⟨i, rfl⟩
      have hswap : Held clean ∅ 0 (refsOf parent + ({i} + l)) t := held_congr ht (by rw [handed_ok]; abel)
      dsimp only
      rw [yields_bind, yields_onVfs]
      apply (inodeUnrefOption_spec hswap).mono
      intro _ u hu
      cases exclusive with
      | false => exact ⟨⟨rfl, rfl⟩, 0, fun _ _ => rfl, held_congr hu (by rw [zero_add]; rfl)⟩
      | true =>
          rw [if_pos rfl, yields_bind, yields_onVfs]
          apply (unref_spec hu).mono
          rintro _ v ⟨hv, -⟩
          exact ⟨⟨rfl, rfl⟩, 0, fun _ _ => rfl, held_congr hv (by rw [zero_add]; exact (zero_add l).symm)⟩
  | error e =>
      have hfails : ∀ {v : State} {e : Errno}, Held clean ∅ 0 (leak + l) v →
          ∃ leak, (clean → (.error e : Except Errno ℕ) ≠ .error .ENOMEM → leak = 0) ∧
            Held clean ∅ 0 (refsOf (.error e : Except Errno ℕ).toOption + (leak + l)) v := fun hv =>
        ⟨leak, fun hc _ => hclean hc, held_congr hv (zero_add _).symm⟩
      rw [handed_error] at ht
      cases parent with
      | none =>
          rw [refsOf_none, zero_add] at ht
          exact ⟨⟨rfl, rfl⟩, hfails ht⟩
      | some parent =>
          obtain ⟨basename, rfl⟩ := hr.named rfl parent rfl
          rw [refsOf_some] at ht
          dsimp only
          split
          · rw [yields_bind, yields_onVfs]
            apply (unref_spec ht).mono
            rintro _ u ⟨hu, -⟩
            exact ⟨⟨rfl, rfl⟩, hfails hu⟩
          · rw [yields_bind]
            apply (createLoop_spec (f := { f with vfs := t }) ht basename hmode exclusive).mono
            rintro r g ⟨hsame, ⟨i, rfl, hg⟩ | ⟨e', leak', rfl, hleak', hg⟩⟩
            · have hswap : Held clean ∅ 0 ({parent} + ({i} + (leak + l))) g.vfs := held_congr hg (add_left_comm _ _ _)
              rw [yields_bind, yields_onVfs]
              apply (unref_spec hswap).mono
              rintro _ u ⟨hu, -⟩
              exact ⟨hsame, leak, fun hc _ => hclean hc, hu⟩
            · have hswap : Held clean ∅ 0 ({parent} + ((leak' + leak) + l)) g.vfs := held_congr hg (by abel)
              rw [yields_bind, yields_onVfs]
              apply (unref_spec hswap).mono
              rintro _ u ⟨hu, -⟩
              refine ⟨hsame, leak' + leak, fun hc he => ?_, held_congr hu (zero_add _).symm⟩
              rw [hleak' hc fun h => he (congrArg _ h), hclean hc, zero_add]

/-- `inode_link_child` takes the references to both. When memory is short, the one to the child stays. -/
theorem inodeLinkChild_spec {dir child : ℕ} (h : Held clean ∅ 0 ({dir} + ({child} + l)) f.vfs)
    (hdir : f.vfs.inodes dir = some inode) (name : Chars) :
    Yields (inodeLinkChild dir name child) f fun r g => SameUsers f g ∧
      (∀ e, r = .error e → e ∈ [Errno.ENOTDIR, .EXDEV, .ENOMEM, .EEXIST]) ∧
      ∃ leak, ((inode.fops = .tmpfsDir → name ∉ namesOf inode.children) → r ≠ .error .ENOMEM → leak = 0) ∧
        Held clean ∅ 0 (leak + l) g.vfs := by
  rw [inodeLinkChild, yields_bind, yields_onVfs, Yields, run_getInode hdir]
  dsimp only
  split
  · rw [yields_bind, yields_onVfs]
    apply (unref_spec h).mono
    rintro _ t ⟨ht, -⟩
    rw [yields_bind, yields_onVfs]
    apply (unref_spec ht).mono
    rintro _ u ⟨hu, -⟩
    refine ⟨⟨rfl, rfl⟩, ?_, 0, fun _ _ => rfl, held_congr hu (zero_add l).symm⟩
    rintro e ⟨⟩
    decide
  · rename_i hdirs
    rw [yields_bind, yields_get]
    dsimp only
    rw [yields_bind, yields_get]
    dsimp only
    split
    · rw [yields_bind, yields_onVfs]
      apply (unref_spec h).mono
      rintro _ t ⟨ht, -⟩
      rw [yields_bind, yields_onVfs]
      apply (unref_spec ht).mono
      rintro _ u ⟨hu, -⟩
      refine ⟨⟨rfl, rfl⟩, ?_, 0, fun _ _ => rfl, held_congr hu (zero_add l).symm⟩
      rintro e ⟨⟩
      decide
    · obtain ⟨childInode, hchild⟩ := exists_held (i := child) h (by simp)
      have hfops : inode.fops = .tmpfsDir := by
        have hlink : hasLinkChild inode.fops = true := by
          rw [Bool.or_eq_true, not_or, Bool.not_eq_true, Bool.not_eq_false'] at hdirs
          exact hdirs.1
        cases hinode : inode.fops <;> simp_all [hasLinkChild]
      rw [yields_bind, yields_onVfs]
      apply (ref_spec h hchild).mono
      rintro _ t ⟨ht, rfl⟩
      have hpair : Held clean ∅ 0 ({child} + ({dir} + ({child} + l)))
          (f.vfs.setInode child (some { childInode with refCount := childInode.refCount + 1 })) := ht
      obtain ⟨node, hnode, hnodeFops, hchildren⟩ : ∃ node,
          (f.vfs.setInode child (some { childInode with refCount := childInode.refCount + 1 })).inodes dir = some node ∧
            node.fops = inode.fops ∧ node.children = inode.children := by
        by_cases heq : dir = child
        · subst heq
          obtain rfl := Option.some.inj (hdir.symm.trans hchild)
          exact ⟨_, State.setInode_self _ _ _, rfl, rfl⟩
        · rw [State.setInode_of_ne heq]
          exact ⟨inode, hdir, rfl, rfl⟩
      rw [yields_bind, yields_onVfs]
      apply (tmpfsLinkChild_spec hpair hnode name).mono
      rintro r u (⟨rfl, hu⟩ | ⟨e, rfl, hu, -, he⟩)
      · dsimp only
        rw [yields_bind, yields_onVfs]
        apply (unref_spec hu).mono
        rintro _ v ⟨hv, -⟩
        refine ⟨⟨rfl, rfl⟩, ?_, 0, fun _ _ => rfl, held_congr hv (zero_add l).symm⟩
        rintro e ⟨⟩
      · dsimp only
        rw [yields_bind, yields_onVfs]
        apply (unref_spec hu).mono
        rintro _ v ⟨hv, -⟩
        refine ⟨⟨rfl, rfl⟩, ?_, {child}, fun hmissing hne => ?_, hv⟩
        · rintro e' ⟨⟩
          obtain rfl | ⟨rfl, -⟩ := he <;> decide
        · obtain rfl | ⟨rfl, hmem⟩ := he
          · exact absurd rfl hne
          · rw [hchildren] at hmem
            exact absurd hmem (hmissing hfops)

end Create

end Calls

end Vfs

end Chaotix
