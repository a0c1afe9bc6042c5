/-
Module: Chaotix.Proofs.WalkReferences
Layer: Proofs
Purpose: A walk of a pathname keeps the counts of the inodes. While it runs, the inodes that were there before it are
  as they were but for their references, and what it holds is counted; the inodes that it creates, for the directory of
  a process, refer to each other only. At its end it holds what it returns, and what a directory of a process that
  could not be created leaves behind.
Imports: Chaotix.Proofs.InodeAccounting
Trusted boundary: none
Main exports: Since, Walking, Walking.inodeUnref, Leak, inodeLookupChild_spec, stepInto_spec, handed, Walked,
  vfsResolvePath_spec, resolve_conserves
-/
import Chaotix.Proofs.InodeAccounting

namespace Chaotix

namespace Vfs

open Pathname

/-! ### What a walk leaves alone -/

/-- The state during a walk that has begun in `s₀`: the inodes that were there differ in their counts of references
    only, and the new ones belong to directories of processes. -/
structure Since (s₀ s : State) : Prop where
  nextInode : s₀.nextInode ≤ s.nextInode
  root : s.root = s₀.root
  mountPoints : s.mountPoints = s₀.mountPoints
  pids : s.pids = s₀.pids
  old : ∀ i < s₀.nextInode, ∃ r, s.inodes i = (s₀.inodes i).map fun inode => { inode with refCount := r }
  fresh : ∀ i inode, s₀.nextInode ≤ i → s.inodes i = some inode →
    (inode.fops = .procfsDir ∨ inode.fops = .procfsItem) ∧ ∀ d ∈ inode.children, s₀.nextInode ≤ d.inode

namespace Since

variable {s₀ s : State} {i : ℕ} {inode new : Inode}

theorem refl (h : ∀ i inode, s₀.inodes i = some inode → i < s₀.nextInode) : Since s₀ s₀ where
  nextInode := le_rfl
  root := rfl
  mountPoints := rfl
  pids := rfl
  old i _ := by
    cases hi : s₀.inodes i with
    | none => exact ⟨0, rfl⟩
    | some inode => exact ⟨inode.refCount, rfl⟩
  fresh i inode hfresh hi := absurd (h i inode hi) (not_lt.2 hfresh)

theorem setAllocations (h : Since s₀ s) (u : Allocations) : Since s₀ (s.setAllocations u) :=
  ⟨h.nextInode, h.root, h.mountPoints, h.pids, h.old, h.fresh⟩

/-- A new inode is changed. -/
theorem setFresh (h : Since s₀ s) (hi : s₀.nextInode ≤ i) (hfops : new.fops = .procfsDir ∨ new.fops = .procfsItem)
    (hchildren : ∀ d ∈ new.children, s₀.nextInode ≤ d.inode) : Since s₀ (s.setInode i (some new)) where
  nextInode := h.nextInode
  root := h.root
  mountPoints := h.mountPoints
  pids := h.pids
  old j hj := by
    rw [State.setInode_of_ne (by omega)]
    exact h.old j hj
  fresh j node hj hnode := by
    by_cases hji : j = i
    · subst hji
      obtain rfl : new = node := by simpa using hnode
      exact ⟨hfops, hchildren⟩
    · rw [State.setInode_of_ne hji] at hnode
      exact h.fresh j node hj hnode

/-- A new inode is freed. -/
theorem freeFresh (h : Since s₀ s) (hi : s₀.nextInode ≤ i) : Since s₀ (s.setInode i none) where
  nextInode := h.nextInode
  root := h.root
  mountPoints := h.mountPoints
  pids := h.pids
  old j hj := by
    rw [State.setInode_of_ne (by omega)]
    exact h.old j hj
  fresh j node hj hnode := by
    have hji : j ≠ i := by
      rintro rfl
      simp at hnode
    rw [State.setInode_of_ne hji] at hnode
    exact h.fresh j node hj hnode

/-- The references of an inode change. -/
theorem setRefCount (h : Since s₀ s) (hi : s.inodes i = some inode) (r : ℕ) :
    Since s₀ (s.setInode i (some { inode with refCount := r })) where
  nextInode := h.nextInode
  root := h.root
  mountPoints := h.mountPoints
  pids := h.pids
  old j hj := by
    by_cases hji : j = i
    · subst hji
      obtain ⟨r', hr'⟩ := h.old j hj
      rw [hi] at hr'
      obtain ⟨inode', hinode', rfl⟩ := Option.map_eq_some_iff.1 hr'.symm
      exact ⟨r, by rw [State.setInode_self, hinode', Option.map_some]⟩
    · rw [State.setInode_of_ne hji]
      exact h.old j hj
  fresh j node hj hnode := by
    by_cases hji : j = i
    · subst hji
      obtain rfl : { inode with refCount := r } = node := by simpa using hnode
      exact h.fresh j inode hj hi
    · rw [State.setInode_of_ne hji] at hnode
      exact h.fresh j node hj hnode

/-- What a directory that was there lists. -/
theorem children_eq (h : Since s₀ s) (hi : i < s₀.nextInode) (hinode : s.inodes i = some inode) :
    ∃ inode₀, s₀.inodes i = some inode₀ ∧ inode = { inode₀ with refCount := inode.refCount } := by
  obtain ⟨r, hr⟩ := h.old i hi
  rw [hinode] at hr
  obtain ⟨inode₀, hinode₀, rfl⟩ := Option.map_eq_some_iff.1 hr.symm
  exact ⟨inode₀, hinode₀, rfl⟩

/-- An inode of tmpfs, or the root of procfs, was there before. -/
theorem lt_of_fops (h : Since s₀ s) (hinode : s.inodes i = some inode) (hdir : inode.fops ≠ .procfsDir)
    (hitem : inode.fops ≠ .procfsItem) : i < s₀.nextInode := by
  by_contra hfresh
  obtain ⟨hfops, -⟩ := h.fresh i inode (not_lt.1 hfresh) hinode
  exact hfops.elim hdir hitem

end Since

/-- What is found is an entry. -/
theorem mem_of_find {entries : List (Dentry Chars ℕ)} {name : Chars} {i : ℕ} (h : dentryFind entries name = .ok i) :
    ∃ d ∈ entries, d.inode = i := by
  induction entries with
  | nil => cases h
  | cons d rest ih =>
      rw [dentryFind] at h
      split_ifs at h
      · exact ⟨d, List.mem_cons_self, Except.ok.inj h⟩
      · obtain ⟨d', hd', heq⟩ := ih h
        exact ⟨d', List.mem_cons_of_mem d hd', heq⟩

theorem ensures_getInode {α : Type} {f : Inode → Kernel State α} {i : ℕ} {s : State} {post : α → State → Prop}
    (h : ∀ inode, s.inodes i = some inode → Ensures (f inode) s post) : Ensures (getInode i >>= f) s post := by
  rw [getInode, ensures_bind, ensures_bind, ensures_get]
  cases hi : s.inodes i with
  | none => trivial
  | some inode => exact h inode hi

/-- Releasing a new inode, or one that is referred to more than once, leaves the inodes alone that were there before. By
    induction on the depth: what a new directory lists is new. -/
theorem unrefNested_since {s₀ s : State} (n : ℕ) {i : ℕ} (h : Since s₀ s)
    (hi : s₀.nextInode ≤ i ∨ ∀ inode, s.inodes i = some inode → 1 < inode.refCount) :
    Ensures (unrefNested n i) s fun _ t => Since s₀ t := by
  induction n generalizing i s with
  | zero => trivial
  | succ n ih =>
      rw [unrefNested]
      refine ensures_getInode fun inode hinode => ?_
      rw [ensures_bind, assert, ensures_require]
      intro hpos
      rw [ensures_bind]
      have hset : Since s₀ (s.setInode i (some { inode with refCount := inode.refCount - 1 })) :=
        h.setRefCount hinode _
      change Ensures _ (s.setInode i (some { inode with refCount := inode.refCount - 1 })) _
      split
      case isFalse => exact hset
      case isTrue hlast =>
          have hfresh : s₀.nextInode ≤ i := by
            refine hi.resolve_right fun hshared => ?_
            have hlt := hshared inode hinode
            omega
          rw [ensures_bind]
          refine (Ensures.forM (Since s₀) hset fun d hd t ht => ?_).mono fun _ t ht => ht.freeFresh hfresh
          have hdfresh := (h.fresh i inode hfresh hinode).2 d hd
          rw [clearDentry]
          refine ensures_getInode fun child hchild => ?_
          rw [ensures_bind, assert, ensures_require]
          intro _
          rw [ensures_bind]
          obtain ⟨hfops, hchildren⟩ := ht.fresh d.inode child hdfresh hchild
          exact ih (ht.setFresh hdfresh hfops hchildren) (.inl hdfresh)

/-! ### What a walk holds -/

section Walks

variable {clean : Prop} {s₀ s : State} {base l : Multiset ℕ} {i : ℕ} {inode : Inode}

/-- The state during a walk that holds `l`, where `base` was held when it began in `s₀`. -/
structure Walking (clean : Prop) (s₀ : State) (base l : Multiset ℕ) (s : State) : Prop where
  held : Held clean ∅ 0 (l + base) s
  since : Since s₀ s

/-- Before the first step. -/
theorem Walking.start (h : Held clean ∅ 0 base s₀) : Walking clean s₀ base 0 s₀ :=
  ⟨by rwa [zero_add], Since.refl fun _ _ hi => h.lt_nextInode hi⟩

theorem Walking.congr {l' : Multiset ℕ} (h : Walking clean s₀ base l s) (heq : l = l') : Walking clean s₀ base l' s :=
  heq ▸ h

theorem Walking.setAllocations (h : Walking clean s₀ base l s) (u : Allocations) :
    Walking clean s₀ base l (s.setAllocations u) := ⟨h.held.setAllocations u, h.since.setAllocations u⟩

/-- An inode that was there is referred to as often as before, and by the walk. -/
theorem Walking.refCount_eq (h₀ : Held clean ∅ 0 base s₀) (h : Walking clean s₀ base l s) {inode₀ : Inode}
    (hi₀ : s₀.inodes i = some inode₀) (hi : s.inodes i = some inode) :
    inode.refCount = inode₀.refCount + l.count i := by
  have hlt := h₀.lt_nextInode hi₀
  have hedges : ((graph ∅ s).edges s.nextInode).count i = ((graph ∅ s₀).edges s₀.nextInode).count i := by
    refine ObjectGraph.count_edges_congr h.since.nextInode (fun j hj => ?_) fun j hj hmem => ?_
    · obtain ⟨r, hr⟩ := h.since.old j hj
      cases hnode : s₀.inodes j <;> simp [ObjectGraph.out, graph, graphNode, hr, hnode]
    · cases hnode : s.inodes j with
      | none => simp [ObjectGraph.out, graph, hnode] at hmem
      | some node =>
          simp only [ObjectGraph.out, graph, graphNode, hnode, Option.map_some, Option.getD_some, Finset.notMem_empty,
            if_false, Multiset.mem_coe, List.mem_map] at hmem
          obtain ⟨d, hd, rfl⟩ := hmem
          exact absurd ((h.since.fresh j node hj hnode).2 d hd) (by omega)
  have hown : ownRefs s = ownRefs s₀ := by rw [ownRefs, ownRefs, h.since.root, h.since.mountPoints]
  have hrefs := h.held.accounted.counts.refs_eq i _ (graph_of_some hi)
  have hrefs₀ := h₀.accounted.counts.refs_eq i _ (graph_of_some hi₀)
  simp only [graphNode, Multiset.count_add, hown, hedges] at hrefs hrefs₀
  omega

/-- `inode_ref`. -/
theorem Walking.inodeRef (h : Walking clean s₀ base l s) (hi : s.inodes i = some inode) :
    Yields (inodeRef i) s fun _ t => Walking clean s₀ base ({i} + l) t := by
  obtain ⟨hreturn, hheld⟩ := inodeRef_spec h.held hi
  refine yields_of_return hreturn ⟨?_, h.since.setRefCount hi _⟩
  rwa [add_assoc, Multiset.singleton_add]

/-- `inode_unref`. -/
theorem Walking.inodeUnref (h₀ : Held clean ∅ 0 base s₀) (h : Walking clean s₀ base ({i} + l) s) :
    Yields (inodeUnref i) s fun _ t => Walking clean s₀ base l t := by
  have hheld := h.held
  rw [add_assoc, Multiset.singleton_add] at hheld
  have hspec := inodeUnref_spec hheld
  obtain ⟨_, t, hreturn, ht, -⟩ := yields_iff.1 hspec
  refine yields_of_return hreturn ⟨ht, ?_⟩
  have hshared : s₀.nextInode ≤ i ∨ ∀ inode, s.inodes i = some inode → 1 < inode.refCount := by
    rw [or_iff_not_imp_left, not_le]
    intro hlt inode hi
    obtain ⟨inode₀, hi₀, -⟩ := h.since.children_eq hlt hi
    have hcount := h.refCount_eq h₀ hi₀ hi
    have hpos : inode₀.refCount ≠ 0 := fun hzero => absurd ((h₀.unused i inode₀ hi₀).1 hzero) (Finset.notMem_empty i)
    rw [Multiset.singleton_add, Multiset.count_cons_self] at hcount
    omega
  have hsince : Ensures (Vfs.inodeUnref i) s fun _ t => Since s₀ t := by
    rw [Vfs.inodeUnref, ensures_bind, ensures_get]
    exact unrefNested_since _ h.since hshared
  exact ensures_iff.1 hsince _ t hreturn

/-- What is held is there. -/
theorem Walking.exists_inode (h : Walking clean s₀ base l s) (hi : i ∈ l) : ∃ inode, s.inodes i = some inode := by
  obtain ⟨inode, hinode, -⟩ := h.held.exists_inode (Multiset.mem_add.2 (.inl hi))
  exact ⟨inode, hinode⟩

/-! ### Directories of processes -/

theorem Since.addInode {new : Inode} (h : Since s₀ s) (u : Allocations)
    (hfops : new.fops = .procfsDir ∨ new.fops = .procfsItem) (hchildren : new.children = []) :
    Since s₀ (s.addInode u new) := by
  have hset : Since s₀ (s.setInode s.nextInode (some new)) := h.setFresh h.nextInode hfops (by simp [hchildren])
  exact ⟨h.nextInode.trans (Nat.le_succ _), h.root, h.mountPoints, h.pids, hset.old, hset.fresh⟩

/-- A new inode of procfs. -/
theorem Walking.createInode {new : Inode} (h : Walking clean s₀ base l s) (hnew : NewInode new)
    (hfops : new.fops = .procfsDir ∨ new.fops = .procfsItem) :
    Yields (createInode new) s fun r t =>
      (r = none ∧ Walking clean s₀ base l t) ∨ ∃ i, r = some i ∧ s₀.nextInode ≤ i ∧
        Walking clean s₀ base ({i} + l) t := by
  apply (createInode_spec new s).mono
  rintro r t (⟨rfl, u, rfl⟩ | ⟨rfl, u, rfl⟩)
  · exact .inl ⟨rfl, h.setAllocations u⟩
  · refine .inr ⟨_, rfl, h.since.nextInode, ?_, h.since.addInode u hfops hnew.children⟩
    rw [add_assoc, Multiset.singleton_add]
    exact h.held.addInode u hnew

/-- An entry of a new directory. -/
theorem Walking.appendChild {dir child : ℕ} (h : Walking clean s₀ base ({child} + ({dir} + l)) s)
    (hdir : s₀.nextInode ≤ dir) (hchild : s₀.nextInode ≤ child) (name : Chars) :
    Yields (appendChild dir name child) s fun r t =>
      (r = .ok () ∧ Walking clean s₀ base ({dir} + l) t) ∨
        ∃ e, r = .error e ∧ Walking clean s₀ base ({child} + ({dir} + l)) t := by
  obtain ⟨dirInode, hdirInode⟩ := h.exists_inode (i := dir) (by simp)
  obtain ⟨childInode, hchildInode⟩ := h.exists_inode (i := child) (by simp)
  apply (appendChild_spec name hdirInode hchildInode).mono
  rintro r t (⟨e, u, rfl, rfl, -⟩ | ⟨rfl, -, u, inode, hinode, rfl⟩)
  · exact .inr ⟨e, rfl, h.setAllocations u⟩
  · refine .inl ⟨rfl, ?_, ?_⟩
    · have hheld := h.held
      rw [add_assoc, Multiset.singleton_add] at hheld
      exact hheld.addEntry u name hdirInode hinode
    · obtain ⟨hfops, hchildren⟩ := h.since.fresh dir dirInode hdir hdirInode
      have hentries : ∀ d ∈ dirInode.children ++ [{ name := name, inode := child }], s₀.nextInode ≤ d.inode := by
        intro d hd
        obtain hd | rfl := by simpa using hd
        · exact hchildren d hd
        · exact hchild
      have hset : Since s₀ ((s.setAllocations u).setInode dir
          (some { dirInode with children := dirInode.children ++ [{ name := name, inode := child }] })) :=
        (h.since.setAllocations u).setFresh hdir hfops hentries
      obtain ⟨hfops', hchildren'⟩ := hset.fresh child inode hchild hinode
      exact hset.setFresh hchild hfops' hchildren'

/-- `add_item`: an item that could not be added is left behind. -/
theorem addItem_spec {dir : ℕ} (h : Walking clean s₀ base ({dir} + l) s) (hdir : s₀.nextInode ≤ dir) (name : Chars) :
    Yields (addItem dir name) s fun r t =>
      (r = .ok () ∧ Walking clean s₀ base ({dir} + l) t) ∨ ∃ e new, r = .error e ∧
        (∀ j ∈ new, s₀.nextInode ≤ j) ∧ Walking clean s₀ base (new + ({dir} + l)) t := by
  rw [addItem, yields_bind]
  apply (h.createInode (⟨rfl, rfl, rfl, by decide⟩ : NewInode { fops := .procfsItem, mode := S_IFREG }) (.inr rfl)).mono
  rintro r t (⟨rfl, ht⟩ | ⟨i, rfl, hi, ht⟩)
  · exact .inr ⟨.ENOMEM, 0, rfl, by simp, by rwa [zero_add]⟩
  · apply (ht.appendChild hdir hi name).mono
    rintro r u (⟨rfl, hu⟩ | ⟨e, rfl, hu⟩)
    · exact .inl ⟨rfl, hu⟩
    · exact .inr ⟨e, {i}, rfl, by simpa using hi, hu⟩

theorem addItems_spec {dir : ℕ} (hdir : s₀.nextInode ≤ dir) (names : List Chars) {s : State}
    (h : Walking clean s₀ base ({dir} + l) s) :
    Yields (addItems dir names) s fun r t =>
      (r = .ok () ∧ Walking clean s₀ base ({dir} + l) t) ∨ ∃ e new, r = .error e ∧
        (∀ j ∈ new, s₀.nextInode ≤ j) ∧ Walking clean s₀ base (new + ({dir} + l)) t := by
  induction names generalizing s with
  | nil => exact .inl ⟨rfl, h⟩
  | cons name rest ih =>
      rw [addItems, yields_bind]
      apply (addItem_spec h hdir name).mono
      rintro r t (⟨rfl, ht⟩ | ⟨e, new, rfl, hnew, ht⟩)
      · exact ih ht
      · exact .inr ⟨e, new, rfl, hnew, ht⟩

/-- What a look-up leaves behind: nothing, or one reference to a root of procfs and some new inodes. -/
def Leak (clean : Prop) (s₀ : State) (leak : Multiset ℕ) : Prop :=
  leak = 0 ∨ ¬clean ∧ ∃ i inode new, leak = {i} + new ∧ s₀.inodes i = some inode ∧ inode.fops = .procfsRoot ∧
    ∀ j ∈ new, s₀.nextInode ≤ j

/-- A reference to a root of procfs that is left behind. -/
theorem Walking.leak {parent : ℕ} (h : Walking clean s₀ base l s) (hparent : s.inodes parent = some inode)
    (hfops : inode.fops = .procfsRoot) {new : Multiset ℕ} (hnew : ∀ j ∈ new, s₀.nextInode ≤ j) :
    Leak clean s₀ ({parent} + new) := by
  have hlt := h.since.lt_of_fops hparent (by simp [hfops]) (by simp [hfops])
  obtain ⟨inode₀, hinode₀, heq⟩ := h.since.children_eq hlt hparent
  refine .inr ⟨fun hclean => (h.held.kinds parent inode hparent).noProcfs hclean hfops, parent, inode₀, new, rfl, hinode₀, ?_,
    hnew⟩
  rw [← hfops, heq]

/-- `procfs_pid_dir_inode_create`. -/
theorem procfsPidDirInodeCreate_spec (h₀ : Held clean ∅ 0 base s₀) {parent : ℕ}
    (h : Walking clean s₀ base ({parent} + l) s) (hparent : s.inodes parent = some inode)
    (hfops : inode.fops = .procfsRoot) (pid : ℕ) :
    Yields (procfsPidDirInodeCreate parent pid) s fun r t =>
      (∃ i, r = .ok i ∧ Walking clean s₀ base ({i} + l) t) ∨ ∃ e leak, r = .error e ∧ Leak clean s₀ leak ∧
        Walking clean s₀ base (leak + l) t := by
  have hleak : ∀ new : Multiset ℕ, (∀ j ∈ new, s₀.nextInode ≤ j) → Leak clean s₀ ({parent} + new) := fun new hnew =>
    h.leak hparent hfops hnew
  rw [procfsPidDirInodeCreate, yields_bind, yields_get]
  split
  · exact .inr ⟨_, _, rfl, hleak 0 (by simp), h.congr (by simp)⟩
  · rw [yields_bind]
    apply (h.createInode (⟨rfl, rfl, rfl, by decide⟩ : NewInode { fops := .procfsDir, mode := S_IFDIR }) (.inl rfl)).mono
    rintro r t (⟨rfl, ht⟩ | ⟨i, rfl, hi, ht⟩)
    · exact .inr ⟨_, _, rfl, hleak 0 (by simp), ht.congr (by simp)⟩
    · dsimp only
      rw [yields_bind]
      apply (addItems_spec hi pidItems ht).mono
      rintro r u (⟨rfl, hu⟩ | ⟨e, new, rfl, hnew, hu⟩)
      · dsimp only
        rw [yields_bind]
        have hswap : Walking clean s₀ base ({parent} + ({i} + l)) u := hu.congr (by abel)
        apply (Walking.inodeUnref h₀ hswap).mono
        exact fun _ v hv => .inl ⟨i, rfl, hv⟩
      · refine .inr ⟨e, {parent} + (new + {i}), rfl, hleak _ ?_, hu.congr (by abel)⟩
        intro j hj
        obtain hj | rfl := by simpa using hj
        · exact hnew j hj
        · exact hi

/-! ### Looking up -/

/-- `dentry_find`, and the release of the directory. -/
theorem findChild_spec (h₀ : Held clean ∅ 0 base s₀) {dir : ℕ} (h : Walking clean s₀ base ({dir} + l) s)
    (hdir : s.inodes dir = some inode) (name : Chars) :
    Yields (findChild dir name) s fun r t =>
      (∃ i, r = .ok i ∧ Walking clean s₀ base ({i} + l) t) ∨
        r = .error .ENOENT ∧ name ∉ namesOf inode.children ∧ Walking clean s₀ base l t := by
  rw [findChild, yields_bind_of_return (run_getInode hdir)]
  cases hfind : dentryFind inode.children name with
  | error e =>
      obtain ⟨rfl, hnot⟩ := dentryFind_error_iff.1 hfind
      dsimp only
      rw [yields_bind]
      apply (Walking.inodeUnref h₀ h).mono
      exact fun _ t ht => .inr ⟨rfl, hnot, ht⟩
  | ok child =>
      obtain ⟨d, hd, rfl⟩ := mem_of_find hfind
      obtain ⟨childInode, hchild, -⟩ := h.held.exists_child hdir hd
      dsimp only
      rw [yields_bind]
      apply (h.inodeRef hchild).mono
      intro _ t ht
      have hswap : Walking clean s₀ base ({dir} + ({d.inode} + l)) t := ht.congr (by abel)
      rw [yields_bind]
      apply (Walking.inodeUnref h₀ hswap).mono
      exact fun _ u hu => .inl ⟨_, rfl, hu⟩

/-- `inode_lookup_child` takes the reference to the directory and gives one to the child. A name that is not in a
    directory of tmpfs is not found. -/
theorem inodeLookupChild_spec (h₀ : Held clean ∅ 0 base s₀) {dir : ℕ} (h : Walking clean s₀ base ({dir} + l) s)
    (hdir : s.inodes dir = some inode) (name : Chars) :
    Yields (inodeLookupChild dir name) s fun r t =>
      (∃ i, r = .ok i ∧ Walking clean s₀ base ({i} + l) t) ∨ ∃ e leak, r = .error e ∧ Leak clean s₀ leak ∧
        Walking clean s₀ base (leak + l) t ∧
        (e = .ENOENT → inode.fops = .tmpfsDir → name ∉ namesOf inode.children) := by
  have hfind : Yields (findChild dir name) s fun r t =>
      (∃ i, r = .ok i ∧ Walking clean s₀ base ({i} + l) t) ∨ ∃ e leak, r = .error e ∧ Leak clean s₀ leak ∧
        Walking clean s₀ base (leak + l) t ∧
        (e = .ENOENT → inode.fops = .tmpfsDir → name ∉ namesOf inode.children) := by
    apply (findChild_spec h₀ h hdir name).mono
    rintro r t (hok | ⟨rfl, hnot, ht⟩)
    · exact .inl hok
    · exact .inr ⟨_, 0, rfl, .inl rfl, by rwa [zero_add], fun _ _ => hnot⟩
  rw [inodeLookupChild, yields_bind_of_return (run_getInode hdir)]
  split
  · rw [yields_bind]
    apply (Walking.inodeUnref h₀ h).mono
    exact fun _ t ht => .inr ⟨_, 0, rfl, .inl rfl, by rwa [zero_add], by simp⟩
  · cases hfops : inode.fops with
    | procfsRoot =>
        dsimp only
        rw [procfsRootLookupChild]
        split
        · apply (procfsPidDirInodeCreate_spec h₀ h hdir hfops _).mono
          rintro r t (hok | ⟨e, leak, rfl, hleak, ht⟩)
          · exact .inl hok
          · exact .inr ⟨e, leak, rfl, hleak, ht, by simp⟩
        · rw [hfops] at hfind
          exact hfind
    | procfsDir =>
        rw [hfops] at hfind
        exact hfind
    | tmpfsDir =>
        rw [hfops] at hfind
        exact hfind
    | tmpfsNonDir =>
        rw [hfops] at hfind
        exact hfind
    | procfsItem =>
        rw [hfops] at hfind
        exact hfind

/-! ### Walking -/

/-- The reference that comes with what is stored. -/
def refsOf : Option ℕ → Multiset ℕ
  | none => 0
  | some i => {i}

/-- The references that the caller of `vfs_resolve_path` gets. -/
def handed (r : Resolved) : Multiset ℕ := refsOf r.inode.toOption + refsOf r.parent

@[simp] theorem refsOf_none : refsOf none = 0 := rfl

@[simp] theorem refsOf_some (i : ℕ) : refsOf (some i) = {i} := rfl

@[simp] theorem handed_ok (i : ℕ) (parent : Option ℕ) (basename : Option Chars) :
    handed { inode := .ok i, parent := parent, basename := basename } = {i} + refsOf parent := rfl

@[simp] theorem handed_error (e : Errno) (parent : Option ℕ) (basename : Option Chars) :
    handed { inode := .error e, parent := parent, basename := basename } = refsOf parent := by
  rw [handed]
  exact zero_add _

/-- `vfs_get_root`. -/
theorem vfsGetRoot_spec (h : Walking clean s₀ base l s) :
    Yields vfsGetRoot s fun r t => Walking clean s₀ base ({r} + l) t ∧ r = s₀.root := by
  obtain ⟨inode, hinode⟩ := h.held.exists_root
  rw [vfsGetRoot, yields_bind, yields_get]
  dsimp only
  rw [yields_bind]
  exact (h.inodeRef hinode).mono fun _ t ht => ⟨ht, h.since.root⟩

/-- `find_mounted_guest` takes the reference to the host, and gives one to the guest. -/
theorem findMountedGuest_spec (h₀ : Held clean ∅ 0 base s₀) {host : ℕ} (h : Walking clean s₀ base ({host} + l) s) :
    Yields (findMountedGuest host) s fun r t => Walking clean s₀ base (refsOf r + l) t := by
  rw [findMountedGuest, yields_bind, yields_get]
  cases hfind : s.mountPoints.find? fun mp => mp.1 = host with
  | none =>
      dsimp only
      rw [yields_bind]
      apply (Walking.inodeUnref h₀ h).mono
      exact fun _ t ht => ht.congr (zero_add l).symm
  | some mp =>
      dsimp only
      rw [yields_bind]
      apply (Walking.inodeUnref h₀ h).mono
      intro _ t ht
      have hmp : mp ∈ t.mountPoints := by
        rw [ht.since.mountPoints, ← h.since.mountPoints]
        exact List.mem_of_find?_eq_some hfind
      obtain ⟨inode, hinode⟩ := ht.held.exists_guest hmp
      rw [yields_bind]
      exact ht.inodeRef hinode

/-- The look-up of one component. -/
theorem stepInto_spec (h₀ : Held clean ∅ 0 base s₀) {dir : ℕ} (h : Walking clean s₀ base ({dir} + l) s)
    (hdir : s.inodes dir = some inode) (component : Chars) :
    Yields (stepInto dir component) s fun r t =>
      (∃ i, r = .ok i ∧ Walking clean s₀ base ({i} + l) t) ∨ ∃ e leak, r = .error e ∧ Leak clean s₀ leak ∧
        Walking clean s₀ base (leak + l) t ∧
        (e = .ENOENT → inode.fops = .tmpfsDir → component ∉ namesOf inode.children) := by
  rw [stepInto, yields_bind]
  apply (inodeLookupChild_spec h₀ h hdir component).mono
  rintro r t (⟨child, rfl, ht⟩ | herror)
  · obtain ⟨childInode, hchild⟩ := ht.exists_inode (i := child) (by simp)
    dsimp only
    rw [yields_bind]
    apply (ht.inodeRef hchild).mono
    intro _ u hu
    rw [yields_bind]
    apply (findMountedGuest_spec h₀ hu).mono
    intro guest v hv
    cases guest with
    | none => exact .inl ⟨child, rfl, hv.congr (zero_add _)⟩
    | some guest =>
        have hswap : Walking clean s₀ base ({child} + ({guest} + l)) v := hv.congr (add_left_comm _ _ _)
        dsimp only
        rw [yields_bind]
        apply (Walking.inodeUnref h₀ hswap).mono
        exact fun _ w hw => .inl ⟨guest, rfl, hw⟩
  · obtain ⟨e, leak, rfl, hleak, ht, hmissing⟩ := herror
    exact .inr ⟨e, leak, rfl, hleak, ht, hmissing⟩

/-- What is stored before the last look-up. -/
theorem storeLast_spec (h₀ : Held clean ∅ 0 base s₀) {dir : ℕ} (h : Walking clean s₀ base ({dir} + l) s)
    (outParent outBasename : Bool) (component : Chars) :
    Yields (storeLast outParent outBasename dir component) s fun r t =>
      (r = .error .ENOMEM ∧ Walking clean s₀ base l t) ∨
        r = .ok (if outParent then some dir else none, if outBasename then some component else none) ∧
          Walking clean s₀ base ({dir} + (refsOf (if outParent then some dir else none) + l)) t := by
  have hstores : ∀ (basename : Option Chars) (t : State), Walking clean s₀ base ({dir} + l) t →
      Yields (if outParent = true then do
          inodeRef dir
          pure (.ok (some dir, basename))
        else pure (.ok (none, basename)) : Kernel State (Except Errno (Option Nat × Option Chars))) t fun r u =>
          r = .ok (if outParent then some dir else none, basename) ∧
            Walking clean s₀ base ({dir} + (refsOf (if outParent then some dir else none) + l)) u := by
    intro basename t ht
    cases outParent with
    | false => exact ⟨rfl, ht.congr (by simp)⟩
    | true =>
        obtain ⟨dirInode, hdirInode⟩ := ht.exists_inode (i := dir) (by simp)
        rw [if_pos rfl, yields_bind]
        apply (ht.inodeRef hdirInode).mono
        exact fun _ u hu => ⟨rfl, hu⟩
  unfold storeLast
  cases outBasename with
  | false =>
      apply (hstores none s h).mono
      exact fun r t ht => .inr ht
  | true =>
      rw [if_pos rfl, yields_bind]
      apply (yields_kstrdup component s).mono
      rintro b t ⟨rfl | rfl, u, rfl⟩
      · apply (yields_bind.2 ((Walking.inodeUnref h₀ (h.setAllocations u)).mono ?_))
        exact fun _ v hv => .inl ⟨rfl, hv⟩
      · apply (hstores (some component) _ (h.setAllocations u)).mono
        exact fun r v hv => .inr hv

/-- What `vfs_resolve_path` leaves: the references that it hands over are held, and on an error perhaps a leak. A parent
    is stored with the name that was looked up in it, and when nothing has the name, no entry of a directory of tmpfs
    does. -/
structure Walked (clean : Prop) (s₀ : State) (base : Multiset ℕ) (outParent outBasename : Bool) (l : Multiset ℕ)
    (r : Resolved) (t : State) : Prop where
  held : ∃ leak, Leak clean s₀ leak ∧ (leak ≠ 0 → ∃ e, r.inode = .error e) ∧
    Walking clean s₀ base (handed r + leak + l) t
  parent : outParent = false → r.parent = none
  root : outParent = true → r.parent = none → ∀ i, r.inode = .ok i → i = s₀.root
  named : outBasename = true → ∀ p, r.parent = some p → ∃ b, r.basename = some b
  missing : r.inode = .error .ENOENT → ∀ p b inode, r.parent = some p → r.basename = some b →
    t.inodes p = some inode → inode.fops = .tmpfsDir → b ∉ namesOf inode.children

/-- A walk that ends before the last component. -/
theorem Walked.of_error {outParent outBasename : Bool} {e : Errno} {leak : Multiset ℕ} (hleak : Leak clean s₀ leak)
    (h : Walking clean s₀ base (leak + l) s) :
    Walked clean s₀ base outParent outBasename l { inode := .error e } s where
  held := ⟨leak, hleak, fun _ => ⟨e, rfl⟩, by simpa using h⟩
  parent _ := rfl
  root _ _ i hi := by simp at hi
  named _ p hp := by simp at hp
  missing _ p b inode hp := by simp at hp

/-- The loop of `vfs_resolve_path`. By induction on the components that are left. -/
theorem walkComponents_spec (h₀ : Held clean ∅ 0 base s₀) (outParent outBasename : Bool) (components : List Chars)
    {numComponents n dir : ℕ} {s : State} (h : Walking clean s₀ base ({dir} + l) s)
    (hlength : n + components.length = numComponents) (hne : components ≠ []) :
    Yields (walkComponents outParent outBasename numComponents n components dir) s
      (Walked clean s₀ base outParent outBasename l) := by
  induction components generalizing n dir s with
  | nil => exact absurd rfl hne
  | cons component rest ih =>
      rw [List.length_cons] at hlength
      rw [walkComponents]
      split
      case isTrue hlast =>
        have hrest : rest = [] := List.length_eq_zero_iff.1 (by omega)
        subst hrest
        rw [yields_bind]
        apply (storeLast_spec h₀ h outParent outBasename component).mono
        rintro r t (⟨rfl, ht⟩ | ⟨rfl, ht⟩)
        · exact Walked.of_error (.inl rfl) (ht.congr (zero_add l).symm)
        · obtain ⟨inode, hinode⟩ := ht.exists_inode (i := dir) (by simp)
          dsimp only
          rw [yields_bind]
          apply (stepInto_spec h₀ ht hinode component).mono
          rintro r u (⟨child, rfl, hu⟩ | ⟨e, leak, rfl, hleak, hu, hmissing⟩)
          · refine ⟨⟨0, .inl rfl, fun hne => absurd rfl hne, hu.congr ?_⟩, ?_, ?_, ?_, ?_⟩
            · rw [handed_ok, add_zero, add_assoc]
            · rintro rfl
              rfl
            · rintro rfl hnone
              simp at hnone
            · rintro rfl p -
              exact ⟨component, rfl⟩
            · intro he
              simp at he
          · refine ⟨⟨leak, hleak, fun _ => ⟨e, rfl⟩, hu.congr ?_⟩, ?_, ?_, ?_, ?_⟩
            · rw [handed_error]
              abel
            · rintro rfl
              rfl
            · intro _ _ i hi
              simp at hi
            · rintro rfl p -
              exact ⟨component, rfl⟩
            · intro he p b node hp hb hnode hfops
              obtain rfl : e = .ENOENT := Except.error.inj he
              obtain rfl : dir = p := by
                cases outParent with
                | false => simp at hp
                | true => simpa using hp
              obtain rfl : component = b := by
                cases outBasename with
                | false => simp at hb
                | true => simpa using hb
              -- the entries of a directory of tmpfs are those of the beginning
              have hlt := hu.since.lt_of_fops hnode (by simp [hfops]) (by simp [hfops])
              obtain ⟨node₀, hnode₀, hnodeEq⟩ := hu.since.children_eq hlt hnode
              obtain ⟨inode₀, hinode₀, hinodeEq⟩ := ht.since.children_eq hlt hinode
              obtain rfl := Option.some.inj (hnode₀.symm.trans hinode₀)
              have hchildren : node.children = inode.children := by rw [hnodeEq, hinodeEq]
              have hfops' : inode.fops = .tmpfsDir := by rw [← hfops, hnodeEq, hinodeEq]
              rw [hchildren]
              exact hmissing rfl hfops'
      case isFalse =>
        obtain ⟨inode, hinode⟩ := h.exists_inode (i := dir) (by simp)
        rw [yields_bind]
        apply (stepInto_spec h₀ h hinode component).mono
        rintro r t (⟨child, rfl, ht⟩ | ⟨e, leak, rfl, hleak, ht, -⟩)
        · refine ih ht (by omega) ?_
          rintro rfl
          rw [List.length_nil] at hlength
          omega
        · exact Walked.of_error hleak ht

end Walks

/-- `create_path_component_list` returns, for any path of the working directory. -/
theorem createPathComponentList_returns (cwdPath pathname : Chars) (u : Allocations) :
    Yields (createPathComponentList cwdPath pathname) u fun r _ => ∀ cs, r = .ok cs → cs = .of cs.list := by
  have hof : ∀ {list : List Chars} {r : Except Errno ComponentList} {v w : Allocations},
      Allocates v (.of list) r w → ∀ cs, r = .ok cs → cs = .of cs.list := by
    intro list r v w hr cs hcs
    obtain rfl | ⟨rfl, -⟩ := hr.result
    · obtain rfl := Except.ok.inj hcs
      rfl
    · cases hcs
  unfold createPathComponentList
  split
  · intro cs hcs
    obtain rfl := Except.ok.inj hcs
    rfl
  · split
    · exact (addComponents_spec keep takeComponent_spec pathname [] u).mono fun _ _ hr => hof hr
    · rw [yields_bind]
      apply (addComponents_spec (fun kept c => kept ++ [c]) pushComponent_spec cwdPath [] u).mono
      intro r v hr
      obtain rfl | ⟨rfl, -⟩ := hr.result
      · exact (addComponents_spec keep takeComponent_spec pathname _ v).mono fun _ _ hr => hof hr
      · intro cs hcs
        cases hcs

/-- `vfs_resolve_path`. -/
theorem vfsResolvePath_spec {clean : Prop} {s₀ : State} {base : Multiset ℕ} (h₀ : Held clean ∅ 0 base s₀)
    (cwdPath pathname : Chars) (outParent outBasename : Bool) :
    Yields (vfsResolvePath cwdPath pathname outParent outBasename) s₀ (Walked clean s₀ base outParent outBasename 0) := by
  have hstart := Walking.start h₀
  rw [vfsResolvePath, yields_bind]
  apply (yields_onAllocations (createPathComponentList_returns cwdPath pathname) s₀).mono
  rintro r t ⟨hr, u, rfl⟩
  have ht := hstart.setAllocations u
  cases r with
  | error e => exact Walked.of_error (.inl rfl) (ht.congr (zero_add 0).symm)
  | ok cs =>
      have hlength : cs.list.length = cs.numComponents := by
        have hcs := hr cs rfl
        rw [hcs]
        rfl
      dsimp only
      split
      · rw [yields_bind]
        apply (vfsGetRoot_spec ht).mono
        rintro root v ⟨hv, hroot⟩
        refine ⟨⟨0, .inl rfl, fun hne => absurd rfl hne, by simpa using hv⟩, fun _ => rfl, ?_, ?_, ?_⟩
        · intro _ _ i hi
          obtain rfl := Except.ok.inj hi
          exact hroot
        · intro _ p hp
          simp at hp
        · intro he
          simp at he
      · rename_i hnonzero
        rw [yields_bind]
        apply (vfsGetRoot_spec ht).mono
        rintro root v ⟨hv, -⟩
        refine walkComponents_spec h₀ outParent outBasename cs.list hv (by rw [zero_add, hlength]) ?_
        rintro hnil
        rw [hnil, List.length_nil] at hlength
        exact hnonzero hlength.symm

/-- A leak counts at most once for an inode that was there, and only for a root of procfs. -/
theorem Leak.count {clean : Prop} {s₀ : State} {leak : Multiset ℕ} (h : Leak clean s₀ leak) {i : ℕ} {inode : Inode}
    (hi : s₀.inodes i = some inode) (hlt : i < s₀.nextInode) (hne : leak.count i ≠ 0) :
    leak ≠ 0 ∧ leak.count i = 1 ∧ inode.fops = .procfsRoot := by
  obtain rfl | ⟨-, j, root, new, rfl, hj, hfops, hnew⟩ := h
  · simp at hne
  · have hnone : new.count i = 0 := Multiset.count_eq_zero.2 fun hmem => absurd (hnew i hmem) (by omega)
    rw [Multiset.count_add, hnone, add_zero] at hne ⊢
    obtain rfl : i = j := Multiset.mem_singleton.1 (Multiset.count_ne_zero.1 hne)
    refine ⟨?_, Multiset.count_singleton_self i, ?_⟩
    · intro hzero
      exact absurd (congrArg Multiset.card hzero) (by simp)
    · rw [hi] at hj
      rw [Option.some.inj hj]
      exact hfops

/-- A call of `vfs_resolve_path` returns. Of the inodes that were there, the one that is returned and the parent that is
    stored have one more reference, and otherwise they are as they were; only a failed look-up of the directory of a
    process leaves a reference to the root of procfs behind. All counts are right for what is held afterwards. -/
theorem resolve_conserves {users : Multiset ℕ} {s : State} (h : Held False ∅ 0 users s) (cwdPath pathname : Chars)
    (outParent outBasename : Bool) :
    ∃ r t leak, vfsResolvePath cwdPath pathname outParent outBasename s = .ok (r, t) ∧
      Held False ∅ 0 (handed r + leak + users) t ∧ ((∃ i, r.inode = .ok i) → leak = 0) ∧
      ∀ i inode, s.inodes i = some inode →
        t.inodes i = some { inode with refCount := inode.refCount + (handed r).count i + leak.count i } ∧
          (leak.count i ≠ 0 → leak.count i = 1 ∧ inode.fops = .procfsRoot) := by
  obtain ⟨r, t, hreturn, hwalked⟩ := yields_iff.1 (vfsResolvePath_spec h cwdPath pathname outParent outBasename)
  obtain ⟨leak, hleak, herror, hwalking⟩ := hwalked.held
  rw [add_zero] at hwalking
  refine ⟨r, t, leak, hreturn, hwalking.held, ?_, fun i inode hi => ⟨?_, fun hne => ?_⟩⟩
  · rintro ⟨i, hr⟩
    by_contra hne
    obtain ⟨e, he⟩ := herror hne
    rw [hr] at he
    cases he
  · obtain ⟨count, ht⟩ := hwalking.since.old i (h.lt_nextInode hi)
    rw [hi, Option.map_some] at ht
    have hcount := hwalking.refCount_eq h hi ht
    rw [Multiset.count_add, ← add_assoc] at hcount
    rw [ht, ← hcount]
  · exact (hleak.count hi (h.lt_nextInode hi) hne).2

section MountedProcfs

/-- procfs, with one process, mounted on the directory `proc` of the root directory. -/
def mountedProcfs : State where
  inodes
    | 0 => some { fops := .tmpfsDir, mode := S_IFDIR, children := [{ name := [0x70], inode := 1 }] }
    | 1 => some { fops := .tmpfsDir, mode := S_IFDIR, refCount := 2, numLinks := 1 }
    | 2 => some { fops := .procfsRoot, mode := S_IFDIR }
    | _ => none
  nextInode := 3
  root := 0
  mountPoints := [(1, 2)]
  pids := [1]
  allocations := { answers := fun _ => true }

theorem edges_mountedProcfs : (graph ∅ mountedProcfs).edges 3 = {1} := by
  simp [ObjectGraph.edges, Finset.sum_range_succ, ObjectGraph.out, graph, graphNode, mountedProcfs]

theorem held_mountedProcfs : Held False ∅ 0 0 mountedProcfs := by
  have hinodes : ∀ i inode, mountedProcfs.inodes i = some inode → i = 0 ∨ i = 1 ∨ i = 2 := by
    intro i inode hi
    by_contra hnot
    obtain ⟨k, rfl⟩ : ∃ k, i = k + 3 := ⟨i - 3, by omega⟩
    simp [mountedProcfs] at hi
  have hown : ownRefs mountedProcfs = {0} + ({1} + {2}) := rfl
  refine ⟨⟨?_, ?_, ?_, ?_⟩, ?_, fun i inode hi => ⟨fun hfalse => hfalse.elim, ?_⟩⟩
  · intro i node hi
    obtain ⟨inode, hinode, -⟩ := exists_inode hi
    have hcases := hinodes i inode hinode
    change i < 3
    omega
  · intro i node hi
    obtain ⟨inode, hinode, rfl⟩ := exists_inode hi
    change _ = Multiset.count i ((graph ∅ mountedProcfs).edges 3 + 0)
    rw [edges_mountedProcfs]
    obtain rfl | rfl | rfl := hinodes i inode hinode <;> obtain rfl := Option.some.inj hinode <;> rfl
  · intro i node hi
    obtain ⟨inode, hinode, rfl⟩ := exists_inode hi
    change _ = Multiset.count i ((graph ∅ mountedProcfs).edges 3 + 0 + (0 + ownRefs mountedProcfs))
    rw [edges_mountedProcfs, hown]
    obtain rfl | rfl | rfl := hinodes i inode hinode <;> obtain rfl := Option.some.inj hinode <;> rfl
  · intro i hi
    change i ∈ (graph ∅ mountedProcfs).edges 3 + 0 + (0 + ownRefs mountedProcfs) at hi
    rw [edges_mountedProcfs, hown] at hi
    obtain rfl | rfl | rfl : i = 0 ∨ i = 1 ∨ i = 2 := by
      simp at hi
      omega
    all_goals exact ⟨_, rfl⟩
  · intro i inode hi
    obtain rfl | rfl | rfl := hinodes i inode hi <;> obtain rfl := Option.some.inj hi <;> simp
  · rintro rfl
    obtain rfl := Option.some.inj hi
    rfl

/-- The directory of the process. -/
theorem resolve_conserves_process :
    ∃ r t leak, vfsResolvePath ROOT_DIR [0x2f, 0x70, 0x2f, 0x31] true true mountedProcfs = .ok (r, t) ∧
      Held False ∅ 0 (handed r + leak + 0) t ∧ ((∃ i, r.inode = .ok i) → leak = 0) ∧
      ∀ i inode, mountedProcfs.inodes i = some inode →
        t.inodes i = some { inode with refCount := inode.refCount + (handed r).count i + leak.count i } ∧
          (leak.count i ≠ 0 → leak.count i = 1 ∧ inode.fops = .procfsRoot) :=
  resolve_conserves held_mountedProcfs ROOT_DIR [0x2f, 0x70, 0x2f, 0x31] true true

end MountedProcfs

end Vfs

end Chaotix
