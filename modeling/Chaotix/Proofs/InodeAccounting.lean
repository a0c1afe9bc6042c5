/-
Module: Chaotix.Proofs.InodeAccounting
Layer: Proofs
Purpose: The counts of inodes. The links of an inode are the entries that name it, and its references are these, the
  ones of the root directory and of the mount points, and the ones that are held elsewhere. Each function of the file
  systems takes and gives back the references that its callers expect; releasing the last one destroys an inode with
  its entries, as deep as it goes.
Imports: Chaotix.Lib.ObjectGraph, Chaotix.Kernel.Vfs, Chaotix.Proofs.CanonicalPaths,
  Chaotix.Proofs.ExclusiveCreation
Trusted boundary: none
Main exports: graph, ownRefs, Held, Held.acquire, unrefNested_spec, inodeUnref_spec, createInode_spec, appendChild_spec
-/
import Chaotix.Lib.ObjectGraph
import Chaotix.Kernel.Vfs
import Chaotix.Proofs.CanonicalPaths
import Chaotix.Proofs.ExclusiveCreation

namespace Chaotix

namespace Vfs

open Pathname

/-! ### The accounting -/

/-- What the accounting knows of an inode. The entries of an inode that is being destroyed do not count any more. -/
def graphNode (dying : Finset ℕ) (i : ℕ) (inode : Inode) : GraphNode where
  refs := inode.refCount
  links := inode.numLinks
  out := if i ∈ dying then 0 else ↑(inode.children.map Dentry.inode)

theorem graphNode_insert_of_ne {i j : ℕ} (h : j ≠ i) (dying : Finset ℕ) :
    graphNode (insert i dying) j = graphNode dying j := by
  funext inode
  simp [graphNode, h]

/-- The inodes and their entries. -/
def graph (dying : Finset ℕ) (s : State) : ObjectGraph := fun i => (s.inodes i).map (graphNode dying i)

/-- The references of the file systems themselves: those of `root` and of `mount_points`. -/
def ownRefs (s : State) : Multiset ℕ :=
  {s.root} + (↑(s.mountPoints.map Prod.fst) + ↑(s.mountPoints.map Prod.snd) : Multiset ℕ)

/-- What is known of every inode: the root directory is a directory, and when `clean` holds, there is no root of
    procfs. -/
structure Kind (clean : Prop) (root i : ℕ) (inode : Inode) : Prop where
  noProcfs : clean → inode.fops ≠ .procfsRoot
  rootDir : i = root → sIsDir inode.mode = true

/-- The counts of the inodes are right for what holds them, and an inode that nothing refers to is destroyed. -/
structure Held (clean : Prop) (dying : Finset ℕ) (pending held : Multiset ℕ) (s : State) : Prop where
  accounted : Accounted (graph dying s) s.nextInode pending (held + ownRefs s)
  unused : ∀ i inode, s.inodes i = some inode → (inode.refCount = 0 ↔ i ∈ dying)
  kinds : ∀ i inode, s.inodes i = some inode → Kind clean s.root i inode

/-- The state with another inode at an address. -/
def State.setInode (s : State) (i : ℕ) (inode : Option Inode) : State :=
  { s with inodes := Function.update s.inodes i inode }

section Graph

variable {clean : Prop} {dying : Finset ℕ} {pending held : Multiset ℕ} {s : State} {i : ℕ} {inode : Inode}

@[simp] theorem State.setInode_self (s : State) (i : ℕ) (new : Option Inode) : (s.setInode i new).inodes i = new := by
  simp [State.setInode]

theorem State.setInode_of_ne {i j : ℕ} (h : j ≠ i) (s : State) (new : Option Inode) :
    (s.setInode i new).inodes j = s.inodes j := by
  simp [State.setInode, h]

@[simp] theorem State.setInode_nextInode (s : State) (i : ℕ) (new : Option Inode) :
    (s.setInode i new).nextInode = s.nextInode := rfl

@[simp] theorem ownRefs_setInode (s : State) (i : ℕ) (new : Option Inode) : ownRefs (s.setInode i new) = ownRefs s := rfl

@[simp] theorem run_setInode (s : State) (i : ℕ) (new : Inode) :
    setInode i new s = .ok ((), s.setInode i (some new)) := rfl

@[simp] theorem run_freeInode (s : State) (i : ℕ) : freeInode i s = .ok ((), s.setInode i none) := rfl

theorem run_getInode (h : s.inodes i = some inode) : getInode i s = .ok (inode, s) := by
  unfold getInode
  simp [h]

theorem graph_of_some (h : s.inodes i = some inode) : graph dying s i = some (graphNode dying i inode) := by
  simp [graph, h]

/-- What the accounting sees is an inode. -/
theorem exists_inode {node : GraphNode} (h : graph dying s i = some node) :
    ∃ inode, s.inodes i = some inode ∧ node = graphNode dying i inode := by
  obtain ⟨inode, hinode, rfl⟩ := Option.map_eq_some_iff.1 h
  exact ⟨inode, hinode, rfl⟩

theorem graph_setInode (s : State) (i : ℕ) (new : Option Inode) :
    graph dying (s.setInode i new) = Function.update (graph dying s) i (new.map (graphNode dying i)) := by
  funext j
  by_cases hj : j = i
  · subst hj
    simp [graph]
  · simp [graph, State.setInode_of_ne hj, hj]

/-- An inode that is held is there, and it is counted. -/
theorem Held.exists_inode (h : Held clean dying pending held s) (hi : i ∈ held) :
    ∃ inode, s.inodes i = some inode ∧ 0 < inode.refCount := by
  obtain ⟨node, hnode, hpos⟩ := h.accounted.exists_of_held (Multiset.mem_add.2 (.inl hi))
  obtain ⟨inode, hinode, rfl⟩ := Vfs.exists_inode hnode
  exact ⟨inode, hinode, hpos⟩

/-- What an entry of a directory names is there. -/
theorem Held.exists_child (h : Held clean ∅ pending held s) (hi : s.inodes i = some inode) {d : Dentry Chars ℕ}
    (hd : d ∈ inode.children) : ∃ child, s.inodes d.inode = some child ∧ 0 < child.numLinks := by
  have hout : d.inode ∈ (graphNode ∅ i inode).out := by
    simp only [graphNode, Finset.notMem_empty, if_false, Multiset.mem_coe]
    exact List.mem_map_of_mem hd
  obtain ⟨node, hnode, hpos⟩ := h.accounted.exists_of_edge (graph_of_some hi) hout
  obtain ⟨child, hchild, rfl⟩ := Vfs.exists_inode hnode
  exact ⟨child, hchild, hpos⟩

/-- The root directory is there. -/
theorem Held.exists_root (h : Held clean dying pending held s) : ∃ inode, s.inodes s.root = some inode := by
  have hmem : s.root ∈ held + ownRefs s := by simp [ownRefs]
  obtain ⟨node, hnode, -⟩ := h.accounted.exists_of_held hmem
  obtain ⟨inode, hinode, rfl⟩ := Vfs.exists_inode hnode
  exact ⟨inode, hinode⟩

/-- What is mounted is there. -/
theorem Held.exists_guest (h : Held clean dying pending held s) {mp : ℕ × ℕ} (hmp : mp ∈ s.mountPoints) :
    ∃ inode, s.inodes mp.2 = some inode := by
  have hmem : mp.2 ∈ held + ownRefs s := by
    simp only [ownRefs, Multiset.mem_add, Multiset.mem_coe]
    exact .inr (.inr (.inr (List.mem_map_of_mem hmp)))
  obtain ⟨node, hnode, -⟩ := h.accounted.exists_of_held hmem
  obtain ⟨inode, hinode, rfl⟩ := Vfs.exists_inode hnode
  exact ⟨inode, hinode⟩

/-- Where an inode is used or not, it is so after a change that keeps its count of references away from zero. -/
theorem Held.unused_setInode (h : Held clean dying pending held s) {new : Inode}
    (hnew : new.refCount = 0 ↔ i ∈ dying) (j : ℕ) (node : Inode) (hj : (s.setInode i (some new)).inodes j = some node) :
    node.refCount = 0 ↔ j ∈ dying := by
  by_cases hji : j = i
  · subst hji
    obtain rfl : new = node := by simpa using hj
    exact hnew
  · rw [State.setInode_of_ne hji] at hj
    exact h.unused j node hj

theorem Held.kinds_setInode (h : Held clean dying pending held s) {new : Inode} (hnew : Kind clean s.root i new) (j : ℕ)
    (node : Inode) (hj : (s.setInode i (some new)).inodes j = some node) : Kind clean s.root j node := by
  by_cases hji : j = i
  · subst hji
    obtain rfl : new = node := by simpa using hj
    exact hnew
  · rw [State.setInode_of_ne hji] at hj
    exact h.kinds j node hj

/-- `inode_ref`. -/
theorem Held.acquire (h : Held clean dying pending held s) (hi : s.inodes i = some inode) (hdying : i ∉ dying) :
    Held clean dying pending (i ::ₘ held) (s.setInode i (some { inode with refCount := inode.refCount + 1 })) where
  accounted := by
    rw [graph_setInode, ownRefs_setInode, Multiset.cons_add]
    exact h.accounted.acquire (graph_of_some hi)
  unused := h.unused_setInode (by simp [hdying])
  kinds := h.kinds_setInode ⟨(h.kinds i inode hi).noProcfs, (h.kinds i inode hi).rootDir⟩

end Graph

/-! ### Releasing -/

/-- What releasing does to the inodes: those that are left have the same entries, and are not counted more often. -/
structure Shrinks (s t : State) : Prop where
  nextInode : t.nextInode = s.nextInode
  root : t.root = s.root
  mountPoints : t.mountPoints = s.mountPoints
  pids : t.pids = s.pids
  inodes : ∀ i node, t.inodes i = some node → ∃ inode, s.inodes i = some inode ∧ node.fops = inode.fops ∧
    node.mode = inode.mode ∧ node.children = inode.children ∧ node.refCount ≤ inode.refCount

namespace Shrinks

theorem refl (s : State) : Shrinks s s :=
  ⟨rfl, rfl, rfl, rfl, fun _ node h => ⟨node, h, rfl, rfl, rfl, le_rfl⟩⟩

theorem trans {s t u : State} (h : Shrinks s t) (h' : Shrinks t u) : Shrinks s u where
  nextInode := h'.nextInode.trans h.nextInode
  root := h'.root.trans h.root
  mountPoints := h'.mountPoints.trans h.mountPoints
  pids := h'.pids.trans h.pids
  inodes i node hnode := by
    obtain ⟨inode, hinode, hfops, hmode, hchildren, hrefs⟩ := h'.inodes i node hnode
    obtain ⟨inode', hinode', hfops', hmode', hchildren', hrefs'⟩ := h.inodes i inode hinode
    exact ⟨inode', hinode', hfops.trans hfops', hmode.trans hmode', hchildren.trans hchildren', hrefs.trans hrefs'⟩

theorem setInode {s : State} {i : ℕ} {inode new : Inode} (hi : s.inodes i = some inode) (hfops : new.fops = inode.fops)
    (hmode : new.mode = inode.mode) (hchildren : new.children = inode.children) (hrefs : new.refCount ≤ inode.refCount) :
    Shrinks s (s.setInode i (some new)) where
  nextInode := rfl
  root := rfl
  mountPoints := rfl
  pids := rfl
  inodes j node hnode := by
    by_cases hji : j = i
    · subst hji
      obtain rfl : new = node := by simpa using hnode
      exact ⟨inode, hi, hfops, hmode, hchildren, hrefs⟩
    · rw [State.setInode_of_ne hji] at hnode
      exact ⟨node, hnode, rfl, rfl, rfl, le_rfl⟩

theorem freeInode (s : State) (i : ℕ) : Shrinks s (s.setInode i none) where
  nextInode := rfl
  root := rfl
  mountPoints := rfl
  pids := rfl
  inodes j node hnode := by
    by_cases hji : j = i
    · subst hji
      simp at hnode
    · rw [State.setInode_of_ne hji] at hnode
      exact ⟨node, hnode, rfl, rfl, rfl, le_rfl⟩

theorem ownRefs_eq {s t : State} (h : Shrinks s t) : ownRefs t = ownRefs s := by
  rw [ownRefs, ownRefs, h.root, h.mountPoints]

end Shrinks

/-- The inodes that are in use. -/
def liveInodes (s : State) : Finset ℕ :=
  (Finset.range s.nextInode).filter fun i => ∃ inode ∈ s.inodes i, 0 < inode.refCount

theorem mem_liveInodes {s : State} {i : ℕ} :
    i ∈ liveInodes s ↔ i < s.nextInode ∧ ∃ inode, s.inodes i = some inode ∧ 0 < inode.refCount := by
  simp [liveInodes]

theorem Shrinks.liveInodes_subset {s t : State} (h : Shrinks s t) : liveInodes t ⊆ liveInodes s := by
  intro i hi
  rw [mem_liveInodes] at hi ⊢
  obtain ⟨hlt, node, hnode, hpos⟩ := hi
  obtain ⟨inode, hinode, -, -, -, hrefs⟩ := h.inodes i node hnode
  exact ⟨h.nextInode ▸ hlt, inode, hinode, hpos.trans_le hrefs⟩

theorem card_liveInodes_le (s : State) : (liveInodes s).card ≤ s.nextInode := by
  have hcard := Finset.card_filter_le (Finset.range s.nextInode) fun i => ∃ inode ∈ s.inodes i, 0 < inode.refCount
  rwa [Finset.card_range] at hcard

section Release

variable {clean : Prop} {dying : Finset ℕ} {pending held : Multiset ℕ} {s : State} {i : ℕ} {inode : Inode}

/-- What is held is not being destroyed. -/
theorem Held.not_dying (h : Held clean dying pending held s) (hi : s.inodes i = some inode) (hpos : 0 < inode.refCount) :
    i ∉ dying := by
  intro hdying
  exact absurd ((h.unused i inode hi).2 hdying) hpos.ne'

theorem Held.lt_nextInode (h : Held clean dying pending held s) (hi : s.inodes i = some inode) : i < s.nextInode :=
  h.accounted.bounded i _ (graph_of_some hi)

/-- A reference is given back, and it was not the last one. -/
theorem Held.release (h : Held clean dying pending (i ::ₘ held) s) (hi : s.inodes i = some inode)
    (hpos : 0 < inode.refCount) (hnext : ¬(inode.refCount - 1 = 0 ∧ inode.numLinks = 0)) :
    Held clean dying pending held (s.setInode i (some { inode with refCount := inode.refCount - 1 })) := by
  have haccounted := h.accounted
  rw [Multiset.cons_add] at haccounted
  have hrelease := haccounted.release (graph_of_some hi)
  have hrefs := haccounted.refs_eq (graph_of_some hi)
  rw [Multiset.count_cons_self] at hrefs
  change inode.refCount = inode.numLinks + _ at hrefs
  constructor
  case accounted =>
    rw [graph_setInode, ownRefs_setInode]
    exact hrelease
  case unused =>
    refine h.unused_setInode ⟨fun hzero => ?_, fun hdying => absurd hdying (h.not_dying hi hpos)⟩
    change inode.refCount - 1 = 0 at hzero
    omega
  case kinds => exact h.kinds_setInode ⟨(h.kinds i inode hi).noProcfs, (h.kinds i inode hi).rootDir⟩

/-- The last reference is given back: the entries of the inode are to be cleared. -/
theorem Held.releaseLast (h : Held clean dying pending (i ::ₘ held) s) (hi : s.inodes i = some inode)
    (hpos : 0 < inode.refCount) (hlast : inode.refCount - 1 = 0) :
    Held clean (insert i dying) (↑(inode.children.map Dentry.inode) + pending) held
      (s.setInode i (some { inode with refCount := inode.refCount - 1 })) := by
  have haccounted := h.accounted
  rw [Multiset.cons_add] at haccounted
  have hnot := h.not_dying hi hpos
  have hrelease := haccounted.release (graph_of_some hi)
  have hcut := hrelease.cut (Function.update_self i _ _) 0 ↑(inode.children.map Dentry.inode)
    (by simp [graphNode, hnot])
  have hgraph : graph (insert i dying) (s.setInode i (some { inode with refCount := inode.refCount - 1 })) =
      Function.update
        (Function.update (graph dying s) i
          (some { graphNode dying i inode with refs := (graphNode dying i inode).refs - 1 }))
        i (some { graphNode dying i inode with refs := (graphNode dying i inode).refs - 1, out := 0 }) := by
    rw [Function.update_idem]
    funext j
    by_cases hji : j = i
    · subst hji
      simp [graph, graphNode]
    · simp [graph, State.setInode_of_ne hji, hji, graphNode_insert_of_ne hji]
  constructor
  case accounted =>
    rw [hgraph, ownRefs_setInode]
    exact hcut
  case unused =>
    intro j node hj
    by_cases hji : j = i
    · subst hji
      obtain rfl : { inode with refCount := inode.refCount - 1 } = node := by simpa using hj
      simp [hlast]
    · rw [State.setInode_of_ne hji] at hj
      simp [h.unused j node hj, hji]
  case kinds => exact h.kinds_setInode ⟨(h.kinds i inode hi).noProcfs, (h.kinds i inode hi).rootDir⟩

/-- The link of an entry that is cleared. -/
theorem Held.unlink (h : Held clean dying (i ::ₘ pending) held s) (hi : s.inodes i = some inode) :
    Held clean dying pending (i ::ₘ held) (s.setInode i (some { inode with numLinks := inode.numLinks - 1 })) where
  accounted := by
    rw [graph_setInode, ownRefs_setInode, Multiset.cons_add]
    exact h.accounted.unlink (graph_of_some hi)
  unused := h.unused_setInode (h.unused i inode hi)
  kinds := h.kinds_setInode ⟨(h.kinds i inode hi).noProcfs, (h.kinds i inode hi).rootDir⟩

/-- An inode whose entries have been cleared is freed. -/
theorem Held.free (h : Held clean (insert i dying) pending held s) (hnot : i ∉ dying) :
    Held clean dying pending held (s.setInode i none) := by
  have hgraph : graph dying (s.setInode i none) = Function.update (graph (insert i dying) s) i none := by
    funext j
    by_cases hji : j = i
    · subst hji
      simp [graph]
    · simp [graph, State.setInode_of_ne hji, hji, graphNode_insert_of_ne hji]
  have haccounted : Accounted (Function.update (graph (insert i dying) s) i none) s.nextInode pending
      (held + ownRefs s) := by
    cases hi : s.inodes i with
    | none =>
        have hnone : graph (insert i dying) s i = none := by simp [graph, hi]
        rw [← hnone, Function.update_eq_self]
        exact h.accounted
    | some inode =>
        refine h.accounted.remove (graph_of_some hi) ?_ (by simp [graphNode])
        exact (h.unused i inode hi).2 (Finset.mem_insert_self i dying)
  constructor
  case accounted =>
    rw [hgraph, ownRefs_setInode]
    exact haccounted
  case unused =>
    intro j node hj
    have hji : j ≠ i := by
      rintro rfl
      simp at hj
    rw [State.setInode_of_ne hji] at hj
    rw [h.unused j node hj, Finset.mem_insert, or_iff_right hji]
  case kinds =>
    intro j node hj
    have hji : j ≠ i := by
      rintro rfl
      simp at hj
    rw [State.setInode_of_ne hji] at hj
    exact h.kinds j node hj

/-- The loop of `dentry_clear`, for an `inode_unref` that keeps the accounting. -/
theorem clearDentries_spec {n : ℕ}
    (ih : ∀ {i : ℕ} {dying : Finset ℕ} {pending held : Multiset ℕ} {s : State},
      Held clean dying pending (i ::ₘ held) s → (liveInodes s).card ≤ n →
      Yields (unrefNested n i) s fun _ t => Held clean dying pending held t ∧ Shrinks s t)
    (dentries : List (Dentry Chars ℕ))
    (h : Held clean dying (↑(dentries.map Dentry.inode) + pending) held s) (hn : (liveInodes s).card ≤ n) :
    Yields (dentries.forM (clearDentry (unrefNested n))) s fun _ t =>
      Held clean dying pending held t ∧ Shrinks s t := by
  induction dentries generalizing s with
  | nil => exact ⟨by simpa using h, Shrinks.refl s⟩
  | cons dentry rest ihrest =>
      rw [List.map_cons, ← Multiset.cons_coe, Multiset.cons_add] at h
      obtain ⟨node, hnode, hpos⟩ := h.accounted.exists_of_pending (Multiset.mem_cons_self _ _)
      obtain ⟨child, hchild, rfl⟩ := exists_inode hnode
      have hunlink := h.unlink hchild
      have hshrinks : Shrinks s (s.setInode dentry.inode (some { child with numLinks := child.numLinks - 1 })) :=
        Shrinks.setInode hchild rfl rfl rfl le_rfl
      have hn' := (Finset.card_le_card hshrinks.liveInodes_subset).trans hn
      change Yields (clearDentry (unrefNested n) dentry >>= fun _ => rest.forM _) s _
      rw [yields_bind, clearDentry, yields_bind_of_return (run_getInode hchild), yields_bind, assert, yields_require]
      refine ⟨hpos, ?_⟩
      rw [yields_bind_of_return (run_setInode s _ _)]
      apply (ih hunlink hn').mono
      rintro _ t ⟨ht, hst⟩
      apply (ihrest ht ((Finset.card_le_card hst.liveInodes_subset).trans hn')).mono
      rintro _ u ⟨hu, htu⟩
      exact ⟨hu, hshrinks.trans (hst.trans htu)⟩

/-- `inode_unref` takes one reference. By induction on the inodes that are in use: the inodes that are cleared below one
    that is destroyed are others. -/
theorem unrefNested_spec (n : ℕ) {i : ℕ} {dying : Finset ℕ} {pending held : Multiset ℕ} {s : State}
    (h : Held clean dying pending (i ::ₘ held) s) (hn : (liveInodes s).card ≤ n) :
    Yields (unrefNested n i) s fun _ t => Held clean dying pending held t ∧ Shrinks s t := by
  induction n generalizing i dying pending held s with
  | zero =>
      obtain ⟨inode, hinode, hpos⟩ := h.exists_inode (Multiset.mem_cons_self i held)
      have hlive : i ∈ liveInodes s := mem_liveInodes.2 ⟨h.lt_nextInode hinode, inode, hinode, hpos⟩
      exact absurd (Finset.card_pos.2 ⟨i, hlive⟩) (by omega)
  | succ n ih =>
      obtain ⟨inode, hinode, hpos⟩ := h.exists_inode (Multiset.mem_cons_self i held)
      have hshrinks : Shrinks s (s.setInode i (some { inode with refCount := inode.refCount - 1 })) :=
        Shrinks.setInode hinode rfl rfl rfl (Nat.sub_le _ _)
      rw [unrefNested, yields_bind_of_return (run_getInode hinode), yields_bind, assert, yields_require]
      refine ⟨hpos, ?_⟩
      rw [yields_bind_of_return (run_setInode s _ _)]
      split
      case isFalse hnext => exact ⟨h.release hinode hpos hnext, hshrinks⟩
      case isTrue hlast =>
          have hlive : i ∈ liveInodes s := mem_liveInodes.2 ⟨h.lt_nextInode hinode, inode, hinode, hpos⟩
          have hnotlive : i ∉ liveInodes (s.setInode i (some { inode with refCount := inode.refCount - 1 })) := by
            simp [mem_liveInodes, hlast.1]
          have hcard := Finset.card_lt_card
            ((Finset.ssubset_iff_of_subset hshrinks.liveInodes_subset).2 ⟨i, hlive, hnotlive⟩)
          rw [yields_bind]
          apply (clearDentries_spec ih inode.children (h.releaseLast hinode hpos hlast.1) (by omega)).mono
          rintro _ t ⟨ht, hst⟩
          exact ⟨ht.free (h.not_dying hinode hpos), hshrinks.trans (hst.trans (Shrinks.freeInode t i))⟩

/-- `inode_unref`. -/
theorem inodeUnref_spec (h : Held clean dying pending (i ::ₘ held) s) :
    Yields (inodeUnref i) s fun _ t => Held clean dying pending held t ∧ Shrinks s t := by
  rw [inodeUnref, yields_bind, yields_get]
  exact unrefNested_spec _ h ((card_liveInodes_le s).trans (Nat.le_succ _))

end Release

/-! ### Holding, creating and linking -/

/-- The state after some calls of `kmalloc`. -/
def State.setAllocations (s : State) (allocations : Allocations) : State := { s with allocations := allocations }

/-- A function that only allocates, and returns whatever happens. -/
theorem yields_onAllocations {α : Type} {m : Kernel Allocations α} {post : α → Prop}
    (h : ∀ u, Yields m u fun r _ => post r) (s : State) :
    Yields (onAllocations m) s fun r t => post r ∧ ∃ u, t = s.setAllocations u := by
  rw [onAllocations, yields_focus]
  exact (h s.allocations).mono fun r u hr => ⟨hr, u, rfl⟩

theorem yields_kmalloc (s : State) :
    Yields (onAllocations kmallocAnswer) s fun _ t => ∃ u, t = s.setAllocations u :=
  (yields_onAllocations (fun u => (kmallocAnswer_spec u).mono fun _ _ _ => trivial) s).mono fun _ _ h => h.2

theorem yields_kstrdup (src : Chars) (s : State) :
    Yields (onAllocations (kstrdup src)) s fun r t => (r = none ∨ r = some src) ∧ ∃ u, t = s.setAllocations u := by
  refine yields_onAllocations (fun u => ?_) s
  exact (kstrdup_spec src u).mono fun r _ h => h.2.symm.imp_left And.left

section Hold

variable {clean : Prop} {dying : Finset ℕ} {pending held : Multiset ℕ} {s : State} {i : ℕ} {inode : Inode}

theorem Shrinks.setAllocations (s : State) (u : Allocations) : Shrinks s (s.setAllocations u) :=
  ⟨rfl, rfl, rfl, rfl, fun _ node h => ⟨node, h, rfl, rfl, rfl, le_rfl⟩⟩

theorem Held.setAllocations (h : Held clean dying pending held s) (u : Allocations) :
    Held clean dying pending held (s.setAllocations u) := ⟨h.accounted, h.unused, h.kinds⟩

/-- `inode_ref` of an inode that is there. -/
theorem inodeRef_spec (h : Held clean ∅ pending held s) (hi : s.inodes i = some inode) :
    inodeRef i s = .ok ((), s.setInode i (some { inode with refCount := inode.refCount + 1 })) ∧
      Held clean ∅ pending (i ::ₘ held) (s.setInode i (some { inode with refCount := inode.refCount + 1 })) := by
  refine ⟨?_, h.acquire hi (Finset.notMem_empty i)⟩
  rw [inodeRef, Program.run_bind, run_getInode hi]
  rfl

/-- A new inode as `kmalloc` and the stores behind it leave it. -/
structure NewInode (inode : Inode) : Prop where
  refCount : inode.refCount = 1
  numLinks : inode.numLinks = 0
  children : inode.children = []
  fops : inode.fops ≠ .procfsRoot

/-- The state after the allocation of an inode. -/
def State.addInode (s : State) (u : Allocations) (inode : Inode) : State :=
  { s with
    allocations := u
    nextInode := s.nextInode + 1
    inodes := Function.update s.inodes s.nextInode (some inode) }

theorem Held.addInode (h : Held clean ∅ pending held s) (u : Allocations) (hnew : NewInode inode) :
    Held clean ∅ pending (s.nextInode ::ₘ held) (s.addInode u inode) where
  accounted := by
    have hcreate := h.accounted.create
    have hgraph : graph ∅ (s.addInode u inode) =
        Function.update (graph ∅ s) s.nextInode (some { refs := 1, links := 0, out := 0 }) := by
      have hnode : graphNode ∅ s.nextInode inode = { refs := 1, links := 0, out := 0 } := by
        simp [graphNode, hnew.refCount, hnew.numLinks, hnew.children]
      rw [← hnode]
      exact graph_setInode s s.nextInode (some inode)
    rw [hgraph, Multiset.cons_add]
    exact hcreate
  unused j node hj := by
    have hset : (s.setInode s.nextInode (some inode)).inodes j = some node := hj
    exact h.unused_setInode (by simp [hnew.refCount]) j node hset
  kinds j node hj := by
    have hset : (s.setInode s.nextInode (some inode)).inodes j = some node := hj
    obtain ⟨root, hroot⟩ := h.exists_root
    have hlt : s.root < s.nextInode := h.accounted.bounded s.root _ (graph_of_some hroot)
    exact h.kinds_setInode ⟨fun _ => hnew.fops, fun heq => by omega⟩ j node hset

theorem createInode_spec (inode : Inode) (s : State) :
    Yields (createInode inode) s fun r t =>
      (r = none ∧ ∃ u, t = s.setAllocations u) ∨ r = some s.nextInode ∧ ∃ u, t = s.addInode u inode := by
  rw [createInode, yields_bind]
  apply (yields_kmalloc s).mono
  rintro r t ⟨u, rfl⟩
  cases r with
  | false => exact .inl ⟨rfl, u, rfl⟩
  | true => exact .inr ⟨rfl, u, rfl⟩

/-- The state after an entry for `child` has been added to `dir`. -/
def State.addEntry (s : State) (u : Allocations) (dir : ℕ) (dirInode : Inode) (name : Chars) (child : ℕ)
    (inode : Inode) : State :=
  ((s.setAllocations u).setInode dir
    (some { dirInode with children := dirInode.children ++ [{ name := name, inode := child }] })).setInode child
      (some { inode with numLinks := inode.numLinks + 1 })

/-- `dentry_append` fails and changes nothing, or it adds an entry. -/
theorem appendChild_spec {dir child : ℕ} {dirInode childInode : Inode} (name : Chars)
    (hdir : s.inodes dir = some dirInode) (hchild : s.inodes child = some childInode) :
    Yields (appendChild dir name child) s fun r t =>
      (∃ e u, r = .error e ∧ t = s.setAllocations u ∧
        (e = .EEXIST ∧ name ∈ namesOf dirInode.children ∨ e = .ENOMEM)) ∨
      r = .ok () ∧ name ∉ namesOf dirInode.children ∧ ∃ u inode,
        ((s.setAllocations u).setInode dir
          (some { dirInode with children := dirInode.children ++ [{ name := name, inode := child }] })).inodes child =
            some inode ∧
        t = s.addEntry u dir dirInode name child inode := by
  rw [appendChild, yields_bind_of_return (run_getInode hdir)]
  cases happend : dentryAppend dirInode.children name child true with
  | error e =>
      obtain ⟨rfl, hmem⟩ | ⟨rfl, -⟩ := dentryAppend_error happend
      · exact .inl ⟨_, s.allocations, rfl, rfl, .inl ⟨rfl, hmem⟩⟩
      · exact .inl ⟨_, s.allocations, rfl, rfl, .inr rfl⟩
  | ok children =>
      obtain ⟨rfl, hnot⟩ := dentryAppend_ok happend
      dsimp only
      rw [yields_bind]
      apply (yields_kmalloc s).mono
      rintro r t ⟨u, rfl⟩
      cases r with
      | false => exact .inl ⟨_, u, rfl, rfl, .inr rfl⟩
      | true =>
          rw [Bool.not_true, if_neg Bool.false_ne_true, yields_bind]
          apply (yields_kstrdup name _).mono
          rintro r t ⟨hr, u', rfl⟩
          cases r with
          | none => exact .inl ⟨_, u', rfl, rfl, .inr rfl⟩
          | some _ =>
              dsimp only
              rw [yields_bind_of_return (run_setInode _ dir _)]
              obtain ⟨inode, hinode⟩ : ∃ inode, (((s.setAllocations u).setAllocations u').setInode dir
                  (some { dirInode with children := dirInode.children ++ [{ name := name, inode := child }] })).inodes
                    child = some inode := by
                by_cases heq : child = dir
                · subst heq
                  exact ⟨_, State.setInode_self _ _ _⟩
                · rw [State.setInode_of_ne heq]
                  exact ⟨childInode, hchild⟩
              rw [yields_bind_of_return (run_getInode hinode), yields_bind_of_return (run_setInode _ child _)]
              exact .inr ⟨rfl, hnot, u', inode, hinode, rfl⟩

theorem Held.addEntry {dir child : ℕ} {dirInode inode : Inode} (h : Held clean ∅ pending (child ::ₘ held) s)
    (u : Allocations) (name : Chars) (hdir : s.inodes dir = some dirInode)
    (hinode : ((s.setAllocations u).setInode dir
      (some { dirInode with children := dirInode.children ++ [{ name := name, inode := child }] })).inodes child =
        some inode) :
    Held clean ∅ pending held (s.addEntry u dir dirInode name child inode) := by
  obtain ⟨new, hnew⟩ : ∃ new : Inode,
      new = { dirInode with children := dirInode.children ++ [{ name := name, inode := child }] } := ⟨_, rfl⟩
  rw [← hnew] at hinode
  have hset : ∀ j node, ((s.setAllocations u).setInode dir (some new)).inodes j = some node →
      (node.refCount = 0 ↔ j ∈ (∅ : Finset ℕ)) :=
    (h.setAllocations u).unused_setInode (hnew ▸ h.unused dir dirInode hdir)
  have hkinds : ∀ j node, ((s.setAllocations u).setInode dir (some new)).inodes j = some node →
      Kind clean s.root j node := (h.setAllocations u).kinds_setInode (by
    subst hnew
    exact ⟨(h.kinds dir dirInode hdir).noProcfs, (h.kinds dir dirInode hdir).rootDir⟩)
  rw [State.addEntry, ← hnew]
  constructor
  case accounted =>
    have haccounted := h.accounted
    rw [Multiset.cons_add] at haccounted
    have hout : (graphNode ∅ dir new).out = (graphNode ∅ dir dirInode).out + {child} := by
      subst hnew
      simp [graphNode]
      rfl
    have hdirNode : graphNode ∅ dir new = { graphNode ∅ dir dirInode with out := (graphNode ∅ dir new).out } := by
      subst hnew
      rfl
    have hnode : graph ∅ ((s.setAllocations u).setInode dir (some new)) child = some (graphNode ∅ child inode) :=
      graph_of_some hinode
    rw [graph_setInode, Option.map_some, hdirNode] at hnode
    have hattach := haccounted.attach (graph_of_some hdir) hout hnode
    rw [← hdirNode] at hattach
    rw [graph_setInode, graph_setInode]
    exact hattach
  case unused =>
    intro j node hj
    by_cases hji : j = child
    · subst hji
      rw [State.setInode_self] at hj
      obtain rfl := Option.some.inj hj
      exact hset j inode hinode
    · rw [State.setInode_of_ne hji] at hj
      exact hset j node hj
  case kinds =>
    intro j node hj
    by_cases hji : j = child
    · subst hji
      rw [State.setInode_self] at hj
      obtain rfl := Option.some.inj hj
      have hkind := hkinds j inode hinode
      exact ⟨hkind.noProcfs, hkind.rootDir⟩
    · rw [State.setInode_of_ne hji] at hj
      exact hkinds j node hj

end Hold

end Vfs

end Chaotix
