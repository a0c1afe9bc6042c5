/-
Module: Chaotix.Proofs.ForkResidue
Layer: Proofs
Purpose: What a failing `fork` leaves behind. A fork that fails after its first allocation leaves the block of the
  process structure allocated, and whatever else it has acquired by then; it leaves nothing behind exactly
  when there is no room for that first block.
Imports: Mathlib.Tactic, Chaotix.Kernel.Fork, Chaotix.Proofs.HeapSpec
Trusted boundary: none
Main exports: MoreBlocks, NoResidue, sysFork_cases, failing_fork_leaves_nothing_iff
-/
import Mathlib.Tactic
import Chaotix.Kernel.Fork
import Chaotix.Proofs.HeapSpec

namespace Chaotix

/-! ### Blocks that are only added -/

namespace HeapState

/-- Every block of the heap is still there. -/
def MoreBlocks (s s' : HeapState) : Prop := ∀ a, s.machine.headers a ≠ none → s'.machine.headers a ≠ none

theorem MoreBlocks.of_headers {s s' : HeapState} (h : s'.machine.headers = s.machine.headers) :
    MoreBlocks s s' := by
  intro a ha
  rw [h]
  exact ha

theorem MoreBlocks.trans {s s' s'' : HeapState} (h : MoreBlocks s s') (h' : MoreBlocks s' s'') :
    MoreBlocks s s'' := fun a ha => h' a (h a ha)

/-- The headers of the blocks. -/
abbrev headers (s : HeapState) : Nat → Option Nat := s.machine.headers

theorem onMachine_headers {α : Type} {f : Kernel Machine α} (hf : Keeps Machine.headers f) :
    Keeps HeapState.headers (onMachine f) := by
  apply hf.focusPart
  exact fun _ _ => rfl

theorem setRanges_headers (ranges : List Segment) : Keeps HeapState.headers (setRanges ranges) :=
  Keeps.modify fun _ => rfl

theorem rangeAllocatorAlloc_headers (size : Nat) : Keeps HeapState.headers (rangeAllocatorAlloc size) := by
  refine Keeps.get.bind fun s => (Keeps.require _ _).bind fun _ => ?_
  cases findFit (roundUp size) s.ranges with
  | none => exact Keeps.pure _
  | some fit =>
      obtain ⟨before, it, behind⟩ := fit
      dsimp only
      split
      · exact (setRanges_headers _).bind fun _ =>
          (onMachine_headers (Machine.pagingUnmap_headers _ _)).bind fun _ => Keeps.pure _
      · refine (onMachine_headers (Machine.pagingCopyMapping_headers _ _ _ _)).bind fun r => ?_
        cases r with
        | error e => exact Keeps.pure _
        | ok u =>
            exact (onMachine_headers (Machine.pagingUnmap_headers _ _)).bind fun _ =>
              (setRanges_headers _).bind fun _ => Keeps.pure _

theorem kalignedAlloc_blocks (alignment size : Nat) (s : HeapState) :
    Ensures (kalignedAlloc alignment size) s fun _ s' => MoreBlocks s s' := by
  rw [kalignedAlloc]
  split_ifs
  · exact fun _ h => h
  · rw [ensures_bind]
    apply ensures_require.2
    intro _
    rw [ensures_bind]
    apply (rangeAllocatorAlloc_headers _ s).mono
    intro r s1 h1
    cases r with
    | error e => exact .of_headers h1
    | ok addr =>
        dsimp only
        rw [ensures_bind]
        apply (onMachine_headers (Machine.pagingMapToFreePages_headers _ _ _) s1).mono
        intro r s2 h2
        cases r with
        | error e => exact .of_headers (h2.trans h1)
        | ok u =>
            have hmore : MoreBlocks s s2 := .of_headers (h2.trans h1)
            intro a ha
            change Function.update s2.machine.headers addr _ a ≠ none
            by_cases heq : a = addr
            · rw [heq, Function.update_self]
              exact Option.some_ne_none _
            · rw [Function.update_of_ne heq]
              exact hmore a ha

theorem kmalloc_blocks (size : Nat) (s : HeapState) : Ensures (kmalloc size) s fun _ s' => MoreBlocks s s' :=
  kalignedAlloc_blocks maxAlign size s

theorem pagingCreatePageDirectory_blocks (s : HeapState) :
    Ensures pagingCreatePageDirectory s fun _ s' => MoreBlocks s s' := by
  rw [pagingCreatePageDirectory, ensures_bind]
  apply (kalignedAlloc_blocks _ _ s).mono
  intro r s1 h1
  cases r with
  | none => exact h1
  | some dst =>
      have hfill : Keeps HeapState.headers (do
          let m := (← get).machine
          let paddr ← onMachine (Machine.pagingVirtualToPhysicalAddr dst)
          onMachine (modify fun m' => m'.setDir dst
            (Function.update (Machine.kernelSlots m.currentDir) 1023 (some (paddr / PAGE_SIZE))))
          return .ok dst : Kernel HeapState (Except Errno Nat)) := by
        refine Keeps.get.bind fun s =>
          (onMachine_headers (Machine.pagingVirtualToPhysicalAddr_headers dst)).bind fun paddr =>
            (onMachine_headers ?_).bind fun _ => Keeps.pure _
        exact fun _ => rfl
      exact (hfill s1).mono fun _ s2 h2 => h1.trans (.of_headers h2)

theorem pagingCloneCurrentPageDirectory_blocks (s : HeapState) :
    Ensures pagingCloneCurrentPageDirectory s fun _ s' => MoreBlocks s s' := by
  rw [pagingCloneCurrentPageDirectory, ensures_bind]
  apply (pagingCreatePageDirectory_blocks s).mono
  intro r s1 h1
  cases r with
  | error e => exact h1
  | ok dst =>
      dsimp only
      rw [ensures_bind]
      apply (onMachine_headers (Keeps.tryRange 0 KERNEL_PDE_IDX (Machine.cloneSlot_headers dst)) s1).mono
      intro r s2 h2
      cases r with
      | error e => exact h1.trans (.of_headers h2)
      | ok u => exact h1.trans (.of_headers h2)

end HeapState

/-! ### A failing fork -/

namespace ForkState

variable {D N S : Type} [DecidableEq D] [DecidableEq N] [DecidableEq S]

/-- The counts of the physical pages, the blocks of the kernel heap, and the counts of the inodes and of the
    descriptions are the same. -/
structure NoResidue (s s' : ForkState D N S) : Prop where
  pages : ∀ frame, s'.heap.machine.pages.refCounts frame = s.heap.machine.pages.refCounts frame
  blocks : ∀ addr, s'.heap.machine.headers addr = s.heap.machine.headers addr
  inodes : ∀ n, (s'.files.node n).refCount = (s.files.node n).refCount
  sockets : ∀ k, (s'.files.socket k).refCount = (s.files.socket k).refCount
  descriptions : ∀ d, (s'.files.desc d).refCount = (s.files.desc d).refCount

section Fork

variable {s : ForkState D N S}

omit [DecidableEq D] [DecidableEq N] [DecidableEq S] in
/-- A function of the heap that frees no block. -/
theorem onHeap_blocks {α : Type} {f : Kernel HeapState α}
    (hf : ∀ heap, Ensures f heap fun _ heap' => HeapState.MoreBlocks heap heap') (s : ForkState D N S) :
    Ensures (onHeap f) s fun _ s' => HeapState.MoreBlocks s.heap s'.heap := by
  rw [onHeap, ensures_focus]
  exact hf s.heap

omit [DecidableEq D] [DecidableEq N] [DecidableEq S] in
/-- A function of the files leaves the heap alone. -/
theorem onFiles_blocks {α : Type} (f : Kernel (Files Nat D N S) α) (s : ForkState D N S) :
    Ensures (onFiles f) s fun _ s' => HeapState.MoreBlocks s.heap s'.heap := by
  rw [onFiles, ensures_focus]
  exact ensures_iff.2 fun _ _ _ _ h => h

theorem forkTables_blocks (current child pd pid cwdPath : Nat) (s : ForkState D N S) :
    Ensures (forkTables current child pd pid cwdPath) s fun _ s' => HeapState.MoreBlocks s.heap s'.heap := by
  rw [forkTables, ensures_bind, ensures_get]
  dsimp only
  rw [ensures_bind]
  apply (onFiles_blocks _ s).mono
  intro _ s1 h1
  rw [ensures_bind]
  apply (onHeap_blocks (HeapState.kmalloc_blocks _) s1).mono
  intro table s2 h2
  rw [ensures_bind]
  apply (onFiles_blocks _ s2).mono
  intro r s3 h3
  have h3 := h1.trans (h2.trans h3)
  cases r with
  | error e => exact h3
  | ok u =>
      dsimp only
      rw [ensures_bind]
      apply (onHeap_blocks (HeapState.kmalloc_blocks _) s3).mono
      intro stack s4 h4
      cases stack with
      | none => exact h3.trans h4
      | some stack => exact h3.trans h4

/-- A fork either has no room for the process structure, and then changes neither pages nor blocks nor files, or it leaves
    a block at the start of a range that was free. -/
theorem sysFork_cases (ok : s.heap.HeapOk) (current : Nat) :
    Ensures (sysFork current) s fun _ s' =>
      (s.heap.NoRoom ∧ s'.heap.machine.pages = s.heap.machine.pages ∧
        s'.heap.machine.headers = s.heap.machine.headers ∧ s'.files = s.files) ∨
      ¬s.heap.NoRoom ∧ ∃ range ∈ s.heap.ranges, s'.heap.machine.headers range.1 ≠ none := by
  rw [sysFork, ensures_bind, onHeap, ensures_focus]
  apply (ok.kalignedAlloc_page (by decide) (by decide)).mono
  intro r heap ⟨hnone, hsome⟩
  cases r with
  | none =>
      obtain ⟨hroom, hpages, hheaders⟩ := hnone rfl
      exact Or.inl ⟨hroom, hpages, hheaders, rfl⟩
  | some child =>
      obtain ⟨hroom, range, hrange, hblock⟩ := hsome child rfl
      have hleft : ∀ s' : ForkState D N S, HeapState.MoreBlocks heap s'.heap →
          (s.heap.NoRoom ∧ s'.heap.machine.pages = s.heap.machine.pages ∧
            s'.heap.machine.headers = s.heap.machine.headers ∧ s'.files = s.files) ∨
          ¬s.heap.NoRoom ∧ ∃ range ∈ s.heap.ranges, s'.heap.machine.headers range.1 ≠ none :=
        fun s' hmore => Or.inr ⟨hroom, range, hrange, hmore range.1 hblock⟩
      dsimp only
      rw [ensures_bind]
      apply (onHeap_blocks HeapState.pagingCloneCurrentPageDirectory_blocks _).mono
      intro r s2 h2
      cases r with
      | error e => exact hleft s2 h2
      | ok pd =>
          dsimp only
          rw [ensures_bind, processGenerateNextPid, ensures_bind, ensures_get]
          dsimp only
          rw [ensures_bind, ensures_modify, ensures_pure, ensures_bind, ensures_get, ensures_bind, kstrdup]
          apply (onHeap_blocks (HeapState.kmalloc_blocks _) _).mono
          intro cwdPath s3 h3
          cases cwdPath with
          | none => exact hleft s3 (h2.trans h3)
          | some cwdPath =>
              apply (forkTables_blocks _ _ _ _ _ s3).mono
              intro r s4 h4
              exact hleft s4 (h2.trans (h3.trans h4))

/-- A failing fork leaves nothing behind exactly when it fails for lack of room for the process structure. -/
theorem failing_fork_leaves_nothing_iff {s' : ForkState D N S} {current : Nat} {e : Errno} (ok : s.heap.HeapOk)
    (run : sysFork current s = .ok (.error e, s')) : NoResidue s s' ↔ s.heap.NoRoom := by
  rcases ensures_iff.1 (sysFork_cases ok current) _ _ run with ⟨hroom, hpages, hheaders, hfiles⟩ |
    ⟨hroom, range, hrange, hblock⟩
  · refine iff_of_true ?_ hroom
    constructor
    · exact fun frame => by rw [hpages]
    · exact fun addr => by rw [hheaders]
    · exact fun n => by rw [hfiles]
    · exact fun k => by rw [hfiles]
    · exact fun d => by rw [hfiles]
  · refine iff_of_false ?_ hroom
    intro same
    rw [same.blocks, ok.blocks range hrange] at hblock
    exact hblock rfl

end Fork

/-! ### Two forks that fail -/

/-- A heap with one free range of two pages. The page of the range is in frame 0, and frame 1 is free if `spare` says
    so. -/
def tightHeap (spare : Bool) : HeapState where
  machine :=
    { dirs := fun _ => some fun slot => some slot
      kernelPd := 0
      currentPd := 0
      processPd := some 0
      tables := fun table i => if table = 769 ∧ i = 0 then some { frame := 0, flags := PAGE_WRITE } else none
      ram := fun _ _ => 0
      pages :=
        { bitmapLen := 1
          bitmap := fun _ => if spare then 2#32 else 0#32
          refCounts := fun frame => if frame = 0 then 1 else 0 }
      headers := fun _ => none }
  ranges := [(KERNEL_HEAP_START, 2 * PAGE_SIZE)]

/-- A process with no descriptors on that heap. -/
def tightState (spare : Bool) : ForkState Nat Nat Nat where
  heap := tightHeap spare
  files :=
    { init := 1
      registered := fun p => p = 1
      entries := fun _ _ => none
      desc := fun _ => { inode := .node 0, flags := 0, refCount := 0 }
      descLive := fun _ => false
      opened := fun _ => 0
      closed := fun _ => 0
      node := fun _ => { mode := .S_IFDIR, numLinks := 1, refCount := 1, boundSocket := none }
      nodeLive := fun _ => true
      socket := fun _ =>
        { refCount := 0, backlog := 0, numPending := 0, next := none, connected := false, connectorFd := none }
      socketLive := fun _ => false }
  process := fun _ =>
    { pid := 1, ppid := 0, pd := 0, stackTop := 0, cwd := [47], cwdPath := 0, cwdInode := .node 0, fdTable := 0 }
  nextPid := 2

theorem tightHeap_ok (spare : Bool) : (tightHeap spare).HeapOk := by
  constructor
  · exact fun slot _ _ => ⟨slot, rfl⟩
  · decide +kernel +revert
  · decide +kernel +revert
  · decide +kernel +revert
  · exact fun _ _ => rfl
  · intro r hr
    rw [tightHeap, List.mem_singleton] at hr
    subst hr
    exact ⟨{ frame := 0, flags := PAGE_WRITE }, by decide +kernel +revert, by decide +kernel +revert, rfl⟩

/-- Without a free page there is no room for the process structure. -/
theorem failing_fork_of_full_heap :
    ∃ s', sysFork 1 (tightState false) = .ok (.error .ENOMEM, s') ∧
      (NoResidue (tightState false) s' ↔ (tightState false).heap.NoRoom) := by
  have hrun : Yields (sysFork 1) (tightState false) fun r _ => r = .error .ENOMEM := by decide +kernel
  obtain ⟨r, s', run, rfl⟩ := yields_iff.1 hrun
  exact ⟨s', run, failing_fork_leaves_nothing_iff (tightHeap_ok false) run⟩

/-- There is room for the process structure, and none for the page directory: the structure stays. -/
theorem failing_fork_leaves_structure :
    ∃ s', sysFork 1 (tightState true) = .ok (.error .ENOMEM, s') ∧ ¬NoResidue (tightState true) s' := by
  have hrun : Yields (sysFork 1) (tightState true) fun r s' =>
      r = .error .ENOMEM ∧ s'.heap.machine.headers KERNEL_HEAP_START = some 688 := by decide +kernel
  obtain ⟨r, s', run, rfl, hblock⟩ := yields_iff.1 hrun
  refine ⟨s', run, fun same => ?_⟩
  rw [same.blocks] at hblock
  exact Option.some_ne_none _ hblock.symm

end ForkState

end Chaotix
