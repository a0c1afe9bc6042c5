/-
Module: Chaotix.Proofs.HeapResizing
Layer: Proofs
Purpose: When `krealloc` keeps its promise. It copies as many bytes as the header of the old block says, header included,
  so what decides is whether both blocks fill as many pages, and whether the bytes that the copy leaves out are zeros.
Imports: Mathlib.Tactic, Chaotix.Proofs.HeapBlocks
Trusted boundary: none
Main exports: MemoryAvailable, ReallocMeets, ReallocKeeps, krealloc_meets_iff
-/
import Mathlib.Tactic
import Chaotix.Proofs.HeapBlocks

open Program

namespace Chaotix

variable {P : Type} {start finish : Nat} {vm : Vm} {s : HeapHistory P} {free lost : List Segment}

namespace HeapInvariant

/-- A size for which there are addresses fits into a free range with its last page. -/
theorem fits_of_le (inv : HeapInvariant start finish s free lost) {r : Segment} (hr : r ∈ free) {size : Nat}
    (hle : size ≤ r.2) : size ≤ wordSize - PAGE_SIZE ∧ roundUp size ≤ r.2 := by
  have node := inv.range.ok.nodes r hr
  have hmod := node.size
  have hlt := node.lt
  have hround := roundUp_mod size
  simp only [roundUp, wordSize, PAGE_SIZE] at hmod hlt hround ⊢
  omega

/-- A lost block as two. -/
theorem splitLost {a m n : Nat} (inv : HeapInvariant start finish s free ((a, m + n) :: lost))
    (hm : m % PAGE_SIZE = 0) (hn : n % PAGE_SIZE = 0) (hmpos : 0 < m) (hnpos : 0 < n) :
    HeapInvariant start finish s free ((a, m) :: (a + m, n) :: lost) := by
  have range := inv.range
  have hwhole := (range.blocks (a, m + n) (List.mem_append_right _ List.mem_cons_self)).1
  refine ⟨⟨range.starts, range.finishes, range.start_pos, range.finish_lt, range.ok, fun x => ?_, fun r hr => ?_,
    range.level_lt, range.level_zero⟩, inv.blocks, inv.frames, inv.room, inv.unlocked⟩
  · have htiles := range.tiles x
    rw [coverage_append, coverage_append, coverage_cons, coverage_split] at htiles
    rw [coverage_append, coverage_append, coverage_cons, coverage_cons (a + m, n)]
    omega
  · rcases List.mem_append.1 hr with hr | hr
    · exact range.blocks r (List.mem_append_left _ hr)
    · rcases List.mem_cons.1 hr with rfl | hr
      · exact ⟨hwhole, hm, hmpos⟩
      · rcases List.mem_cons.1 hr with rfl | hr
        · refine ⟨?_, hn, hnpos⟩
          simp only [PAGE_SIZE] at hwhole hm ⊢
          omega
        · exact range.blocks r (List.mem_append_right _ (List.mem_cons_of_mem _ hr))

/-- Another block does not meet the pages of this one. -/
theorem erase_apart (inv : HeapInvariant start finish s free lost) {b c : HeapBlock}
    (hb : b ∈ s.live)
    (hc : c ∈ s.live.erase b) {page : Nat} (hpage : InBlock c.segment page) :
    HeapPage start finish page ∧ ¬InRanges (b.segment :: free) page := by
  have inv' := inv.surrender (List.perm_cons_erase hb)
  refine ⟨inv.heapPage (List.mem_of_mem_erase hc) hpage, ?_⟩
  rintro ⟨r, hr, hin⟩
  rcases List.mem_cons.1 hr with rfl | hr
  · exact inv'.not_lost hc hpage List.mem_cons_self hin
  · exact inv'.not_free hc hpage ⟨r, hr, hin⟩

end HeapInvariant

/-! ### What the functions leave alone -/

theorem onRanges_writes {α : Type} (m : Kernel (RangeState P) α) : Keeps KernelHeap.writes (onRanges m) := by
  refine Keeps.focus ?_ m
  exact fun _ _ => rfl

theorem onHeapVm_allocator {α : Type} (m : Kernel Vm α) :
    Keeps (fun s : KernelHeap P => s.ranges.allocator) (onHeapVm m) := by
  have hvm : Keeps RangeState.allocator (onVm m : Kernel (RangeState P) α) := by
    refine Keeps.focus ?_ m
    exact fun _ _ => rfl
  refine Keeps.focusPart ?_ hvm
  exact fun _ _ => rfl

theorem headerFromPtr_keeps {ρ : Type} {part : KernelHeap P → ρ} (hvm : ∀ m : Kernel Vm Nat, Keeps part (onHeapVm m))
    (ptr : Nat) : Keeps part (headerFromPtr ptr) := by
  rw [headerFromPtr]
  refine Keeps.bind (hvm _) fun magic => ?_
  exact Keeps.bind (Keeps.require _ _) fun _ => Keeps.pure _

variable [DecidableEq P]

/-! ### What a `krealloc` is to do -/

/-- There are addresses and pages for a block of the new size. -/
def MemoryAvailable (current : P) (newSize : Nat) (s : HeapHistory P) : Prop :=
  (∃ free, s.heap.ranges.Holds free ∧ ∃ r ∈ free, Machine.dataOffset HeapState.maxAlign + newSize ≤ r.2) ∧
    ∃ ptr heap, kmalloc current newSize s.heap = .ok (some ptr, heap)

/-- The block at the pointer that a `krealloc` returns. -/
def resized (newSize ptr : Nat) : HeapBlock := { alignment := HeapState.maxAlign, size := newSize, ptr := ptr }

/-- The `krealloc` returns, and has moved the data, written the new block only, left all others alone, given the old one
    back, and `kfree` takes the new one back exactly. -/
def ReallocMeets (current : P) (b : HeapBlock) (newSize : Nat) (s : HeapHistory P) : Prop :=
  ∃ ptr heap free free', krealloc current b.ptr newSize s.heap = .ok (some ptr, heap) ∧
    (∀ i, i < min b.size newSize → heap.vm.byteAt (ptr + i) = s.heap.vm.byteAt (b.ptr + i)) ∧
    (∃ new, heap.writes = new ++ s.heap.writes ∧ ∀ x ∈ new, x.block = (resized newSize ptr).segment ∧ x.Inside) ∧
    (∀ c ∈ s.live.erase b, ∀ a, InBlock c.segment (a / PAGE_SIZE) →
      heap.vm.frameOf (a / PAGE_SIZE) = s.heap.vm.frameOf (a / PAGE_SIZE) ∧
        heap.vm.byteAt a = s.heap.vm.byteAt a) ∧
    s.heap.ranges.Holds free ∧ heap.ranges.Holds free' ∧
    (∀ x, coverage free' x + coverage [(resized newSize ptr).segment] x = coverage free x + coverage [b.segment] x) ∧
    ∀ other : P, FreesExactly other (resized newSize ptr) heap

/-- When it does so: the size in the header of the old block fills as many pages as the new block, the bytes behind that
    size are zeros, and the new block does not use up the heap. -/
def ReallocKeeps (b : HeapBlock) (newSize : Nat) (s : HeapHistory P) : Prop :=
  ∃ n free, s.heap.vm.header b.header = some (MAGIC, n) ∧ s.heap.ranges.Holds free ∧
    roundUp n = roundUp (Machine.dataOffset HeapState.maxAlign + newSize) ∧
    (∀ i, i < min b.size newSize → n ≤ Machine.dataOffset HeapState.maxAlign + i →
      s.heap.vm.byteAt (b.ptr + i) = some 0) ∧
    ∀ a, free ≠ [(a, roundUp (Machine.dataOffset HeapState.maxAlign + newSize))]

/-! ### The calls for which there is memory -/

section Calls

variable {current : P} {b : HeapBlock} {newSize n : Nat}

/-- With memory for the new block there is the moment before the copy. -/
theorem MemoryAvailable.ready (hmemory : MemoryAvailable current newSize s)
    (inv : HeapInvariant start finish s free lost) (hb : b ∈ s.live) (hpos : 0 < newSize)
    (hroom : HasRoom free (Machine.dataOffset HeapState.maxAlign + newSize))
    (hn : s.heap.vm.header b.header = some (MAGIC, n)) :
    ∃ ptr bytes heap free', CopyReady start finish current s free lost b (resized newSize ptr) n bytes heap free' := by
  obtain ⟨ptr, heap, halloc⟩ := hmemory.2
  obtain ⟨r', heap', halloc', ⟨rfl, -, -⟩ | ⟨ptr', bytes, free', rfl, ready⟩⟩ :=
    krealloc_ready current inv hb hpos hroom hn
  · rw [halloc] at halloc'
    cases halloc'
  · exact ⟨ptr', bytes, heap', free', ready⟩

/-- Unless the new block takes the last range, the allocator serves it. -/
theorem MemoryAvailable.hasRoom (hmemory : MemoryAvailable current newSize s)
    (inv : HeapInvariant start finish s free lost)
    (hnotlast : ∀ a, free ≠ [(a, roundUp (Machine.dataOffset HeapState.maxAlign + newSize))]) :
    HasRoom free (Machine.dataOffset HeapState.maxAlign + newSize) := by
  obtain ⟨free₁, hholds, r, hr, hle⟩ := hmemory.1
  obtain rfl : free = free₁ := inv.range.ok.list.unique hholds
  obtain ⟨hfits, hround⟩ := inv.fits_of_le hr hle
  exact ⟨hfits, ⟨r, hr, hround⟩, hnotlast⟩

/-! ### It keeps its promise -/

theorem ReallocKeeps.meets (inv : HeapInvariant start finish s free lost) (hb : b ∈ s.live)
    (halign : b.alignment = HeapState.maxAlign) (hpos : 0 < newSize) (hmemory : MemoryAvailable current newSize s)
    (keeps : ReallocKeeps b newSize s) : ReallocMeets current b newSize s := by
  obtain ⟨n, free₁, hword, hholds, hround, hzero, hnotlast⟩ := keeps
  obtain rfl : free = free₁ := inv.range.ok.list.unique hholds
  obtain ⟨n', hn8, hn, hword', hroundN⟩ := (inv.blocks b hb).header
  obtain rfl : n = n' := (Prod.mk.inj (Option.some.inj (hword.symm.trans hword'))).2
  have hroom := hmemory.hasRoom inv hnotlast
  obtain ⟨ptr, bytes, heap₁, free₁, ready⟩ := hmemory.ready inv hb hpos hroom hword
  have hlen : n ≤ roundUp (resized newSize ptr).realSize := by
    have hle := inv.header_le hb hword
    rwa [HeapBlock.segment, ← hroundN, hround] at hle
  obtain ⟨heap, free', hrun, copied⟩ := ready.copies inv hb halign rfl hword hn8 hlen
  have inv' := copied.inv.claim (copied.liveBlock rfl rfl rfl hpos hroom.1 hn8 hn hround (Nat.le_refl _))
  refine ⟨ptr, heap, free, free', hrun, fun i hi => ?_, ?_, fun c hc a hin => ?_, inv.range.ok.list,
    inv'.range.ok.list, copied.addresses, fun other => inv'.freesExactly List.mem_cons_self other⟩
  · rw [show ptr + i = (resized newSize ptr).ptr + i from rfl, copied.bytes i (lt_min_iff.1 hi).2]
    split
    · rfl
    · rename_i hbeyond
      exact (hzero i hi (by omega)).symm
  · refine ⟨[_, _], copied.writes, fun x hx => ?_⟩
    have hparts := inv'.parts_inside (b := resized newSize ptr) List.mem_cons_self
    have hstart : (resized newSize ptr).segment.1 = (resized newSize ptr).header := rfl
    rcases List.mem_cons.1 hx with rfl | hx
    · exact ⟨rfl, Or.inr ⟨Nat.le_refl _, Nat.add_le_add_left hlen _⟩⟩
    · obtain rfl := List.mem_singleton.1 hx
      exact ⟨rfl, Or.inr ⟨hstart.le.trans ((Nat.le_add_right _ _).trans hparts.1), hparts.2⟩⟩
  · obtain ⟨hheap, hout⟩ := inv.erase_apart hb hc hin
    exact ⟨copied.works.frameOf _ hout, copied.works.byteAt hheap hout⟩

end Calls

/-! ### It breaks it -/

/-- `kfree` writes no bytes. -/
theorem kfree_writes (current : P) (ptr : Nat) : Keeps KernelHeap.writes (kfree current ptr) := by
  rw [kfree]
  split
  · exact Keeps.pure _
  · refine Keeps.bind (headerFromPtr_keeps (fun m => onRanges_writes _) ptr) fun header => ?_
    refine Keeps.bind (onRanges_writes _) fun size => ?_
    refine Keeps.bind (onRanges_writes _) fun _ => ?_
    refine Keeps.bind (onRanges_writes _) fun r => ?_
    cases r with
    | ok _ => exact Keeps.pure _
    | error e => exact Keeps.throw _

/-- `kfree` fails its assertion when no free range is left. -/
theorem kfree_of_no_range (current : P) {ptr : Nat} {heap : KernelHeap P} (hne : ptr ≠ 0)
    (hranges : heap.ranges.allocator.ranges = 0) : Ensures (kfree current ptr) heap fun _ _ => False := by
  rw [kfree, if_neg hne, ensures_bind]
  refine (headerFromPtr_keeps onHeapVm_allocator ptr heap).mono fun header heap₁ h₁ => ?_
  rw [ensures_bind]
  refine (onHeapVm_allocator _ heap₁).mono fun size heap₂ h₂ => ?_
  rw [ensures_bind]
  refine (onHeapVm_allocator _ heap₂).mono fun _ heap₃ h₃ => ?_
  have hnone : heap₃.ranges.allocator.ranges = 0 :=
    (congrArg RangeAllocator.ranges (h₃.trans (h₂.trans h₁))).trans hranges
  rw [ensures_bind, onRanges, ensures_focus, rangeAllocatorFree]
  simp only [assert, ensures_bind, ensures_require, ensures_get]
  intro _ hsome
  exact absurd hnone hsome

/-- An allocation of the whole last range leaves the allocator without one. -/
theorem rangeAllocatorAlloc_last (current : P) (inv : HeapInvariant start finish s free lost) {a size : Nat}
    (hpos : 0 < roundUp size) (hlast : free = [(a, roundUp size)]) :
    Ensures (rangeAllocatorAlloc current size) s.heap.ranges fun r ranges =>
      ∀ addr, r = .ok addr → ranges.allocator.ranges = 0 := by
  subst hlast
  have hready : LockReady current s.heap.ranges.allocator.lock := inv.lockReady
  refine ensures_iff.2 fun r ranges hreturn => ?_
  rcases rangeAllocatorAlloc_spec current inv.range.ok inv.room hready.1 hpos with ⟨halloc, -⟩ | ⟨halloc, -⟩ |
    ⟨state, pre, it, n, post, halloc, hsplit, hle, ok, hallocator⟩
  · rw [halloc] at hreturn
    cases hreturn
    nofun
  · rw [unlockAndReturn_ready hready rfl, hreturn] at halloc
    cases halloc
    nofun
  · -- the range is the only one, and the block is all of it
    have hlen := congrArg List.length hsplit
    simp only [List.length_append, List.length_cons, List.length_nil] at hlen
    obtain rfl : pre = [] := List.length_eq_zero_iff.1 (by omega)
    obtain rfl : post = [] := List.length_eq_zero_iff.1 (by omega)
    obtain ⟨rfl, rfl⟩ : a = it ∧ roundUp size = n := by
      simpa using hsplit
    rw [if_pos rfl] at ok
    rw [unlockAndReturn_ready hready (by rw [hallocator]; rfl), hreturn] at halloc
    cases halloc
    exact fun _ _ => (free_eq_nil_iff ok).1 rfl

theorem kmalloc_last (current : P) (inv : HeapInvariant start finish s free lost) {a size : Nat}
    (hfits : Machine.dataOffset HeapState.maxAlign + size ≤ wordSize - PAGE_SIZE)
    (hlast : free = [(a, roundUp (Machine.dataOffset HeapState.maxAlign + size))]) :
    Ensures (kmalloc current size) s.heap fun r heap => ∀ ptr, r = some ptr → heap.ranges.allocator.ranges = 0 := by
  have hreal : (Machine.dataOffset HeapState.maxAlign + size) % wordSize = Machine.dataOffset HeapState.maxAlign + size :=
    Nat.mod_eq_of_lt (Nat.lt_of_le_of_lt hfits (by decide))
  have hpos : 0 < roundUp (Machine.dataOffset HeapState.maxAlign + size) :=
    Nat.lt_of_lt_of_le (Nat.lt_of_lt_of_le (by decide) (Nat.le_add_right _ size)) (le_roundUp hfits)
  rw [kmalloc, kalignedAlloc]
  split
  · exact ensures_pure.2 (by simp)
  · rw [ensures_bind]
    simp only [assert, ensures_require, hreal]
    intro _
    rw [ensures_bind, onRanges, ensures_focus]
    refine (rangeAllocatorAlloc_last current inv hpos hlast).mono fun r ranges hranges => ?_
    cases r with
    | error e => exact ensures_pure.2 (by simp)
    | ok addr =>
        -- what is left maps and writes the block
        rw [ensures_bind]
        refine (onHeapVm_allocator _ _).mono fun r heap₁ h₁ => ?_
        cases r with
        | error e => exact ensures_pure.2 (by simp)
        | ok _ =>
            rw [ensures_bind]
            refine (onHeapVm_allocator _ _).mono fun _ heap₂ h₂ => ?_
            rw [ensures_bind]
            refine (onHeapVm_allocator _ _).mono fun _ heap₃ h₃ => ?_
            rw [writeBlock, ensures_bind, ensures_bind, ensures_modify]
            refine (onHeapVm_allocator _ _).mono fun _ heap₄ h₄ => ?_
            intro ptr _
            exact (congrArg RangeAllocator.ranges (h₄.trans (h₃.trans (h₂.trans h₁)))).trans (hranges addr rfl)

/-- Then `krealloc` does not return a block. -/
theorem krealloc_last (current : P) (inv : HeapInvariant start finish s free lost) {b : HeapBlock} {a size : Nat}
    (hb : b ∈ s.live) (hpos : 0 < size)
    (hfits : Machine.dataOffset HeapState.maxAlign + size ≤ wordSize - PAGE_SIZE)
    (hlast : free = [(a, roundUp (Machine.dataOffset HeapState.maxAlign + size))]) :
    Ensures (krealloc current b.ptr size) s.heap fun r _ => r = none := by
  have hne := inv.ptr_ne_zero hb
  have hfinish := inv.range.finish_lt
  obtain ⟨hbase, -, hhi⟩ := inv.inside hb
  have hheader := headerFromPtr_eq (inv.blocks b hb) hbase (by omega)
  rw [krealloc, if_neg hne, if_neg (Nat.ne_of_gt hpos), ensures_bind]
  refine ensures_iff.2 fun header heap hreturn => ?_
  rw [hheader] at hreturn
  cases hreturn
  rw [ensures_bind]
  refine (kmalloc_last current inv hfits hlast).mono fun r heap₁ hranges => ?_
  cases r with
  | none => rfl
  | some ptr =>
      rw [ensures_bind]
      refine (headerFromPtr_keeps onHeapVm_allocator ptr heap₁).mono fun header heap₂ h₂ => ?_
      rw [ensures_bind]
      refine (onHeapVm_allocator _ _).mono fun size heap₃ h₃ => ?_
      rw [ensures_bind]
      refine (onHeapVm_allocator _ _).mono fun bytes heap₄ h₄ => ?_
      rw [writeBlock, ensures_bind, ensures_bind, ensures_modify]
      refine (onHeapVm_allocator _ _).mono fun _ heap₅ h₅ => ?_
      have hnone := (congrArg RangeAllocator.ranges (h₅.trans (h₄.trans (h₃.trans h₂)))).trans (hranges ptr rfl)
      rw [ensures_bind]
      exact (kfree_of_no_range current hne hnone).mono fun _ _ hfalse => hfalse.elim

section Sizes

variable {current : P} {b q : HeapBlock} {newSize n : Nat} {bytes : List UInt8} {heap : KernelHeap P}
  {free' : List Segment}

/-- Whatever becomes of the copy, it has been meant to write `n` bytes. -/
theorem CopyReady.writes (ready : CopyReady start finish current s free lost b q n bytes heap free') :
    Ensures (krealloc current b.ptr q.size) s.heap fun _ heap' =>
      heap'.writes = { vaddr := q.header, len := n, block := q.segment } ::
        { vaddr := q.ptr, len := q.size, block := q.segment } :: s.heap.writes := by
  rw [Ensures, ready.run]
  change Ensures _ heap _
  rw [ensures_bind, writeBlock, ensures_bind, ensures_modify]
  refine (onRanges_writes _ _).mono fun _ heap₁ h₁ => ?_
  rw [ensures_bind]
  refine (kfree_writes current b.ptr heap₁).mono fun _ heap₂ h₂ => ?_
  rw [ensures_pure, h₂, h₁, ready.length, ready.alloc.writes]

/-- A block with a header of fewer pages than it has is not given back as a whole. -/
theorem BlockCopied.not_freed (copied : BlockCopied start finish s free lost b q n heap free')
    (halign : q.alignment = HeapState.maxAlign) (hpos : 0 < b.size) (hfits : b.realSize ≤ wordSize - PAGE_SIZE)
    (hn8 : Machine.headerSize ≤ n) (hn : n < wordSize) (hround : roundUp n = roundUp b.realSize)
    (halignB : b.alignment = HeapState.maxAlign) (hlt : roundUp b.realSize < roundUp q.realSize) (other : P) :
    ¬FreesExactly other q heap := by
  -- the pages that the header accounts for are a block of their own, the others are lost
  set c : HeapBlock := resized b.size q.ptr with hc
  have hreal : c.realSize = b.realSize := by
    rw [HeapBlock.realSize, HeapBlock.realSize, halignB]
    rfl
  have hround' : roundUp c.realSize = roundUp b.realSize := by rw [hreal]
  have hfitsC : c.realSize ≤ wordSize - PAGE_SIZE := hreal ▸ hfits
  have hsegmentC : c.segment = (q.header, roundUp b.realSize) := by
    rw [HeapBlock.segment, hround', HeapBlock.header, HeapBlock.header, halign]
    rfl
  have hsegmentQ : q.segment = (q.header, roundUp b.realSize + (roundUp q.realSize - roundUp b.realSize)) := by
    rw [HeapBlock.segment, Nat.add_sub_cancel' (Nat.le_of_lt hlt)]
  have hmodB := roundUp_mod b.realSize
  have hmodQ := roundUp_mod q.realSize
  have hposB : 0 < roundUp b.realSize := by
    have hle := le_roundUp hfits
    simp only [HeapBlock.realSize] at hle ⊢
    omega
  have inv := copied.inv
  rw [hsegmentQ] at inv
  have inv₁ := inv.splitLost hmodB (by simp only [PAGE_SIZE] at hmodB hmodQ ⊢; omega) hposB (by omega)
  rw [← hsegmentC] at inv₁
  have live : LiveBlock heap.vm c := copied.liveBlock rfl halign rfl hpos hfitsC hn8 hn (hround.trans hround'.symm)
    (by rw [hround']; exact Nat.le_of_lt hlt)
  have inv₂ := inv₁.claim live
  rintro ⟨vm, heap', free₁, free₂, hfree, -, -, -, hholds, hholds', haddresses⟩
  obtain ⟨heap'', free₃, hfree', released⟩ := kfree_spec other inv₂ List.mem_cons_self
  cases (show Except.ok ((), heap') = Except.ok ((), heap'') from hfree.symm.trans hfree')
  have hfirst := haddresses (q.header + roundUp b.realSize)
  have hsecond := released.addresses (q.header + roundUp b.realSize)
  rw [inv₂.range.ok.list.unique hholds, released.inv.range.ok.list.unique hholds', hsegmentC, coverage_singleton,
    if_neg (by simp)] at hsecond
  rw [hsegmentQ, coverage_singleton, if_pos (by simp only; omega)] at hfirst
  omega

theorem roundUp_le_of_le {k : Nat} (h : n ≤ roundUp k) : roundUp n ≤ roundUp k := by
  have hmod := roundUp_mod k
  rw [show roundUp n = (n + (PAGE_SIZE - 1)) % wordSize / PAGE_SIZE * PAGE_SIZE from rfl]
  simp only [wordSize, PAGE_SIZE] at h hmod ⊢
  omega

theorem ReallocMeets.keeps (inv : HeapInvariant start finish s free lost) (hb : b ∈ s.live)
    (halign : b.alignment = HeapState.maxAlign) (hpos : 0 < newSize) (hmemory : MemoryAvailable current newSize s)
    (meets : ReallocMeets current b newSize s) : ReallocKeeps b newSize s := by
  obtain ⟨ptr, heap, _, _, hrun, hdata, ⟨new, hnew, hinside⟩, -, -, -, -, hfreed⟩ := meets
  have live := inv.blocks b hb
  obtain ⟨n, hn8, hn, hword, hroundN⟩ := live.header
  have hfits : Machine.dataOffset HeapState.maxAlign + newSize ≤ wordSize - PAGE_SIZE := by
    obtain ⟨free₁, hholds, r, hr, hle⟩ := hmemory.1
    obtain rfl : free = free₁ := inv.range.ok.list.unique hholds
    exact (inv.fits_of_le hr hle).1
  have hnotlast : ∀ a, free ≠ [(a, roundUp (Machine.dataOffset HeapState.maxAlign + newSize))] := fun a hlast =>
    absurd (ensures_iff.1 (krealloc_last current inv hb hpos hfits hlast) _ _ hrun) (by simp)
  have hroom := hmemory.hasRoom inv hnotlast
  obtain ⟨ptr', bytes, heap₁, free₁, ready⟩ := hmemory.ready inv hb hpos hroom hword
  have hreal : (resized newSize ptr').realSize = Machine.dataOffset HeapState.maxAlign + newSize := rfl
  -- a header with a larger size makes the copy run over the new block
  have hle : n ≤ roundUp (resized newSize ptr').realSize := by
    by_contra hlarge
    have hwrites : new ++ s.heap.writes = [_, _] ++ s.heap.writes :=
      hnew.symm.trans (ensures_iff.1 ready.writes _ _ hrun)
    obtain rfl := List.append_cancel_right hwrites
    obtain ⟨-, hzero | ⟨-, hend⟩⟩ := hinside _ List.mem_cons_self
    · exact absurd hn8 (by rw [show n = 0 from hzero]; decide)
    · simp only [HeapBlock.segment] at hend
      omega
  obtain ⟨heap₂, free₂, hrun', copied⟩ := ready.copies inv hb halign rfl hword hn8 hle
  cases (show Except.ok (some ptr, heap) = Except.ok (some ptr', heap₂) from hrun.symm.trans hrun')
  -- a header with a smaller size makes `kfree` leave pages behind
  have hround : roundUp n = roundUp (Machine.dataOffset HeapState.maxAlign + newSize) := by
    refine Nat.le_antisymm (roundUp_le_of_le hle) (Nat.le_of_not_lt fun hlt => ?_)
    rw [hroundN] at hlt
    exact copied.not_freed rfl live.nonempty live.fits hn8 hn hroundN halign hlt current (hfreed current)
  refine ⟨n, free, hword, inv.range.ok.list, hround, fun i hi hbeyond => ?_, hnotlast⟩
  rw [← hdata i hi]
  have hbyte := copied.bytes i (lt_min_iff.1 hi).2
  rwa [if_neg (Nat.not_lt.2 hbeyond)] at hbyte

end Sizes

/-! ### Whole runs -/

/-- In every run whose calls the heap bears, a `krealloc` of a live block for which there is memory does what it is to
    do if and only if the size in the header of the block fills as many pages as the new block, the bytes behind that
    size are zeros, and the new block does not use up the heap. -/
theorem krealloc_meets_iff {s t : HeapHistory P} {xs : List (Transition (HeapHistory P) (HeapEvent P))} {current : P}
    {b : HeapBlock} {newSize : Nat} (fresh : Fresh start finish vm) (hinit : (heapSystem P start finish vm).init s)
    (run : (heapSystem P start finish vm).Run s xs t) (hguard : ∀ x ∈ xs, HeapGuard x.before x.event)
    (hb : b ∈ t.live) (halign : b.alignment = HeapState.maxAlign) (hpos : 0 < newSize)
    (hmemory : MemoryAvailable current newSize t) :
    ReallocMeets current b newSize t ↔ ReallocKeeps b newSize t := by
  obtain ⟨⟨free, lost, inv⟩, -⟩ := heapInvariant_run fresh hinit run hguard
  exact ⟨fun meets => meets.keeps inv hb halign hpos hmemory, fun keeps => keeps.meets inv hb halign hpos hmemory⟩

/-- With addresses and pages for it, `kmalloc` does not return null. -/
theorem kmalloc_maps {current : P} {heap : KernelHeap P} {ranges : RangeState P} {vm' : Vm} {addr size : Nat}
    (hpos : 0 < size) (hlt : Machine.dataOffset HeapState.maxAlign + size < wordSize)
    (halloc : rangeAllocatorAlloc current (Machine.dataOffset HeapState.maxAlign + size) heap.ranges =
      .ok (.ok addr, ranges))
    (hmap : pagingMapToFreePages addr (Machine.dataOffset HeapState.maxAlign + size) (PAGE_WRITE ||| PAGE_GLOBAL)
      ranges.vm = .ok (.ok (), vm')) : Ensures (kmalloc current size) heap fun r _ => r ≠ none := by
  have hmap' : onHeapVm (pagingMapToFreePages addr (Machine.dataOffset HeapState.maxAlign + size)
      (PAGE_WRITE ||| PAGE_GLOBAL)) { heap with ranges := ranges } =
      .ok (.ok (), { heap with ranges := { ranges with vm := vm' } }) := run_onHeapVm hmap
  rw [kmalloc, kalignedAlloc, if_neg (Nat.ne_of_gt hpos), ensures_bind]
  simp only [assert, ensures_require, Nat.mod_eq_of_lt hlt]
  intro _
  rw [ensures_bind]
  refine ensures_iff.2 fun r heap₁ hreturn => ?_
  rw [run_onRanges halloc] at hreturn
  cases hreturn
  rw [ensures_bind]
  refine ensures_iff.2 fun r heap₂ hreturn => ?_
  rw [hmap'] at hreturn
  cases hreturn
  rw [ensures_bind]
  refine ensures_iff.2 fun _ heap₃ _ => ?_
  rw [ensures_bind]
  refine ensures_iff.2 fun _ heap₄ _ => ?_
  rw [ensures_bind]
  exact ensures_iff.2 fun _ heap₅ _ => by simp [ensures_pure]

theorem MemoryAvailable.of_maps {current : P} {ranges : RangeState P} {vm' : Vm} {addr size : Nat} {r : Segment}
    (inv : HeapInvariant start finish s free lost) (hpos : 0 < size)
    (hroom : HasRoom free (Machine.dataOffset HeapState.maxAlign + size)) (hr : r ∈ free)
    (hle : Machine.dataOffset HeapState.maxAlign + size ≤ r.2)
    (halloc : rangeAllocatorAlloc current (Machine.dataOffset HeapState.maxAlign + size) s.heap.ranges =
      .ok (.ok addr, ranges))
    (hmap : pagingMapToFreePages addr (Machine.dataOffset HeapState.maxAlign + size) (PAGE_WRITE ||| PAGE_GLOBAL)
      ranges.vm = .ok (.ok (), vm')) : MemoryAvailable current size s := by
  refine ⟨⟨free, inv.range.ok.list, r, hr, hle⟩, ?_⟩
  have hlt := Nat.lt_of_le_of_lt hroom.1 (by decide : wordSize - PAGE_SIZE < wordSize)
  obtain ⟨result, heap, hreturn, -⟩ := kmalloc_spec current inv hpos hroom
  have hsome := ensures_iff.1 (kmalloc_maps hpos hlt halloc hmap) _ _ hreturn
  obtain ⟨ptr, rfl⟩ := Option.ne_none_iff_exists'.1 hsome
  exact ⟨ptr, heap, hreturn⟩

/-- The range allocator has the addresses for a size, and there are pages for them. -/
def Maps (s : RangeState Unit) (size : Nat) : Prop :=
  Yields (rangeAllocatorAlloc () size) s fun r s => r = .ok 8192 ∧
    Yields (pagingMapToFreePages 8192 size (PAGE_WRITE ||| PAGE_GLOBAL)) s.vm fun r _ => r = .ok ()

instance (s : RangeState Unit) (size : Nat) : Decidable (Maps s size) :=
  inferInstanceAs (Decidable (Yields _ _ _))

set_option synthInstance.maxSize 1024 in
/-- A heap of five pages, of which one has been taken. -/
theorem kalignedAlloc_five_pages :
    Yields (rangeAllocatorInit 4096 24576) ({ allocator := {}, vm := Vm.bare } : RangeState Unit)
      fun r s => r = .ok () ∧ Yields (kalignedAlloc () (2 ^ 4) 100) { ranges := s }
        fun r s => r = some 4112 ∧ s.ranges.allocator.ranges = 8192 ∧ s.vm.header 8192 = some (16384, 0) ∧
          s.vm.header 4096 = some (MAGIC, 116) ∧ Maps s.ranges 216 ∧ Maps s.ranges 5016 := by
  decide +kernel

theorem Vm.bare_fresh_five : Fresh 4096 24576 Vm.bare :=
  ⟨by decide, by decide, by decide, Vm.bare_pagesOk, fun _ _ _ => rfl⟩

/-- A block of 100 bytes in it. -/
theorem heap_five_pages :
    ∃ s xs t, (heapSystem Unit 4096 24576 Vm.bare).init s ∧ (heapSystem Unit 4096 24576 Vm.bare).Run s xs t ∧
      (∀ x ∈ xs, HeapGuard x.before x.event) ∧ xs.map Transition.event = [.alloc () 16 100 (some 4112)] ∧
      t.live = [resized 100 4112] ∧ t.heap.vm.header 4096 = some (MAGIC, 116) ∧
      t.heap.ranges.Holds [(8192, 16384)] ∧ MemoryAvailable () 200 t ∧ MemoryAvailable () 5000 t := by
  obtain ⟨_, ranges, hinit, rfl, halloc⟩ := yields_iff.1 kalignedAlloc_five_pages
  obtain ⟨_, heap, halloc, rfl, hranges, hnode, hheader, hsmall, hlarge⟩ := yields_iff.1 halloc
  have hsystem : (heapSystem Unit 4096 24576 Vm.bare).init { heap := { ranges := ranges }, live := [] } :=
    ⟨{}, rfl, hinit⟩
  have hfree := (heapInvariant_init Vm.bare_fresh_five hsystem).range.ok.list
  have hguard : HeapGuard { heap := { ranges := ranges }, live := [] } (.alloc () (2 ^ 4) 100 (some 4112)) :=
    Or.inr ⟨_, hfree, by decide, ⟨_, List.mem_singleton_self _, by decide⟩,
      fun a h => absurd (Prod.mk.inj (List.cons.inj h).1).2 (by decide)⟩
  have hstep : HeapStep { heap := { ranges := ranges }, live := [] } (.alloc () (2 ^ 4) 100 (some 4112))
      { heap := heap, live := [resized 100 4112] } :=
    .alloc () 4 100 4112 heap (by decide) (by decide) halloc
  have hholds : heap.ranges.Holds [(8192, 16384)] := ⟨hranges, by decide, 0, hnode, rfl⟩
  obtain ⟨free, lost, inv⟩ := heapInvariant_step ⟨_, _, heapInvariant_init Vm.bare_fresh_five hsystem⟩ hguard hstep
  obtain rfl := inv.range.ok.list.unique hholds
  have havailable : ∀ size, 0 < size → HasRoom [(8192, 16384)] (Machine.dataOffset HeapState.maxAlign + size) →
      Machine.dataOffset HeapState.maxAlign + size ≤ 16384 →
      Maps heap.ranges (Machine.dataOffset HeapState.maxAlign + size) →
      MemoryAvailable () size { heap := heap, live := [resized 100 4112] } := by
    intro size hpos hroom hle maps
    obtain ⟨_, ranges', halloc', rfl, hmap⟩ := yields_iff.1 maps
    obtain ⟨_, vm', hmap, rfl⟩ := yields_iff.1 hmap
    exact .of_maps inv hpos hroom (List.mem_singleton_self _) hle halloc' hmap
  have hroom : ∀ size, roundUp (Machine.dataOffset HeapState.maxAlign + size) < 16384 →
      Machine.dataOffset HeapState.maxAlign + size ≤ wordSize - PAGE_SIZE →
      HasRoom [(8192, 16384)] (Machine.dataOffset HeapState.maxAlign + size) := fun size hlt hle =>
    ⟨hle, ⟨_, List.mem_singleton_self _, Nat.le_of_lt hlt⟩,
      fun a h => absurd (Prod.mk.inj (List.cons.inj h).1).2 (Nat.ne_of_gt hlt)⟩
  exact ⟨_, _, _, hsystem, .cons hstep (.nil _), by simpa using hguard, rfl, rfl, hheader, hholds,
    havailable 200 (by decide) (hroom 200 (by decide) (by decide)) (by decide) hsmall,
    havailable 5000 (by decide) (hroom 5000 (by decide) (by decide)) (by decide) hlarge⟩

/-- 200 bytes fit into one page as well: `krealloc` does what it is to do. -/
theorem krealloc_meets_after_alloc :
    ∃ s xs t b, (heapSystem Unit 4096 24576 Vm.bare).init s ∧ (heapSystem Unit 4096 24576 Vm.bare).Run s xs t ∧
      xs.map Transition.event = [.alloc () 16 100 (some 4112)] ∧ b ∈ t.live ∧ MemoryAvailable () 200 t ∧
      ReallocMeets () b 200 t := by
  obtain ⟨s, xs, t, hinit, run, hguard, hevents, hlive, hheader, hholds, havailable, -⟩ := heap_five_pages
  have hmem : resized 100 4112 ∈ t.live := hlive ▸ List.mem_singleton_self _
  refine ⟨s, xs, t, resized 100 4112, hinit, run, hevents, hmem, havailable, ?_⟩
  refine (krealloc_meets_iff Vm.bare_fresh_five hinit run hguard hmem rfl (by decide) havailable).2 ?_
  refine ⟨116, _, hheader, hholds, by decide, fun i hi hbeyond => ?_, fun a h => ?_⟩
  · have hsmall : i < 100 := (lt_min_iff.1 hi).1
    have hoffset : Machine.dataOffset HeapState.maxAlign = 16 := by decide
    omega
  · exact absurd (Prod.mk.inj (List.cons.inj h).1).2 (by decide)

/-- 5000 bytes take two pages, of which the header accounts for one only. -/
theorem krealloc_breaks :
    ∃ s xs t b, (heapSystem Unit 4096 24576 Vm.bare).init s ∧ (heapSystem Unit 4096 24576 Vm.bare).Run s xs t ∧
      (∀ x ∈ xs, HeapGuard x.before x.event) ∧ xs.map Transition.event = [.alloc () 16 100 (some 4112)] ∧
      b ∈ t.live ∧ MemoryAvailable () 5000 t ∧ ¬ReallocMeets () b 5000 t := by
  obtain ⟨s, xs, t, hinit, run, hguard, hevents, hlive, hheader, -, -, havailable⟩ := heap_five_pages
  have hmem : resized 100 4112 ∈ t.live := hlive ▸ List.mem_singleton_self _
  obtain ⟨⟨free, lost, inv⟩, -⟩ := heapInvariant_run Vm.bare_fresh_five hinit run hguard
  refine ⟨s, xs, t, resized 100 4112, hinit, run, hguard, hevents, hmem, havailable, fun meets => ?_⟩
  obtain ⟨n, -, hword, -, hround, -⟩ := meets.keeps inv hmem rfl (by decide) havailable
  rw [show (resized 100 4112).header = 4096 by decide, hheader] at hword
  cases hword
  exact absurd hround (by decide)

end Chaotix
