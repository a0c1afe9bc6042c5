/-
Module: Chaotix.Proofs.HeapBlocks
Layer: Proofs
Purpose: The blocks of the kernel heap over whole runs. As long as every allocation fits into a free range without using
  up the last one, and every `krealloc` keeps to as many pages as it had, the blocks are apart from each other and from
  all headers, and `kfree` gives back each of them exactly.
Imports: Mathlib.Tactic, Chaotix.Proofs.KreallocSpec
Trusted boundary: none
Main exports: heapInvariant_init, HeapGuard, heapInvariant_step, FreesExactly, HeapBlocksOk, heap_blocks
-/
import Mathlib.Tactic
import Chaotix.Proofs.KreallocSpec

open Program

namespace Chaotix

variable {P : Type} {start finish : Nat} {vm : Vm} {s : HeapHistory P} {free free' lost : List Segment}

/-! ### What the heap bears -/

/-- The allocator serves a size without using up its last range. -/
def Serves (s : HeapHistory P) (size : Nat) : Prop := ∃ free, s.heap.ranges.Holds free ∧ HasRoom free size

/-- The calls that the heap bears: an allocation is served, and a `krealloc` keeps to as many pages as it had. -/
def HeapGuard (s : HeapHistory P) : HeapEvent P → Prop
  | .alloc _ alignment size _ => size = 0 ∨ Serves s (Machine.dataOffset alignment + size)
  | .free _ _ => True
  | .realloc _ block newSize _ => Serves s (Machine.dataOffset HeapState.maxAlign + newSize) ∧
      roundUp block.realSize = roundUp (Machine.dataOffset HeapState.maxAlign + newSize)
  | .client => True

theorem Serves.hasRoom {size : Nat} (h : Serves s size) (inv : HeapInvariant start finish s free lost) :
    HasRoom free size := by
  obtain ⟨free', hholds, hroom⟩ := h
  rwa [inv.range.ok.list.unique hholds]

/-! ### The parts of the blocks -/

theorem alignment_dvd {k : Nat} (h : 2 ^ k ≤ PAGE_SIZE) : 2 ^ k ∣ PAGE_SIZE := by
  have hk : k ≤ 12 := (Nat.pow_le_pow_iff_right (by decide)).1 (h.trans (by decide : PAGE_SIZE ≤ 2 ^ 12))
  exact Nat.pow_dvd_pow 2 hk

/-- The header of a block and its data. -/
def HeapBlock.parts (b : HeapBlock) : List Segment := [(b.header, Machine.headerSize), (b.ptr, b.size)]

namespace HeapInvariant

/-- The header and the data of a block lie in the block, one behind the other. -/
theorem parts_inside (inv : HeapInvariant start finish s free lost) {b : HeapBlock} (hb : b ∈ s.live) :
    b.header + Machine.headerSize ≤ b.ptr ∧ b.ptr + b.size ≤ b.segment.1 + b.segment.2 := by
  have live := inv.blocks b hb
  have hptr := live.ptr
  have hround := live.realSize_le
  have hoffset := live.offset.1
  simp only [HeapBlock.realSize, HeapBlock.segment] at hround ⊢
  omega

theorem parts_apart (inv : HeapInvariant start finish s free lost) :
    (s.live.flatMap HeapBlock.parts).Pairwise Segment.Disjoint := by
  have hsegments := (List.pairwise_append.1 (List.pairwise_append.1 inv.range.tiles.pairwise_disjoint).2.1).1
  rw [List.pairwise_map] at hsegments
  have hcovers : ∀ b ∈ s.live, ∀ r ∈ b.parts, ∀ x, r.covers x = true → b.segment.covers x = true := by
    intro b hb r hr x hx
    obtain ⟨hheader, hdata⟩ := inv.parts_inside hb
    have hstart : b.segment.1 = b.header := rfl
    simp only [HeapBlock.parts, List.mem_cons, List.not_mem_nil, or_false] at hr
    rcases hr with rfl | rfl
    · simp only [Segment.covers_iff] at hx ⊢
      omega
    · simp only [Segment.covers_iff] at hx ⊢
      omega
  refine List.pairwise_flatMap.2 ⟨fun b hb => ?_, hsegments.imp_of_mem fun {b c} hb hc hdisjoint r hr r' hr' x hx => ?_⟩
  · obtain ⟨hheader, -⟩ := inv.parts_inside hb
    refine List.pairwise_pair.2 fun x hx => ?_
    simp only [Segment.covers_iff] at hx
    omega
  · exact hdisjoint x ⟨hcovers b hb r hr x hx.1, hcovers c hc r' hr' x hx.2⟩

end HeapInvariant

/-! ### The first state and the rest of the kernel -/

theorem rangeAllocatorInit_unlocked (start finish : Nat) (s : RangeState P) :
    Ensures (rangeAllocatorInit start finish) s fun _ s' => s'.allocator.lock.holder = none := by
  simp only [rangeAllocatorInit, assert, modifyAllocator, ensures_bind, ensures_require, ensures_modify]
  intro _ _
  rw [ensures_onVm]
  refine ensures_iff.2 fun r vm _ => ?_
  cases r with
  | error e => rfl
  | ok _ =>
      simp only [ensures_bind, ensures_modify, ensures_onVm]
      refine ensures_iff.2 fun _ vm₁ _ => ensures_iff.2 fun _ vm₂ _ => rfl

variable [DecidableEq P]

theorem heapInvariant_init (fresh : Fresh start finish vm) (hinit : (heapSystem P start finish vm).init s) :
    HeapInvariant start finish s [(start, finish - start)] [] := by
  obtain ⟨allocator, hlive, hreturn⟩ := hinit
  have hrange : RangeInvariant start finish { state := s.heap.ranges, blocks := s.live.map HeapBlock.segment ++ [] }
      [(start, finish - start)] := by
    rw [hlive]
    exact rangeInvariant_init fresh ⟨allocator, rfl, hreturn⟩
  have hunlocked := ensures_iff.1 (rangeAllocatorInit_unlocked start finish _) _ _ hreturn
  have hfree : ∀ page, HeapPage start finish page → InRanges [(start, finish - start)] page := by
    rintro page ⟨hlo, hhi⟩
    exact inRanges_singleton.2 ⟨hlo, by simp only; omega⟩
  refine ⟨hrange, ?_, ⟨fun p f hp hf => ?_, fun p p' f hp hp' hf hf' => ?_⟩, by simp, hunlocked⟩
  · rw [hlive]
    simp
  · obtain ⟨-, -, -, hheld⟩ := hrange.ok.node_of_mapped (hfree p hp) hf
    exact hheld
  · exact hrange.ok.nodes_inj (hfree p hp) (hfree p' hp') hf hf'

namespace HeapInvariant

/-- The rest of the kernel leaves the heap alone. -/
theorem client {s' : HeapHistory P} (inv : HeapInvariant start finish s free lost) (client : HeapClient s s') :
    HeapInvariant start finish s' free lost := by
  have hheap : ∀ page, HeapPage start finish page → s.HeapPage page := by
    intro page hpage
    rw [HeapHistory.HeapPage, show s.heap.ranges.allocator.start = start from inv.range.starts,
      show s.heap.ranges.allocator.finish = finish from inv.range.finishes]
    exact hpage
  have hframe : ∀ page, HeapPage start finish page → s'.heap.vm.frameOf page = s.heap.vm.frameOf page := fun page hpage =>
    client.frameOf page (hheap page hpage)
  refine ⟨?_, ?_, ⟨fun p f hp hf => ?_, fun p p' f hp hp' hf hf' => ?_⟩, inv.room, ?_⟩
  · refine inv.range.client ⟨client.allocator, by rw [client.live], client.pages, ?_, ?_, ?_⟩
    · exact fun page ⟨hlo, hhi, _⟩ => client.frameOf page ⟨hlo, hhi⟩
    · rintro page f ⟨hlo, hhi, hnone⟩ hf
      refine client.ram page f ⟨hlo, hhi⟩ ?_ hf
      rintro ⟨b, hb, hin⟩
      have hpos := coverage_pos (mem_blocks lost hb) (Segment.covers_iff.2 hin)
      exact absurd hnone (Nat.ne_of_gt hpos)
    · exact fun page f ⟨hlo, hhi, _⟩ hf hheld => client.held page f ⟨hlo, hhi⟩ hf hheld
  · intro b hb
    rw [client.live] at hb
    have live := inv.blocks b hb
    have hbase := (inv.inside hb).1
    obtain ⟨n, hsize, hn, hword, hround⟩ := live.header
    refine ⟨live.aligned, live.nonempty, live.fits, live.ptr, ⟨n, hsize, hn, ?_, hround⟩, fun page hpage => ?_⟩
    · obtain ⟨f, hf, -⟩ := Option.map_eq_some_iff.1 hword
      have hf' := (hframe _ (inv.heapPage hb (live.first_page hbase))).trans hf
      rw [← hword]
      exact header_of_ram hf hf' (client.headers b hb f hf)
    · obtain ⟨f, hf, hsole⟩ := live.sole page hpage
      have hheapPage := hheap page (inv.heapPage hb hpage)
      refine ⟨f, (client.frameOf page hheapPage).trans hf, client.held page f hheapPage hf hsole.toHeld, ?_⟩
      exact (client.counts page f ⟨b, hb, hpage⟩ hf).trans hsole.one
  · rw [hframe p hp] at hf
    exact client.held p f (hheap p hp) hf (inv.frames.held p f hp hf)
  · rw [hframe p hp] at hf
    rw [hframe p' hp'] at hf'
    exact inv.frames.inj p p' f hp hp' hf hf'
  · rw [client.allocator]
    exact inv.unlocked

end HeapInvariant

/-! ### Whole runs -/

/-- What a `kaligned_alloc` has done that the heap bears. -/
theorem kalignedAlloc_returns {current : P} {k size : Nat} {r : Option Nat} {heap : KernelHeap P}
    (inv : HeapInvariant start finish s free lost) (hk : 2 ^ k ≤ PAGE_SIZE)
    (guard : size = 0 ∨ Serves s (Machine.dataOffset (2 ^ k) + size))
    (hreturn : kalignedAlloc current (2 ^ k) size s.heap = .ok (r, heap)) :
    (r = none ∧ ∃ free' lost', HeapInvariant start finish { s with heap := heap } free' lost') ∨
      ∃ ptr free', r = some ptr ∧
        Allocated start finish s free lost { alignment := 2 ^ k, size := size, ptr := ptr } heap free' := by
  by_cases hzero : size = 0
  · rw [kalignedAlloc, if_pos hzero] at hreturn
    cases hreturn
    exact Or.inl ⟨rfl, free, lost, inv⟩
  · have hroom := (guard.resolve_left hzero).hasRoom inv
    obtain ⟨r', heap', halloc, hcases⟩ := kalignedAlloc_spec current inv hk (Nat.pos_of_ne_zero hzero) hroom
    rw [hreturn] at halloc
    cases halloc
    rcases hcases with ⟨rfl, hfails | ⟨addr, free', hfails⟩⟩ | hsome
    · exact Or.inl ⟨rfl, free, lost, hfails⟩
    · exact Or.inl ⟨rfl, free', _, hfails⟩
    · exact Or.inr hsome

/-- What a `krealloc` has done that the heap bears. -/
theorem krealloc_returns {current : P} {b : HeapBlock} {newSize : Nat} {r : Option Nat} {heap : KernelHeap P}
    (inv : HeapInvariant start finish s free lost) (hb : b ∈ s.live) (halign : b.alignment = HeapState.maxAlign)
    (hpos : 0 < newSize) (hserves : Serves s (Machine.dataOffset HeapState.maxAlign + newSize))
    (hround : roundUp b.realSize = roundUp (Machine.dataOffset HeapState.maxAlign + newSize))
    (hreturn : krealloc current b.ptr newSize s.heap = .ok (r, heap)) :
    (r = none ∧ ∃ free' lost', HeapInvariant start finish { s with heap := heap } free' lost') ∨
      ∃ ptr free', r = some ptr ∧ HeapInvariant start finish
        { heap := heap
          live := { alignment := HeapState.maxAlign, size := newSize, ptr := ptr } :: s.live.erase b } free' lost := by
  obtain ⟨n, hn8, hn, hword, hroundN⟩ := (inv.blocks b hb).header
  have hroom := hserves.hasRoom inv
  obtain ⟨r', heap', -, ⟨rfl, hrealloc, hfails⟩ | ⟨ptr, bytes, free₁, rfl, ready⟩⟩ :=
    krealloc_ready current inv hb hpos hroom hword
  · rw [hreturn] at hrealloc
    cases hrealloc
    rcases hfails with hfails | ⟨addr, free', hfails⟩
    · exact Or.inl ⟨rfl, free, lost, hfails⟩
    · exact Or.inl ⟨rfl, free', _, hfails⟩
  · have hle : n ≤ b.segment.2 := inv.header_le hb hword
    obtain ⟨heap₂, free', hrealloc, copied⟩ := ready.copies inv hb halign rfl hword hn8 (hle.trans (Nat.le_of_eq hround))
    rw [hreturn] at hrealloc
    cases hrealloc
    refine Or.inr ⟨ptr, free', rfl, copied.inv.claim ?_⟩
    exact copied.liveBlock rfl rfl rfl hpos hroom.1 hn8 hn (hroundN.trans hround) (Nat.le_refl _)

theorem heapInvariant_step {s' : HeapHistory P} {e : HeapEvent P}
    (inv : ∃ free lost, HeapInvariant start finish s free lost) (guard : HeapGuard s e) (step : HeapStep s e s') :
    ∃ free lost, HeapInvariant start finish s' free lost := by
  obtain ⟨free, lost, inv⟩ := inv
  cases step with
  | alloc current k size ptr heap hk _ hreturn =>
      rcases kalignedAlloc_returns inv hk guard hreturn with ⟨hnone, -⟩ | ⟨ptr', free', hsome, alloc⟩
      · cases hnone
      · cases hsome
        exact ⟨free', lost, alloc.inv⟩
  | allocFails current k size heap hk _ hreturn =>
      rcases kalignedAlloc_returns inv hk guard hreturn with ⟨-, hfails⟩ | ⟨ptr', free', hsome, -⟩
      · exact hfails
      · cases hsome
  | free current block heap hb hreturn =>
      obtain ⟨heap', free', hfree, released⟩ := kfree_spec current inv hb
      rw [hreturn] at hfree
      cases hfree
      exact ⟨free', lost, released.inv⟩
  | realloc current block newSize ptr heap hb halign hpos _ hreturn =>
      rcases krealloc_returns inv hb halign hpos guard.1 guard.2 hreturn with ⟨hnone, -⟩ | ⟨ptr', free', hsome, inv'⟩
      · cases hnone
      · cases hsome
        exact ⟨free', lost, inv'⟩
  | reallocFails current block newSize heap hb halign hpos _ hreturn =>
      rcases krealloc_returns inv hb halign hpos guard.1 guard.2 hreturn with ⟨-, hfails⟩ | ⟨ptr', free', hsome, -⟩
      · exact hfails
      · cases hsome
  | client hclient => exact ⟨free, lost, inv.client hclient⟩

/-- The invariant holds in every state of a run whose calls the heap bears. -/
theorem heapInvariant_run {t : HeapHistory P} {xs : List (Transition (HeapHistory P) (HeapEvent P))}
    (fresh : Fresh start finish vm) (hinit : (heapSystem P start finish vm).init s)
    (run : (heapSystem P start finish vm).Run s xs t) (hguard : ∀ x ∈ xs, HeapGuard x.before x.event) :
    (∃ free lost, HeapInvariant start finish t free lost) ∧
      ∀ x ∈ xs, ∃ free lost, HeapInvariant start finish x.before free lost := by
  have hfirst : ∃ free lost, HeapInvariant start finish s free lost := ⟨_, _, heapInvariant_init fresh hinit⟩
  have hkeeps : ∀ (s : HeapHistory P) (e : HeapEvent P) (s' : HeapHistory P),
      (∃ free lost, HeapInvariant start finish s free lost) → HeapGuard s e → HeapStep s e s' →
      ∃ free lost, HeapInvariant start finish s' free lost := fun _ _ _ inv guard step =>
    heapInvariant_step inv guard step
  exact ⟨run.guarded_invariant _ hkeeps hfirst hguard,
    fun x hx => (run.guarded_invariant_mem _ hkeeps hfirst hguard x hx).1⟩

/-- `kfree` of the block returns, frees the frames of its pages and makes its addresses free again. -/
def FreesExactly (current : P) (b : HeapBlock) (heap : KernelHeap P) : Prop :=
  ∃ vm heap' free free', kfree current b.ptr heap = .ok ((), heap') ∧
    pagingUnmap b.header b.realSize heap.vm = .ok ((), vm) ∧
    ReleasedPages heap.vm vm (b.header / PAGE_SIZE) (roundUp b.realSize / PAGE_SIZE) ∧
    rangeAllocatorFree current b.header b.realSize { heap.ranges with vm := vm } = .ok (.ok (), heap'.ranges) ∧
    heap.ranges.Holds free ∧ heap'.ranges.Holds free' ∧
    ∀ x, coverage free' x = coverage free x + coverage [b.segment] x

/-- The blocks that the callers have are theirs alone, their headers are found, and `kfree` takes back each of them. -/
structure HeapBlocksOk (start finish : Nat) (s : HeapHistory P) : Prop where
  aligned : ∀ b ∈ s.live, b.ptr % b.alignment = 0
  inside : ∀ b ∈ s.live, start ≤ b.header ∧ b.ptr + b.size ≤ finish
  mapped : ∀ b ∈ s.live, ∀ i, i < b.size → (s.heap.vm.byteAt (b.ptr + i)).isSome
  apart : (s.live.flatMap HeapBlock.parts).Pairwise Segment.Disjoint
  frames : ∀ b ∈ s.live, ∀ c ∈ s.live, ∀ page page' f, InBlock b.segment page → InBlock c.segment page' →
    s.heap.vm.frameOf page = some f → s.heap.vm.frameOf page' = some f → page = page'
  headers : ∀ b ∈ s.live, headerFromPtr b.ptr s.heap = .ok (b.header, s.heap) ∧
    ∃ n, s.heap.vm.header b.header = some (MAGIC, n) ∧ roundUp n = roundUp b.realSize
  freed : ∀ b ∈ s.live, ∀ current : P, FreesExactly current b s.heap

namespace HeapInvariant

theorem freesExactly (inv : HeapInvariant start finish s free lost) {b : HeapBlock} (hb : b ∈ s.live) (current : P) :
    FreesExactly current b s.heap := by
  obtain ⟨heap, free', hfree, released⟩ := kfree_spec current inv hb
  obtain ⟨vm, hunmap, hpages, hback⟩ := released.parts
  exact ⟨vm, heap, free, free', hfree, hunmap, hpages, hback, inv.range.ok.list, released.inv.range.ok.list,
    released.addresses⟩

/-- What the invariant says about the blocks. -/
theorem blocksOk (inv : HeapInvariant start finish s free lost) : HeapBlocksOk start finish s := by
  refine ⟨fun b hb => ?_, fun b hb => ?_, fun b hb i hi => ?_, inv.parts_apart, ?_, fun b hb => ⟨?_, ?_⟩,
    fun b hb current => inv.freesExactly hb current⟩
  · obtain ⟨k, hk, hle⟩ := (inv.blocks b hb).aligned
    have hheader : b.alignment ∣ b.header := by
      rw [hk]
      exact (alignment_dvd hle).trans (Nat.dvd_of_mod_eq_zero (inv.inside hb).1)
    rw [← (inv.blocks b hb).ptr, Nat.add_mod, Nat.mod_eq_zero_of_dvd hheader, (inv.blocks b hb).offset.2.2]
    simp
  · obtain ⟨-, hlo, hhi⟩ := inv.inside hb
    have hparts := inv.parts_inside hb
    have hstart : b.segment.1 = b.header := rfl
    omega
  · have live := inv.blocks b hb
    have hin : Machine.dataOffset b.alignment + i < b.segment.2 := by
      have hround := live.realSize_le
      rw [HeapBlock.realSize] at hround
      omega
    rw [← live.ptr, Nat.add_assoc]
    exact live.byteAt_isSome (LiveBlock.inBlock (inv.inside hb).1 hin)
  · intro b hb c hc page page' f hpage hpage' hf hf'
    exact inv.frames.inj page page' f (inv.heapPage hb hpage) (inv.heapPage hc hpage') hf hf'
  · have hfinish := inv.range.finish_lt
    obtain ⟨hbase, hlo, hhi⟩ := inv.inside hb
    exact headerFromPtr_eq (inv.blocks b hb) hbase (by omega)
  · obtain ⟨n, -, -, hword, hround⟩ := (inv.blocks b hb).header
    exact ⟨n, hword, hround⟩

end HeapInvariant

/-- The result of a `kaligned_alloc` is zeroed and aligned, and its header says what was asked for. -/
def ZeroedBlock (alignment size ptr : Nat) (s : HeapHistory P) : Prop :=
  ptr % alignment = 0 ∧ (∀ i, i < size → s.heap.vm.byteAt (ptr + i) = some 0) ∧
    s.heap.vm.header (ptr - Machine.dataOffset alignment) = some (MAGIC, Machine.dataOffset alignment + size)

/-- A `kaligned_alloc` that returns a block returns a zeroed one. -/
theorem zeroedBlock_step {s' : HeapHistory P} {current : P} {alignment size ptr : Nat}
    (inv : HeapInvariant start finish s free lost)
    (guard : HeapGuard s (.alloc current alignment size (some ptr)))
    (step : HeapStep s (.alloc current alignment size (some ptr)) s') : ZeroedBlock alignment size ptr s' := by
  cases step with
  | alloc _ k _ _ heap hk _ hreturn =>
      rcases kalignedAlloc_returns inv hk guard hreturn with ⟨hnone, -⟩ | ⟨ptr', free', hsome, alloc⟩
      · cases hnone
      · cases hsome
        exact ⟨alloc.inv.blocksOk.aligned _ List.mem_cons_self, alloc.zero, alloc.header⟩

/-- In every run whose calls the heap bears, the blocks are exclusive, as large as asked for and zeroed, and `kfree` of
    each of them by any process succeeds and gives back exactly that block. -/
theorem heap_blocks {s t : HeapHistory P} {xs : List (Transition (HeapHistory P) (HeapEvent P))}
    (fresh : Fresh start finish vm) (hinit : (heapSystem P start finish vm).init s)
    (run : (heapSystem P start finish vm).Run s xs t) (hguard : ∀ x ∈ xs, HeapGuard x.before x.event) :
    HeapBlocksOk start finish t ∧
      ∀ x ∈ xs, ∀ current alignment size ptr, x.event = .alloc current alignment size (some ptr) →
        ZeroedBlock alignment size ptr x.after := by
  obtain ⟨⟨free, lost, inv⟩, hbefore⟩ := heapInvariant_run fresh hinit run hguard
  constructor
  · exact inv.blocksOk
  · intro x hx current alignment size ptr hevent
    obtain ⟨free, lost, inv⟩ := hbefore x hx
    have guard := hguard x hx
    have step := run.step_of_mem x hx
    rw [hevent] at guard step
    exact zeroedBlock_step inv guard step

/-- A heap of three pages hands out a block of one. -/
theorem kalignedAlloc_three_pages :
    Yields (rangeAllocatorInit 4096 16384) ({ allocator := {}, vm := Vm.bare } : RangeState Unit)
      fun r s => r = .ok () ∧ Yields (kalignedAlloc () (2 ^ 4) 100) { ranges := s }
        fun r _ => r = some 4112 := by
  decide +kernel

/-- The block is zeroed, and can be freed. -/
theorem heap_blocks_after_alloc :
    ∃ s xs t, (heapSystem Unit 4096 16384 Vm.bare).init s ∧ (heapSystem Unit 4096 16384 Vm.bare).Run s xs t ∧
      xs.map Transition.event = [.alloc () 16 100 (some 4112)] ∧ HeapBlocksOk 4096 16384 t ∧
      ∀ x ∈ xs, ∀ current alignment size ptr, x.event = .alloc current alignment size (some ptr) →
        ZeroedBlock alignment size ptr x.after := by
  obtain ⟨_, ranges, hinit, rfl, halloc⟩ := yields_iff.1 kalignedAlloc_three_pages
  obtain ⟨_, heap, halloc, rfl⟩ := yields_iff.1 halloc
  have hsystem : (heapSystem Unit 4096 16384 Vm.bare).init { heap := { ranges := ranges }, live := [] } :=
    ⟨{}, rfl, hinit⟩
  have hfree := (heapInvariant_init Vm.bare_fresh hsystem).range.ok.list
  have hguard : HeapGuard { heap := { ranges := ranges }, live := [] } (.alloc () (2 ^ 4) 100 (some 4112)) :=
    Or.inr ⟨_, hfree, by decide, ⟨_, List.mem_singleton_self _, by decide⟩, 
      fun a h => absurd (Prod.mk.inj (List.cons.inj h).1).2 (by decide)⟩
  have run : (heapSystem Unit 4096 16384 Vm.bare).Run { heap := { ranges := ranges }, live := [] } _ _ :=
    .cons (.alloc () 4 100 4112 heap (by decide) (by decide) halloc) <| .nil _
  exact ⟨_, _, _, hsystem, run, rfl, heap_blocks Vm.bare_fresh hsystem run (by simpa using hguard)⟩

/-- A heap of one page hands it out, and has no range left, which `kfree` asserts. -/
theorem kalignedAlloc_one_page :
    Yields (rangeAllocatorInit 4096 8192) ({ allocator := {}, vm := Vm.bare } : RangeState Unit)
      fun r s => r = .ok () ∧ Yields (kalignedAlloc () (2 ^ 4) 100) { ranges := s }
        fun r s => r = some 4112 ∧ s.ranges.allocator.ranges = 0 ∧ ¬Yields (kfree () 4112) s fun _ _ => True := by
  decide +kernel

set_option synthInstance.maxSize 1024 in
/-- A request that no range can hold leaves the mutex locked, on which another process waits forever. -/
theorem kalignedAlloc_too_large :
    Yields (rangeAllocatorInit 4096 16384) ({ allocator := {}, vm := Vm.bare } : RangeState Bool)
      fun r s => r = .ok () ∧ Yields (kalignedAlloc false (2 ^ 4) 100) { ranges := s }
        fun r s => r = some 4112 ∧ Yields (kalignedAlloc false (2 ^ 4) 100000) s
          fun r s => r = none ∧ ¬Yields (kfree true 4112) s fun _ _ => True := by
  decide +kernel

/-- `kfree` fails its assertion on the only block of a heap that has been used up, and it hangs after a request for
    more than there is. -/
theorem heap_blocks_breaks :
    (∃ s xs t, (heapSystem Unit 4096 8192 Vm.bare).init s ∧ (heapSystem Unit 4096 8192 Vm.bare).Run s xs t ∧
      xs.map Transition.event = [.alloc () 16 100 (some 4112)] ∧ ¬HeapBlocksOk 4096 8192 t) ∧
    ∃ s xs t, (heapSystem Bool 4096 16384 Vm.bare).init s ∧ (heapSystem Bool 4096 16384 Vm.bare).Run s xs t ∧
      xs.map Transition.event = [.alloc false 16 100 (some 4112), .alloc false 16 100000 none] ∧
      ¬HeapBlocksOk 4096 16384 t := by
  constructor
  · obtain ⟨_, ranges, hinit, rfl, halloc⟩ := yields_iff.1 kalignedAlloc_one_page
    obtain ⟨_, heap, halloc, rfl, -, hstuck⟩ := yields_iff.1 halloc
    have hsystem : (heapSystem Unit 4096 8192 Vm.bare).init { heap := { ranges := ranges }, live := [] } :=
      ⟨{}, rfl, hinit⟩
    have run : (heapSystem Unit 4096 8192 Vm.bare).Run { heap := { ranges := ranges }, live := [] } _ _ :=
      .cons (.alloc () 4 100 4112 heap (by decide) (by decide) halloc) <| .nil _
    refine ⟨_, _, _, hsystem, run, rfl, fun ok => hstuck ?_⟩
    obtain ⟨_, heap', _, _, hfree, -⟩ := ok.freed _ List.mem_cons_self ()
    exact yields_iff.2 ⟨(), heap', hfree, trivial⟩
  · obtain ⟨_, ranges, hinit, rfl, halloc⟩ := yields_iff.1 kalignedAlloc_too_large
    obtain ⟨_, heap, halloc, rfl, hlarge⟩ := yields_iff.1 halloc
    obtain ⟨_, heap₁, hlarge, rfl, hstuck⟩ := yields_iff.1 hlarge
    have hsystem : (heapSystem Bool 4096 16384 Vm.bare).init { heap := { ranges := ranges }, live := [] } :=
      ⟨{}, rfl, hinit⟩
    have run : (heapSystem Bool 4096 16384 Vm.bare).Run { heap := { ranges := ranges }, live := [] } _ _ :=
      .cons (.alloc false 4 100 4112 heap (by decide) (by decide) halloc) <|
      .cons (.allocFails false 4 100000 heap₁ (by decide) (by decide) hlarge) <| .nil _
    refine ⟨_, _, _, hsystem, run, rfl, fun ok => hstuck ?_⟩
    obtain ⟨_, heap', _, _, hfree, -⟩ := ok.freed _ List.mem_cons_self true
    exact yields_iff.2 ⟨(), heap', hfree, trivial⟩

end Chaotix
