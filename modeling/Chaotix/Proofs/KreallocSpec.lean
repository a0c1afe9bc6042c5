/-
Module: Chaotix.Proofs.KreallocSpec
Layer: Proofs
Purpose: What `krealloc` does when the block it copies fits into the new one. The copy takes the header along, so the new
  block ends up with the size of the old one in its header: it is a block of its own only when both sizes fill as many
  pages.
Imports: Mathlib.Tactic, Chaotix.Proofs.KmallocCalls
Trusted boundary: none
Main exports: BlockCopied, BlockCopied.liveBlock, krealloc_ready, CopyReady.copies
-/
import Mathlib.Tactic
import Chaotix.Proofs.KmallocCalls

open Program

namespace Chaotix

variable {P : Type} {start finish : Nat} {s : HeapHistory P} {free free' lost : List Segment}

/-- The header of a page outside the ranges is as it was. -/
theorem WorksOn.header {ranges : List Segment} {vm vm' : Vm} (h : WorksOn start finish ranges vm vm') {a : Nat}
    (hpage : HeapPage start finish (a / PAGE_SIZE)) (hout : ¬InRanges ranges (a / PAGE_SIZE)) :
    vm'.header a = vm.header a :=
  header_congr (h.frameOf _ hout) fun f hf => h.ram f ⟨_, hpage, hout, hf⟩

namespace LiveBlock

variable {vm : Vm} {b : HeapBlock}

/-- The pages of a block are mapped. -/
theorem byteAt_isSome (h : LiveBlock vm b) {a : Nat} (hin : InBlock b.segment (a / PAGE_SIZE)) :
    (vm.byteAt a).isSome := by
  obtain ⟨f, hf, -⟩ := h.sole _ hin
  rw [Vm.byteAt, hf]
  rfl

/-- The page of a byte of the block. -/
theorem inBlock (hbase : b.header % PAGE_SIZE = 0) {i : Nat} (hi : i < b.segment.2) :
    InBlock b.segment ((b.header + i) / PAGE_SIZE) := by
  have hmod := roundUp_mod b.realSize
  simp only [InBlock, HeapBlock.segment, PAGE_SIZE] at hbase hmod hi ⊢
  omega

theorem first_page (h : LiveBlock vm b) (hbase : b.header % PAGE_SIZE = 0) :
    InBlock b.segment (b.header / PAGE_SIZE) := by
  have hin := inBlock hbase h.segment_pos
  rwa [Nat.add_zero] at hin

end LiveBlock

namespace HeapInvariant

/-- The size in the header of a block is at most that of its pages. -/
theorem header_le (inv : HeapInvariant start finish s free lost) {b : HeapBlock} {n : Nat} (hb : b ∈ s.live)
    (hn : s.heap.vm.header b.header = some (MAGIC, n)) : n ≤ b.segment.2 := by
  obtain ⟨n', -, hlt, hword, hround⟩ := (inv.blocks b hb).header
  obtain rfl : n = n' := (Prod.mk.inj (Option.some.inj (hn.symm.trans hword))).2
  have hpos := (inv.blocks b hb).segment_pos
  rw [HeapBlock.segment, ← hround] at hpos ⊢
  apply le_roundUp
  -- a larger size would round to nothing
  by_contra hlarge
  simp only [roundUp, wordSize, PAGE_SIZE] at hpos hlarge hlt
  omega

/-- A lost block meets neither the free ranges nor another block. -/
theorem lost_apart (inv : HeapInvariant start finish s free lost) {b : HeapBlock} (hb : b ∈ s.live) {block : Segment}
    (hblock : block ∈ lost) {page : Nat} (hpage : InBlock block page) :
    HeapPage start finish page ∧ ¬InRanges (b.segment :: free) page := by
  obtain ⟨-, -, hlo, hhi⟩ := inv.inside_lost hblock
  refine ⟨⟨hlo.trans hpage.1, Nat.lt_of_lt_of_le hpage.2 hhi⟩, ?_⟩
  rintro ⟨r, hr, hin⟩
  rcases List.mem_cons.1 hr with rfl | hr
  · exact inv.not_lost hb hin hblock hpage
  · have hmem : block ∈ s.live.map HeapBlock.segment ++ lost := List.mem_append_right _ hblock
    exact inv.range.tiles.disjoint hr hmem (page * PAGE_SIZE) ⟨Segment.covers_iff.2 hin, Segment.covers_iff.2 hpage⟩

/-- A `memcpy` to the front of a lost block. -/
theorem copyLost (inv : HeapInvariant start finish s free lost) {addr size : Nat}
    (hblock : (addr, roundUp size) ∈ lost)
    (hsole : ∀ page, InBlock (addr, roundUp size) page → ∃ f, s.heap.vm.frameOf page = some f ∧
      s.heap.vm.pages.Sole f) {bytes : List UInt8} (hlen : bytes.length ≤ roundUp size) :
    ∃ vm', storeBytes addr bytes s.heap.vm = .ok ((), vm') ∧
      WorksOn start finish [(addr, roundUp size)] s.heap.vm vm' ∧ vm' = { s.heap.vm with ram := vm'.ram } ∧
      (∀ i, i < bytes.length → vm'.byteAt (addr + i) = bytes[i]?) ∧
      ∀ i, bytes.length ≤ i → i < roundUp size → vm'.byteAt (addr + i) = s.heap.vm.byteAt (addr + i) := by
  have hpages := inv.blockPages hblock hsole
  have hmul := roundUp_mul size
  have hle : 0 + bytes.length ≤ roundUp size / PAGE_SIZE * PAGE_SIZE := by
    rw [hmul, Nat.zero_add]
    exact hlen
  obtain ⟨vm', hstore, stored⟩ := hpages.storeBytes hle
  have hleaves := ensures_iff.1 (hpages.storeBytes_leaves (inv.worksOn_lost hblock)
    (by rw [hmul]; exact fun p hp => not_not.2 (inRanges_singleton.2 hp)) hle) _ _ hstore
  refine ⟨vm', hstore, hleaves, stored.onlyRam, stored.inside, fun i hlo hhi => ?_⟩
  have hin := hpages.page (i := i) (by rwa [hmul])
  exact stored.outside _ hin.1 hin.2 (Or.inr (by omega))

end HeapInvariant

/-! ### The copy -/

/-- What a `krealloc` has made of the heap that has copied `n` bytes, as the header of the old block says, into the
    new block `q`. The new block is a lost one here: whether `kfree` finds all of it depends on its header. -/
structure BlockCopied (start finish : Nat) (s : HeapHistory P) (free lost : List Segment) (b q : HeapBlock) (n : Nat)
    (heap : KernelHeap P) (free' : List Segment) : Prop where
  inv : HeapInvariant start finish { heap := heap, live := s.live.erase b } free' (q.segment :: lost)
  ptr : q.header + Machine.dataOffset q.alignment = q.ptr
  fits : q.realSize ≤ wordSize - PAGE_SIZE
  sole : ∀ page, InBlock q.segment page → ∃ f, heap.vm.frameOf page = some f ∧ heap.vm.pages.Sole f
  header : heap.vm.header q.header = some (MAGIC, n)
  bytes : ∀ i, i < q.size → heap.vm.byteAt (q.ptr + i) =
    if Machine.dataOffset HeapState.maxAlign + i < n then s.heap.vm.byteAt (b.ptr + i) else some 0
  works : WorksOn start finish (b.segment :: free) s.heap.vm heap.vm
  addresses : ∀ x, coverage free' x + coverage [q.segment] x = coverage free x + coverage [b.segment] x
  writes : heap.writes = { vaddr := q.header, len := n, block := q.segment } ::
    { vaddr := q.ptr, len := q.size, block := q.segment } :: s.heap.writes

/-- A block at the pointer that has been returned, if the size in its header fills as many pages as its own size. -/
theorem BlockCopied.liveBlock {b q c : HeapBlock} {n : Nat} {heap : KernelHeap P}
    (h : BlockCopied start finish s free lost b q n heap free') (halign : c.alignment = HeapState.maxAlign)
    (halignQ : q.alignment = HeapState.maxAlign) (hptr : c.ptr = q.ptr) (hpos : 0 < c.size)
    (hfits : c.realSize ≤ wordSize - PAGE_SIZE) (hn8 : Machine.headerSize ≤ n) (hn : n < wordSize)
    (hround : roundUp n = roundUp c.realSize) (hle : roundUp c.realSize ≤ roundUp q.realSize) :
    LiveBlock heap.vm c := by
  have hheader : c.header = q.header := by rw [HeapBlock.header, HeapBlock.header, halign, halignQ, hptr]
  refine ⟨⟨4, halign, by decide⟩, hpos, hfits, ?_, ⟨n, hn8, hn, ?_, hround⟩, fun page hpage => ?_⟩
  · rw [hheader, halign, hptr, ← h.ptr, halignQ]
  · rw [hheader]
    exact h.header
  · obtain ⟨hlo, hhi⟩ := hpage
    rw [HeapBlock.segment, hheader] at hlo hhi
    exact h.sole page ⟨hlo, Nat.lt_of_lt_of_le hhi (Nat.add_le_add_left hle _)⟩

variable [DecidableEq P]

theorem kmalloc_spec (current : P) (inv : HeapInvariant start finish s free lost) {size : Nat} (hpos : 0 < size)
    (hroom : HasRoom free (Machine.dataOffset HeapState.maxAlign + size)) :
    ∃ r heap, kmalloc current size s.heap = .ok (r, heap) ∧
      ((r = none ∧ AllocFails start finish s free lost (Machine.dataOffset HeapState.maxAlign + size) heap) ∨
      ∃ ptr free', r = some ptr ∧
        Allocated start finish s free lost { alignment := HeapState.maxAlign, size := size, ptr := ptr } heap free') :=
  kalignedAlloc_spec current inv (k := 4) (by decide) hpos hroom

/-- The moment before the copy: the new block `q` is there, and the bytes of the old one have been read, as many as its
    header says. -/
structure CopyReady (start finish : Nat) (current : P) (s : HeapHistory P) (free lost : List Segment) (b q : HeapBlock)
    (n : Nat) (bytes : List UInt8) (heap : KernelHeap P) (free' : List Segment) : Prop where
  alloc : Allocated start finish s free lost q heap free'
  length : bytes.length = n
  read : ∀ i, i < n → bytes[i]? = s.heap.vm.byteAt (b.header + i)
  run : krealloc current b.ptr q.size s.heap = (do
    writeBlock q.segment q.header bytes
    kfree current b.ptr
    return some q.ptr : Kernel (KernelHeap P) (Option Nat)) heap

theorem krealloc_ready (current : P) (inv : HeapInvariant start finish s free lost) {b : HeapBlock} {n newSize : Nat}
    (hb : b ∈ s.live) (hpos : 0 < newSize) (hroom : HasRoom free (Machine.dataOffset HeapState.maxAlign + newSize))
    (hn : s.heap.vm.header b.header = some (MAGIC, n)) :
    ∃ r heap, kmalloc current newSize s.heap = .ok (r, heap) ∧
      ((r = none ∧ krealloc current b.ptr newSize s.heap = .ok (none, heap) ∧
        AllocFails start finish s free lost (Machine.dataOffset HeapState.maxAlign + newSize) heap) ∨
      ∃ ptr bytes free', r = some ptr ∧ CopyReady start finish current s free lost b
        { alignment := HeapState.maxAlign, size := newSize, ptr := ptr } n bytes heap free') := by
  have live := inv.blocks b hb
  obtain ⟨hbase, hlo, hhi⟩ := inv.inside hb
  have hfinish := inv.range.finish_lt
  have hlt : b.header < wordSize := by omega
  have hne := inv.ptr_ne_zero hb
  have hnew : ¬newSize = 0 := by omega
  have hheader := headerFromPtr_eq live hbase hlt
  obtain ⟨r, heap, halloc, ⟨rfl, hfails⟩ | ⟨ptr, free', rfl, alloc⟩⟩ := kmalloc_spec current inv hpos hroom
  · refine ⟨none, heap, halloc, Or.inl ⟨rfl, ?_, hfails⟩⟩
    simp only [krealloc, if_neg hne, if_neg hnew, Program.run_bind, hheader, halloc, Program.run_pure]
  refine ⟨some ptr, heap, halloc, Or.inr ?_⟩
  generalize hq : ({ alignment := HeapState.maxAlign, size := newSize, ptr := ptr } : HeapBlock) = q at alloc
  have hptrQ : q.ptr = ptr := by rw [← hq]
  have inv₁ := alloc.inv
  have liveQ : LiveBlock heap.vm q := inv₁.blocks q List.mem_cons_self
  obtain ⟨hbaseQ, hloQ, hhiQ⟩ := inv₁.inside (b := q) List.mem_cons_self
  have hheaderQ : headerFromPtr ptr heap = .ok (q.header, heap) := by
    rw [← hptrQ]
    exact headerFromPtr_eq liveQ hbaseQ (by omega)
  -- the old block is as it was
  have hold : ∀ page, InBlock b.segment page → HeapPage start finish page ∧ ¬InRanges free page := fun page hpage =>
    ⟨inv.heapPage hb hpage, inv.not_free hb hpage⟩
  have hfirst := live.first_page hbase
  obtain ⟨f, hf, hpair⟩ := Option.map_eq_some_iff.1
    ((alloc.works.header (hold _ hfirst).1 (hold _ hfirst).2).trans hn)
  have hsize : onHeapVm (load32 (sizeField b.header)) heap = .ok (n, heap) := by
    have hnext := load32_next ⟨hbase, hlt⟩ hf
    rw [(Prod.mk.inj hpair).2] at hnext
    exact run_onHeapVm hnext
  have hnle := inv.header_le hb hn
  have liveB : LiveBlock heap.vm b := inv₁.blocks b (List.mem_cons_of_mem q hb)
  obtain ⟨bytes, hload, hlen, hbytes⟩ := loadBytes_eq heap.vm b.header n (by omega) fun i hi =>
    liveB.byteAt_isSome (LiveBlock.inBlock hbase (by omega))
  have hload' : onHeapVm (loadBytes b.header n) heap = .ok (bytes, heap) := run_onHeapVm hload
  have hsegment : (q.header, roundUp ((Machine.dataOffset HeapState.maxAlign + newSize) % wordSize)) = q.segment := by
    rw [Nat.mod_eq_of_lt (Nat.lt_of_le_of_lt hroom.1 (by decide)), ← hq]
    rfl
  refine ⟨ptr, bytes, free', rfl, ?_⟩
  rw [hq]
  refine ⟨alloc, hlen, fun i hi => ?_, ?_⟩
  · have hpage := hold _ (LiveBlock.inBlock hbase (show i < b.segment.2 by omega))
    rw [hbytes i hi, alloc.works.byteAt hpage.1 hpage.2]
  · rw [show q.size = newSize by rw [← hq], hptrQ]
    simp only [krealloc, if_neg hne, if_neg hnew, Program.run_bind, hheader, halloc, hheaderQ, hsize, hload', hsegment,
      Program.run_pure]

/-- A copy that fits into the new block. -/
theorem CopyReady.copies {current : P} {b q : HeapBlock} {n : Nat} {bytes : List UInt8} {heap₁ : KernelHeap P}
    {free₁ : List Segment} (ready : CopyReady start finish current s free lost b q n bytes heap₁ free₁)
    (inv : HeapInvariant start finish s free lost) (hb : b ∈ s.live) (halign : b.alignment = HeapState.maxAlign)
    (halignQ : q.alignment = HeapState.maxAlign) (hn : s.heap.vm.header b.header = some (MAGIC, n))
    (hn8 : Machine.headerSize ≤ n) (hle : n ≤ roundUp q.realSize) :
    ∃ heap free', krealloc current b.ptr q.size s.heap = .ok (some q.ptr, heap) ∧
      BlockCopied start finish s free lost b q n heap free' := by
  have live := inv.blocks b hb
  have alloc := ready.alloc
  have inv₁ := alloc.inv
  have liveQ : LiveBlock heap₁.vm q := inv₁.blocks q List.mem_cons_self
  have hbase := (inv.inside hb).1
  have hbaseQ := (inv₁.inside (b := q) List.mem_cons_self).1
  -- the new block is a lost one while it is written, and it stays one
  have inv₂ : HeapInvariant start finish { heap := heap₁, live := s.live } free₁ (q.segment :: lost) :=
    inv₁.surrender (List.Perm.refl _)
  have hblock : (q.header, roundUp q.realSize) ∈ q.segment :: lost := List.mem_cons_self
  have hlen := ready.length
  obtain ⟨vm₂, hstore, works₂, hram, hcopied, hbehind⟩ := inv₂.copyLost hblock liveQ.sole (hlen ▸ hle)
  let heap₂ : KernelHeap P :=
    { ranges := { heap₁.ranges with vm := vm₂ }
      writes := { vaddr := q.header, len := bytes.length, block := q.segment } :: heap₁.writes }
  have hwrite : writeBlock q.segment q.header bytes heap₁ = .ok ((), heap₂) := by
    simp only [writeBlock, Program.run_bind, Program.run_modify]
    exact run_onHeapVm hstore
  have hsub : ∀ r ∈ [q.segment], r ∈ q.segment :: lost := fun r hr =>
    List.mem_cons.2 (Or.inl (List.mem_singleton.1 hr))
  have inv₃ : HeapInvariant start finish { heap := heap₂, live := s.live } free₁ (q.segment :: lost) :=
    inv₂.workOnLost hsub works₂ (by rw [hram]; exact inv₂.range.ok.pages) (inv₂.frames.setRam hram) heap₂.writes
  obtain ⟨heap₃, free', hfree, released⟩ := kfree_spec current inv₃ hb
  have hapart : ∀ page, InBlock q.segment page → HeapPage start finish page ∧ ¬InRanges (b.segment :: free₁) page :=
    fun page hpage => inv₃.lost_apart hb List.mem_cons_self hpage
  have hrun : krealloc current b.ptr q.size s.heap = .ok (some q.ptr, heap₃) := by
    rw [ready.run]
    simp only [Program.run_bind, hwrite, hfree, Program.run_pure]
  have hcopy : ∀ i, i < n → vm₂.byteAt (q.header + i) = s.heap.vm.byteAt (b.header + i) := fun i hi =>
    (hcopied i (by omega)).trans (ready.read i hi)
  refine ⟨heap₃, free', hrun, released.inv, liveQ.ptr, liveQ.fits, ?_, ?_, ?_, ?_, ?_, ?_⟩
  · intro page hpage
    obtain ⟨g, hg, hsole⟩ := liveQ.sole page hpage
    obtain ⟨hheap, hout⟩ := hapart page hpage
    have hg₂ : vm₂.frameOf page = some g := (congrFun (frameOf_of_ram hram) page).trans hg
    have hsole₂ : vm₂.pages.Sole g := by rwa [hram]
    exact ⟨g, (released.works.frameOf page hout).trans hg₂, released.works.sole ⟨page, hheap, hout, hg₂⟩ hsole₂⟩
  · obtain ⟨hheap, hout⟩ := hapart _ (liveQ.first_page hbaseQ)
    rw [released.works.header hheap hout, ← hn]
    obtain ⟨f, hf, -⟩ := Option.map_eq_some_iff.1 hn
    obtain ⟨g, hg, -⟩ := liveQ.sole _ (liveQ.first_page hbaseQ)
    exact header_of_bytes hbase hbaseQ hf ((congrFun (frameOf_of_ram hram) _).trans hg) fun i hi =>
      hcopy i (Nat.lt_of_lt_of_le hi hn8)
  · intro i hi
    have hoffset : q.ptr + i = q.header + (Machine.dataOffset HeapState.maxAlign + i) := by
      rw [← liveQ.ptr, halignQ, Nat.add_assoc]
    have hoffsetB : b.ptr + i = b.header + (Machine.dataOffset HeapState.maxAlign + i) := by
      rw [← live.ptr, halign, Nat.add_assoc]
    have hlt : Machine.dataOffset HeapState.maxAlign + i < q.segment.2 := by
      have hround := liveQ.realSize_le
      rw [HeapBlock.realSize, halignQ] at hround
      exact Nat.lt_of_lt_of_le (Nat.add_lt_add_left hi _) hround
    obtain ⟨hheap, hout⟩ := hapart _ (LiveBlock.inBlock hbaseQ hlt)
    rw [hoffset, released.works.byteAt hheap hout]
    change vm₂.byteAt _ = _
    split
    · rename_i hin
      rw [hcopy _ hin, hoffsetB]
    · rename_i hbeyond
      rw [hbehind _ (by omega) hlt, ← hoffset]
      exact alloc.zero i hi
  · have htaken : ∀ page, InRanges [q.segment] page → InRanges (b.segment :: free) page := by
      intro page hpage
      obtain ⟨r, hr, hin⟩ := alloc.taken page (inRanges_singleton.1 hpage)
      exact ⟨r, List.mem_cons_of_mem _ hr, hin⟩
    have hfree : ∀ page, InRanges free page → InRanges (b.segment :: free) page := by
      rintro page ⟨r, hr, hin⟩
      exact ⟨r, List.mem_cons_of_mem _ hr, hin⟩
    have hrest : ∀ page, InRanges (b.segment :: free₁) page → InRanges (b.segment :: free) page := by
      rintro page ⟨r, hr, hin⟩
      rcases List.mem_cons.1 hr with rfl | hr
      · exact ⟨_, List.mem_cons_self, hin⟩
      · exact hfree page ((HeapInvariant.inRanges_of_tiles inv.range.tiles inv₁.range.tiles page).2 (Or.inl ⟨r, hr, hin⟩))
    exact (((inv.worksOn_block hb).trans alloc.works hfree).trans works₂ htaken).trans released.works hrest
  · intro x
    have hnew := released.addresses x
    have htaken : coverage free x = coverage free₁ x + coverage [q.segment] x :=
      inv.range.tiles.coverage_taken inv₁.range.tiles x
    omega
  · rw [released.writes, ← hlen]
    exact congrArg _ alloc.writes

end Chaotix
