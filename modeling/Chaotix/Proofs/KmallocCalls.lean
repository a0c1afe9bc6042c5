/-
Module: Chaotix.Proofs.KmallocCalls
Layer: Proofs
Purpose: What `kaligned_alloc` and `kfree` do to the block they are about, to the other blocks, and to the free ranges.
  A block that is being made or taken apart counts as a lost one: it belongs to nobody, and work on it is free.
Imports: Mathlib.Tactic, Chaotix.Proofs.KmallocSpec
Trusted boundary: none
Main exports: fillBlock_eq, HeapInvariant.workOnLost, kalignedAlloc_spec, headerFromPtr_eq, kfree_spec
-/
import Mathlib.Tactic
import Chaotix.Proofs.KmallocSpec

open Program

namespace Chaotix

/-! ### The bytes of a block -/

section Bytes

variable {vm vm' : Vm}

/-- A header is the first bytes of a frame. -/
theorem header_of_ram {a a' f f' : Nat} (hf : vm.frameOf (a / PAGE_SIZE) = some f)
    (hf' : vm'.frameOf (a' / PAGE_SIZE) = some f')
    (hram : ∀ i, i < Machine.headerSize → vm'.ram f' i = vm.ram f i) : vm'.header a' = vm.header a := by
  have hword : ∀ off, off + 4 ≤ Machine.headerSize → vm'.word f' off = vm.word f off := by
    intro off hoff
    rw [Vm.word, Vm.word, hram off (by omega), hram (off + 1) (by omega), hram (off + 2) (by omega),
      hram (off + 3) (by omega)]
  rw [header_of_mapped hf', header_of_mapped hf, hword 0 (by decide), hword 4 (by decide)]

/-- A header is its own bytes. -/
theorem header_of_bytes {a a' f f' : Nat} (hbase : a % PAGE_SIZE = 0) (hbase' : a' % PAGE_SIZE = 0)
    (hf : vm.frameOf (a / PAGE_SIZE) = some f) (hf' : vm'.frameOf (a' / PAGE_SIZE) = some f')
    (hbytes : ∀ i, i < Machine.headerSize → vm'.byteAt (a' + i) = vm.byteAt (a + i)) :
    vm'.header a' = vm.header a := by
  have hbyte : ∀ {vm : Vm} {a f i : Nat}, a % PAGE_SIZE = 0 → vm.frameOf (a / PAGE_SIZE) = some f →
      i < Machine.headerSize → vm.byteAt (a + i) = some (vm.ram f i) := by
    intro vm a f i hbase hf hi
    have hdiv : (a + i) / PAGE_SIZE = a / PAGE_SIZE := by
      simp only [PAGE_SIZE, Machine.headerSize] at hbase hi ⊢
      omega
    have hmod : (a + i) % PAGE_SIZE = i := by
      simp only [PAGE_SIZE, Machine.headerSize] at hbase hi ⊢
      omega
    rw [Vm.byteAt, hdiv, hmod, hf, Option.map_some]
  refine header_of_ram hf hf' fun i hi => ?_
  have heq := hbytes i hi
  rw [hbyte hbase' hf' hi, hbyte hbase hf hi] at heq
  exact Option.some.inj heq

/-- The pages of a block that has been mapped. -/
structure BlockPages (vm : Vm) (addr n : Nat) : Prop where
  base : PageAddr addr
  lt : addr + n * PAGE_SIZE < wordSize
  pos : 0 < n
  mapped : ∀ p, addr / PAGE_SIZE ≤ p → p < addr / PAGE_SIZE + n → (vm.frameOf p).isSome
  distinct : PagesDistinct vm (addr / PAGE_SIZE) n

namespace BlockPages

variable {addr n : Nat}

theorem congr (h : BlockPages vm addr n) (hframe : vm'.frameOf = vm.frameOf) : BlockPages vm' addr n := by
  refine ⟨h.base, h.lt, h.pos, ?_, ?_⟩
  · rw [hframe]
    exact h.mapped
  · rw [PagesDistinct, hframe]
    exact h.distinct

theorem page (h : BlockPages vm addr n) {i : Nat} (hi : i < n * PAGE_SIZE) :
    addr / PAGE_SIZE ≤ (addr + i) / PAGE_SIZE ∧ (addr + i) / PAGE_SIZE < addr / PAGE_SIZE + n := by
  have hbase := h.base.base
  simp only [PAGE_SIZE] at hbase hi ⊢
  omega

/-- The page of a byte of the block lies in it. -/
theorem inBlock (h : BlockPages vm addr n) {i : Nat} (hi : i < n * PAGE_SIZE) :
    InBlock (addr, n * PAGE_SIZE) ((addr + i) / PAGE_SIZE) := by
  have hbase := h.base.base
  simp only [InBlock, PAGE_SIZE] at hbase hi ⊢
  omega

/-- Bytes written into the block. -/
theorem storeBytes (h : BlockPages vm addr n) {offset : Nat} {bytes : List UInt8}
    (hle : offset + bytes.length ≤ n * PAGE_SIZE) :
    ∃ vm', Chaotix.storeBytes (addr + offset) bytes vm = .ok ((), vm') ∧
      Stored vm vm' (addr + offset) bytes (addr / PAGE_SIZE) n := by
  have hlt := h.lt
  apply storeBytes_eq
  · omega
  · intro i hi
    rw [Nat.add_assoc]
    exact h.page (by omega)
  · exact h.mapped
  · exact h.distinct

theorem storeBytes_leaves (h : BlockPages vm addr n) {offset : Nat} {bytes : List UInt8} {pages frames : Nat → Prop}
    {vm₀ : Vm} (hleaves : Leaves pages frames vm₀ vm) (hout : ∀ p, InBlock (addr, n * PAGE_SIZE) p → ¬pages p)
    (hle : offset + bytes.length ≤ n * PAGE_SIZE) :
    Ensures (Chaotix.storeBytes (addr + offset) bytes) vm fun _ vm' => Leaves pages frames vm₀ vm' := by
  have hlt := h.lt
  have hpos : 0 < n * PAGE_SIZE := Nat.mul_pos h.pos (by decide)
  apply Chaotix.storeBytes_leaves hleaves
  · simp only [wordSize, PAGE_SIZE] at hlt hpos hle ⊢
    omega
  · intro i hi
    rw [Nat.mod_eq_of_lt (by omega), Nat.add_assoc]
    exact hout _ (h.inBlock (by omega))

end BlockPages

/-- The header of a block and the zeros behind it, as `kaligned_alloc` writes them. -/
theorem fillBlock_eq {addr n offset size : Nat} (h : BlockPages vm addr n) {realSize : Nat} (hreal : realSize < wordSize)
    (hoffset : Machine.headerSize ≤ offset) (hle : offset + size ≤ n * PAGE_SIZE) :
    ∃ vm₁ vm₂ vm₃, store32 addr MAGIC vm = .ok ((), vm₁) ∧ store32 (sizeField addr) realSize vm₁ = .ok ((), vm₂) ∧
      storeBytes (addr + offset) (List.replicate size 0) vm₂ = .ok ((), vm₃) ∧ vm₃ = { vm with ram := vm₃.ram } ∧
      vm₃.header addr = some (MAGIC, realSize) ∧ (∀ i, i < size → vm₃.byteAt (addr + offset + i) = some 0) ∧
      ∀ {pages frames : Nat → Prop} {vm₀ : Vm}, Leaves pages frames vm₀ vm →
        (∀ p, InBlock (addr, n * PAGE_SIZE) p → ¬pages p) → Leaves pages frames vm₀ vm₃ := by
  have hpos : 0 < n * PAGE_SIZE := Nat.mul_pos h.pos (by decide)
  have hfirst := h.page hpos
  rw [Nat.add_zero] at hfirst
  obtain ⟨f, hf⟩ := Option.isSome_iff_exists.1 (h.mapped _ hfirst.1 hfirst.2)
  have hmagic := store32_size h.base hf MAGIC
  have hf₁ : (vm.putWord f 0 MAGIC).frameOf (addr / PAGE_SIZE) = some f := hf
  have hsize := store32_next h.base hf₁ realSize
  have hf₂ : ((vm.putWord f 0 MAGIC).putWord f 4 realSize).frameOf (addr / PAGE_SIZE) = some f := hf
  have h₂ : BlockPages ((vm.putWord f 0 MAGIC).putWord f 4 realSize) addr n := h.congr rfl
  have hlen : offset + (List.replicate size (0 : UInt8)).length ≤ n * PAGE_SIZE := by rwa [List.length_replicate]
  obtain ⟨vm₃, hzero, stored⟩ := h₂.storeBytes hlen
  have hheader : ((vm.putWord f 0 MAGIC).putWord f 4 realSize).header addr = some (MAGIC, realSize) := by
    rw [header_of_mapped hf₂, Vm.word_putWord _ f 4 hreal,
      Vm.word_putWord_of_same _ f 4 0 realSize (by decide), Vm.word_putWord _ f 0 (by decide)]
  refine ⟨_, _, vm₃, hmagic, hsize, hzero, ?_, ?_, ?_, ?_⟩
  · rw [stored.onlyRam]
    rfl
  · rw [← hheader]
    have hf₃ := (congrFun (frameOf_of_ram stored.onlyRam) _).trans hf₂
    refine header_of_bytes h.base.base h.base.base hf₂ hf₃ fun i hi => ?_
    have hin := h.page (i := i) (Nat.lt_of_lt_of_le hi (by omega))
    exact stored.outside _ hin.1 hin.2 (Or.inl (by omega))
  · intro i hi
    rw [stored.inside i (by rwa [List.length_replicate]), List.getElem?_replicate, if_pos hi]
  · intro pages frames vm₀ hleaves hout
    have hpage : ¬pages (addr / PAGE_SIZE) := by
      have := hout _ (h.inBlock hpos)
      rwa [Nat.add_zero] at this
    have h₁ := ensures_iff.1 (store32_leaves hleaves hpage h.base.lt (by rw [h.base.base]; decide) MAGIC) _ _ hmagic
    obtain ⟨hnext, hdiv, hmod⟩ := h.base.next
    change Chaotix.store32 (nextField addr) realSize _ = _ at hsize
    have hlt := h.lt
    have hpage₂ : ¬pages (nextField addr / PAGE_SIZE) := by rwa [hnext, hdiv]
    have h₂' := ensures_iff.1 (store32_leaves h₁ hpage₂
      (by rw [hnext]; simp only [PAGE_SIZE] at hlt hpos; omega) (by rw [hnext, hmod]; decide) realSize) _ _ hsize
    exact ensures_iff.1 (h₂.storeBytes_leaves h₂' hout hlen) _ _ hzero

end Bytes

/-! ### Work on lost blocks -/

section Heap

variable {P : Type} {start finish : Nat} {s : HeapHistory P} {free lost : List Segment}

/-- The blocks in another order. -/
theorem RangeInvariant.perm {H : RangeHistory P} {blocks : List Segment} (inv : RangeInvariant start finish H free)
    (hperm : H.blocks.Perm blocks) : RangeInvariant start finish { H with blocks := blocks } free := by
  refine ⟨inv.starts, inv.finishes, inv.start_pos, inv.finish_lt, inv.ok, ?_, ?_, inv.level_lt, inv.level_zero⟩
  · intro x
    have htiles := inv.tiles x
    rw [coverage_append] at htiles ⊢
    rw [← coverage_perm hperm x, htiles]
  · exact fun b hb => inv.blocks b (hperm.mem_iff.2 hb)

theorem inRanges_singleton {block : Segment} {page : Nat} : InRanges [block] page ↔ InBlock block page := by
  simp [InRanges]

theorem roundUp_mul (size : Nat) : roundUp size / PAGE_SIZE * PAGE_SIZE = roundUp size :=
  Nat.div_mul_cancel (Nat.dvd_of_mod_eq_zero (roundUp_mod size))

theorem inBlock_pages {addr size : Nat} (hbase : addr % PAGE_SIZE = 0) {page : Nat} :
    InBlock (addr, roundUp size) page ↔
      addr / PAGE_SIZE ≤ page ∧ page < addr / PAGE_SIZE + roundUp size / PAGE_SIZE := by
  have hmod := roundUp_mod size
  simp only [InBlock, PAGE_SIZE] at hbase hmod ⊢
  omega

/-- The pages of a block are the ones that a function on its range touches. -/
theorem outside_block {addr size : Nat} (hbase : addr % PAGE_SIZE = 0) (hlt : addr + roundUp size < wordSize) :
    Outside (fun page => ¬InRanges [(addr, roundUp size)] page) addr size := by
  intro i hi hout
  have hmod := roundUp_mod size
  apply hout
  rw [inRanges_singleton, inBlock_pages hbase, Nat.mod_eq_of_lt]
  · simp only [PAGE_SIZE] at hbase hi ⊢
    omega
  · simp only [PAGE_SIZE] at hbase hmod hi ⊢
    omega

namespace HeapInvariant

/-- A block whose caller has given it up. -/
theorem surrender {b : HeapBlock} {live : List HeapBlock} (inv : HeapInvariant start finish s free lost)
    (hperm : s.live.Perm (b :: live)) :
    HeapInvariant start finish { s with live := live } free (b.segment :: lost) := by
  have hsegments := (hperm.map HeapBlock.segment).append_right lost
  refine ⟨inv.range.perm (hsegments.trans ?_), fun c hc => ?_, inv.frames, inv.room, inv.unlocked⟩
  · rw [List.map_cons]
    exact List.perm_middle.symm
  · exact inv.blocks c (hperm.mem_iff.2 (List.mem_cons_of_mem b hc))

/-- A lost block that a caller gets. -/
theorem claim {b : HeapBlock} (inv : HeapInvariant start finish s free (b.segment :: lost))
    (live : LiveBlock s.heap.vm b) : HeapInvariant start finish { s with live := b :: s.live } free lost := by
  refine ⟨inv.range.perm ?_, fun c hc => ?_, inv.frames, inv.room, inv.unlocked⟩
  · rw [List.map_cons]
    exact List.perm_middle
  · rcases List.mem_cons.1 hc with rfl | hc
    · exact live
    · exact inv.blocks c hc

/-- A block does not meet a lost one. -/
theorem not_lost (inv : HeapInvariant start finish s free lost) {b : HeapBlock} (hb : b ∈ s.live) {page : Nat}
    (hpage : InBlock b.segment page) {r : Segment} (hr : r ∈ lost) : ¬InBlock r page := by
  intro hin
  have hdisjoint := (List.pairwise_append.1 (List.pairwise_append.1 inv.range.tiles.pairwise_disjoint).2.1).2.2
  exact hdisjoint _ (List.mem_map_of_mem hb) r hr (page * PAGE_SIZE)
    ⟨Segment.covers_iff.2 hpage, Segment.covers_iff.2 hin⟩

theorem inside_lost (inv : HeapInvariant start finish s free lost) {block : Segment} (hblock : block ∈ lost) :
    block.1 % PAGE_SIZE = 0 ∧ 0 < block.2 ∧ start ≤ block.1 ∧ block.1 + block.2 ≤ finish := by
  have hmem : block ∈ s.live.map HeapBlock.segment ++ lost := List.mem_append_right _ hblock
  obtain ⟨hbase, -, hpos⟩ := inv.range.blocks block hmem
  exact ⟨hbase, hpos, inv.range.tiles.inside (List.mem_append_right free hmem) hpos⟩

theorem worksOn_lost (inv : HeapInvariant start finish s free lost) {block : Segment} (hblock : block ∈ lost) :
    WorksOn start finish [block] s.heap.vm s.heap.vm := by
  obtain ⟨-, -, hlo, hhi⟩ := inv.inside_lost hblock
  refine inv.frames.worksOn ?_
  rintro page ⟨r, hr, hin⟩
  rw [List.mem_singleton.1 hr] at hin
  exact ⟨hlo.trans hin.1, Nat.lt_of_lt_of_le hin.2 hhi⟩

/-- `paging_map_to_free_pages` of a block whose pages are not mapped. -/
theorem mapLost (inv : HeapInvariant start finish s free lost) {addr size : Nat}
    (hblock : (addr, roundUp size) ∈ lost)
    (hunmapped : ∀ page, InBlock (addr, roundUp size) page → s.heap.vm.frameOf page = none) (flags : Nat) :
    ∃ r vm', pagingMapToFreePages addr size flags s.heap.vm = .ok (r, vm') ∧ PagesOk vm'.pages ∧
      WorksOn start finish [(addr, roundUp size)] s.heap.vm vm' ∧ FramesApart start finish vm' ∧
      SolePages s.heap.vm (addr / PAGE_SIZE) (roundUp size / PAGE_SIZE) r vm' := by
  obtain ⟨hbase, hpos, hlo, hhi⟩ := inv.inside_lost hblock
  have hfinish := inv.range.finish_lt
  simp only at hbase hpos hlo hhi
  have haddr : PageAddr addr := ⟨hbase, by omega⟩
  obtain ⟨r, vm', hmap, hpages, -, sole⟩ := pagingMapToFreePages_sole flags inv.range.ok.pages haddr rfl rfl
    (by omega) fun page hlo hhi => hunmapped page ((inBlock_pages hbase).2 ⟨hlo, hhi⟩)
  have hout := outside_block hbase (show addr + roundUp size < wordSize by omega)
  have hworks := ensures_iff.1 (pagingMapToFreePages_leaves (inv.worksOn_lost hblock) hout flags) _ _ hmap
  refine ⟨r, vm', hmap, hpages, hworks, inv.frames.after hworks ?_ ?_, sole⟩
  · intro p f hp hf
    obtain ⟨hlo, hhi⟩ := (inBlock_pages hbase).1 (inRanges_singleton.1 hp)
    exact (sole.sole p f hlo hhi hf).1.toHeld
  · intro p p' f hp hp' hf hf'
    obtain ⟨hlo, hhi⟩ := (inBlock_pages hbase).1 (inRanges_singleton.1 hp)
    obtain ⟨hlo', hhi'⟩ := (inBlock_pages hbase).1 (inRanges_singleton.1 hp')
    exact sole.distinct p p' f hlo hhi hlo' hhi' hf hf'

theorem worksOn_block (inv : HeapInvariant start finish s free lost) {b : HeapBlock} (hb : b ∈ s.live) :
    WorksOn start finish (b.segment :: free) s.heap.vm s.heap.vm := by
  refine inv.frames.worksOn ?_
  rintro page ⟨r, hr, hpage⟩
  rcases List.mem_cons.1 hr with rfl | hr
  · exact inv.heapPage hb hpage
  · exact inv.heapPage_of_free ⟨r, hr, hpage⟩

/-- The pages of a lost block that is mapped. -/
theorem blockPages {addr size : Nat} (inv : HeapInvariant start finish s free lost)
    (hblock : (addr, roundUp size) ∈ lost)
    (hsole : ∀ page, InBlock (addr, roundUp size) page → ∃ f, s.heap.vm.frameOf page = some f ∧
      s.heap.vm.pages.Sole f) : BlockPages s.heap.vm addr (roundUp size / PAGE_SIZE) := by
  obtain ⟨hbase, hpos, hlo, hhi⟩ := inv.inside_lost hblock
  have hfinish := inv.range.finish_lt
  have hmul := roundUp_mul size
  simp only at hbase hpos hlo hhi
  have hheap : ∀ page, InBlock (addr, roundUp size) page → HeapPage start finish page := fun page hpage =>
    ⟨hlo.trans hpage.1, Nat.lt_of_lt_of_le hpage.2 hhi⟩
  refine ⟨⟨hbase, by omega⟩, by omega, ?_, fun p hlo hhi => ?_, fun p p' hp hp₁ hp' hp₁' heq => ?_⟩
  · simp only [PAGE_SIZE] at hmul ⊢
    omega
  · obtain ⟨f, hf, -⟩ := hsole p ((inBlock_pages hbase).2 ⟨hlo, hhi⟩)
    rw [hf]
    rfl
  · have hin : InBlock (addr, roundUp size) p := (inBlock_pages hbase).2 ⟨hp, hp₁⟩
    obtain ⟨f, hf, -⟩ := hsole p hin
    exact inv.frames.inj p p' f (hheap p hin) (hheap p' ((inBlock_pages hbase).2 ⟨hp', hp₁'⟩)) hf (heq ▸ hf)

/-- `paging_unmap` of a lost block that is mapped. -/
theorem unmapLost {addr size : Nat} (inv : HeapInvariant start finish s free lost)
    (hblock : (addr, roundUp size) ∈ lost)
    (hsole : ∀ page, InBlock (addr, roundUp size) page → ∃ f, s.heap.vm.frameOf page = some f ∧
      s.heap.vm.pages.Sole f) :
    ∃ vm', pagingUnmap addr size s.heap.vm = .ok ((), vm') ∧
      WorksOn start finish [(addr, roundUp size)] s.heap.vm vm' ∧ FramesApart start finish vm' ∧
      ReleasedPages s.heap.vm vm' (addr / PAGE_SIZE) (roundUp size / PAGE_SIZE) := by
  obtain ⟨hbase, hpos, hlo, hhi⟩ := inv.inside_lost hblock
  have hfinish := inv.range.finish_lt
  simp only at hbase hpos hlo hhi
  obtain ⟨vm', hunmap, released⟩ := pagingUnmap_sole inv.range.ok.pages ⟨hbase, by omega⟩ rfl rfl (by omega)
    (fun page hlo hhi => hsole page ((inBlock_pages hbase).2 ⟨hlo, hhi⟩)) (inv.blockPages hblock hsole).distinct
  have works := ensures_iff.1 (pagingUnmap_leaves (inv.worksOn_lost hblock)
    (outside_block hbase (show addr + roundUp size < wordSize by omega))) _ _ hunmap
  have hnone : ∀ page, InRanges [(addr, roundUp size)] page → vm'.frameOf page = none := by
    intro page hpage
    obtain ⟨hlo, hhi⟩ := (inBlock_pages hbase).1 (inRanges_singleton.1 hpage)
    exact released.unmapped page hlo hhi
  refine ⟨vm', hunmap, works, inv.frames.after works ?_ ?_, released⟩
  · intro p f hp hf
    rw [hnone p hp] at hf
    cases hf
  · intro p p' f hp _ hf
    rw [hnone p hp] at hf
    cases hf

variable [DecidableEq P]

/-- Work on lost blocks. -/
theorem workOnLost (inv : HeapInvariant start finish s free lost) {ranges : List Segment} {vm' : Vm}
    (hsub : ∀ r ∈ ranges, r ∈ lost) (works : WorksOn start finish ranges s.heap.vm vm') (hpages : PagesOk vm'.pages)
    (hframes : FramesApart start finish vm') (writes : List Access) :
    HeapInvariant start finish
      { s with heap := { ranges := { s.heap.ranges with vm := vm' }, writes := writes } } free lost := by
  refine ⟨?_, fun b hb => ?_, hframes, inv.room, inv.unlocked⟩
  · exact inv.range.worksOn (fun r hr => List.mem_append_right _ (hsub r hr)) works hpages
  · refine (inv.blocks b hb).worksOn works (inv.inside hb).1 fun page hpage => ⟨inv.heapPage hb hpage, ?_⟩
    rintro ⟨r, hr, hin⟩
    exact inv.not_lost hb hpage (hsub r hr) hin

/-- A block that the range allocator has handed out is a lost one. -/
theorem reserve (inv : HeapInvariant start finish s free lost) {current : P} {size addr n : Nat}
    {ranges : RangeState P} {free' : List Segment}
    (hreturn : Chaotix.rangeAllocatorAlloc current size s.heap.ranges = .ok (.ok addr, ranges))
    (hmem : (addr, n) ∈ free) (hle : roundUp size ≤ n) (hnil : free' ≠ [])
    (hunlocked : ranges.allocator.lock.holder = none)
    (hrange : RangeInvariant start finish
      { state := ranges, blocks := (addr, roundUp size) :: (s.live.map HeapBlock.segment ++ lost) } free') :
    HeapInvariant start finish { s with heap := { s.heap with ranges := ranges } } free'
      ((addr, roundUp size) :: lost) := by
  have handed := inv.handedOut hreturn hmem hle hrange
  refine ⟨hrange.perm List.perm_middle.symm, fun b hb => ?_, handed.frames, hnil, hunlocked⟩
  exact (inv.blocks b hb).worksOn handed.works (inv.inside hb).1 fun page hpage =>
    ⟨inv.heapPage hb hpage, inv.not_free hb hpage⟩

end HeapInvariant

theorem run_onRanges {α : Type} {m : Kernel (RangeState P) α} {heap : KernelHeap P} {a : α} {ranges : RangeState P}
    (h : m heap.ranges = .ok (a, ranges)) : onRanges m heap = .ok (a, { heap with ranges := ranges }) := by
  rw [onRanges, Program.focus, h]

theorem run_onHeapVm {α : Type} {m : Kernel Vm α} {heap : KernelHeap P} {a : α} {vm : Vm}
    (h : m heap.vm = .ok (a, vm)) :
    onHeapVm m heap = .ok (a, { heap with ranges := { heap.ranges with vm := vm } }) := by
  have hvm : m heap.ranges.vm = .ok (a, vm) := h
  apply run_onRanges
  rw [run_onVm, hvm]

/-- A page that is free is one that an allocation finds. -/
theorem not_noFreePage {vm : Vm} {f : Nat} (h : vm.pages.Allocatable f) : ¬NoFreePage vm := by
  intro hnone
  have hclear := BitSet.findFirst_eq_none (by decide) hnone (Nat.zero_le _) (by rw [Nat.zero_add]; exact h.1)
  rw [h.2] at hclear
  exact Bool.noConfusion hclear

/-- `header_from_ptr` finds the header of a block. -/
theorem headerFromPtr_eq {heap : KernelHeap P} {b : HeapBlock} (live : LiveBlock heap.vm b)
    (hbase : b.header % PAGE_SIZE = 0) (hlt : b.header < wordSize) :
    headerFromPtr b.ptr heap = .ok (b.header, heap) := by
  obtain ⟨hheader, hoffset, -⟩ := live.offset
  obtain ⟨n, -, -, hword, -⟩ := live.header
  have hptr := live.ptr
  obtain ⟨f, hf, hpair⟩ := Option.map_eq_some_iff.1 hword
  have hmagic : load32 b.header heap.vm = .ok (MAGIC, heap.vm) := by
    rw [load32_size ⟨hbase, hlt⟩ hf, (Prod.mk.inj hpair).1]
  have haddr : (if b.ptr - b.ptr / PAGE_SIZE * PAGE_SIZE < Machine.headerSize
      then wordSub (b.ptr / PAGE_SIZE * PAGE_SIZE) PAGE_SIZE else b.ptr / PAGE_SIZE * PAGE_SIZE) = b.header := by
    rcases Nat.lt_or_eq_of_le hoffset with hsmall | hpage
    · rw [if_neg]
      · simp only [PAGE_SIZE] at hbase hsmall ⊢
        omega
      · simp only [PAGE_SIZE, Machine.headerSize] at hbase hsmall hheader ⊢
        omega
    · -- the data of a block that is aligned to a page begins on the page behind the header
      rw [if_pos]
      · simp only [wordSub, wordSize, PAGE_SIZE] at hbase hpage hlt ⊢
        omega
      · simp only [PAGE_SIZE, Machine.headerSize] at hbase hpage ⊢
        omega
  simp only [headerFromPtr, assert, Program.run_bind, haddr, run_onHeapVm hmagic, Program.run_require, if_true,
    Program.run_pure]
  rfl

/-! ### `kaligned_alloc` -/

/-- What a `kaligned_alloc` that returns a block has made of the heap. -/
structure Allocated (start finish : Nat) (s : HeapHistory P) (free lost : List Segment) (b : HeapBlock)
    (heap : KernelHeap P) (free' : List Segment) : Prop where
  inv : HeapInvariant start finish { heap := heap, live := b :: s.live } free' lost
  works : WorksOn start finish free s.heap.vm heap.vm
  taken : ∀ page, InBlock b.segment page → InRanges free page
  header : heap.vm.header b.header = some (MAGIC, b.realSize)
  zero : ∀ i, i < b.size → heap.vm.byteAt (b.ptr + i) = some 0
  writes : heap.writes = { vaddr := b.ptr, len := b.size, block := b.segment } :: s.heap.writes

/-- What a `kaligned_alloc` that returns null has made of it: a range may be lost. -/
def AllocFails (start finish : Nat) (s : HeapHistory P) (free lost : List Segment) (size : Nat)
    (heap : KernelHeap P) : Prop :=
  HeapInvariant start finish { s with heap := heap } free lost ∨
    ∃ addr free', HeapInvariant start finish { s with heap := heap } free' ((addr, roundUp size) :: lost)

/-- The frames of the heap are apart whatever is in them. -/
theorem FramesApart.setRam {vm vm' : Vm} (h : FramesApart start finish vm) (hram : vm' = { vm with ram := vm'.ram }) :
    FramesApart start finish vm' := by
  have hframe := frameOf_of_ram hram
  have hpages : vm'.pages = vm.pages := by
    rw [hram]
  refine ⟨?_, ?_⟩
  · rw [hframe, hpages]
    exact h.held
  · rw [hframe]
    exact h.inj

/-- A lost block whose pages have been mapped, when its header and the zeros behind it have been written. -/
structure Filled (start finish : Nat) (b : HeapBlock) (vm vm' : Vm) : Prop where
  works : WorksOn start finish [b.segment] vm vm'
  pages : PagesOk vm'.pages
  frames : FramesApart start finish vm'
  live : LiveBlock vm' b
  header : vm'.header b.header = some (MAGIC, b.realSize)
  zero : ∀ i, i < b.size → vm'.byteAt (b.ptr + i) = some 0

theorem HeapInvariant.fillLost {k size addr : Nat} {b : HeapBlock} (inv : HeapInvariant start finish s free lost)
    (hb : b = { alignment := 2 ^ k, size := size, ptr := addr + Machine.dataOffset (2 ^ k) })
    (hblock : (addr, roundUp b.realSize) ∈ lost) (hk : 2 ^ k ≤ PAGE_SIZE) (hpos : 0 < size)
    (hfits : b.realSize ≤ wordSize - PAGE_SIZE)
    (hsole : ∀ page, InBlock (addr, roundUp b.realSize) page → ∃ f, s.heap.vm.frameOf page = some f ∧
      s.heap.vm.pages.Sole f) :
    ∃ vm₁ vm₂ vm₃, store32 addr MAGIC s.heap.vm = .ok ((), vm₁) ∧
      store32 (sizeField addr) b.realSize vm₁ = .ok ((), vm₂) ∧
      storeBytes b.ptr (List.replicate size 0) vm₂ = .ok ((), vm₃) ∧ Filled start finish b s.heap.vm vm₃ := by
  obtain ⟨hheader, hoffset, -⟩ := dataOffset_bounds hk
  obtain ⟨hbase, hsegment, hlo, hhi⟩ := inv.inside_lost hblock
  have hround := le_roundUp hfits
  have hrealSize : b.realSize = Machine.dataOffset (2 ^ k) + size := by
    rw [hb]
    rfl
  simp only at hbase hsegment hlo hhi
  have hmul := roundUp_mul b.realSize
  have hpages := inv.blockPages hblock hsole
  obtain ⟨vm₁, vm₂, vm₃, hmagic, hsize, hzero, hram, hword, hbytes, hleaves⟩ := fillBlock_eq hpages
    (Nat.lt_of_le_of_lt hfits (by decide)) hheader (by rw [hmul, ← hrealSize]; exact hround)
  have hptr : b.ptr = addr + Machine.dataOffset (2 ^ k) := by rw [hb]
  have hstart : b.header = addr := by
    rw [HeapBlock.header, hb]
    exact Nat.add_sub_cancel addr _
  have hsegmentEq : b.segment = (addr, roundUp b.realSize) := by rw [HeapBlock.segment, hstart]
  have hframe := frameOf_of_ram hram
  have hpagesEq : vm₃.pages = s.heap.vm.pages := by rw [hram]
  refine ⟨vm₁, vm₂, vm₃, hmagic, hsize, hptr ▸ hzero, ?_, ?_, ?_, ?_, ?_, ?_⟩
  · rw [hsegmentEq]
    apply hleaves (inv.worksOn_lost hblock)
    rw [hmul]
    exact fun p hp => not_not.2 (inRanges_singleton.2 hp)
  · rw [hpagesEq]
    exact inv.range.ok.pages
  · exact inv.frames.setRam hram
  · refine ⟨⟨k, by rw [hb], hk⟩, by rw [hb]; exact hpos, hfits, ?_, ?_, fun page hpage => ?_⟩
    · rw [hstart, hptr, hb]
    · exact ⟨b.realSize, by omega, Nat.lt_of_le_of_lt hfits (by decide), hstart ▸ hword, rfl⟩
    · rw [hframe, hpagesEq]
      exact hsole page (hsegmentEq ▸ hpage)
  · exact hstart ▸ hword
  · rw [hptr]
    intro i hi
    exact hbytes i (by rwa [hb] at hi)

variable [DecidableEq P]

theorem kalignedAlloc_spec (current : P) (inv : HeapInvariant start finish s free lost) {k size : Nat}
    (hk : 2 ^ k ≤ PAGE_SIZE) (hpos : 0 < size)
    (hroom : HasRoom free (Machine.dataOffset (2 ^ k) + size)) :
    ∃ r heap, kalignedAlloc current (2 ^ k) size s.heap = .ok (r, heap) ∧
      ((r = none ∧ AllocFails start finish s free lost (Machine.dataOffset (2 ^ k) + size) heap) ∨
      ∃ ptr free', r = some ptr ∧
        Allocated start finish s free lost { alignment := 2 ^ k, size := size, ptr := ptr } heap free') := by
  obtain ⟨hheader, hoffset, -⟩ := dataOffset_bounds hk
  have hfits := hroom.1
  have hreal : (Machine.dataOffset (2 ^ k) + size) % wordSize = Machine.dataOffset (2 ^ k) + size :=
    Nat.mod_eq_of_lt (Nat.lt_of_le_of_lt hfits (by decide))
  have hne : ¬size = 0 := by omega
  obtain ⟨r, ranges, halloc, hunlocked, hcases⟩ := inv.rangeAllocatorAlloc current (by omega) hroom
  rcases hcases with ⟨e, rfl, hvm, hrange⟩ | ⟨addr, n, free', rfl, hmem, hle, hnil, hrange⟩
  · refine ⟨none, { s.heap with ranges := ranges }, ?_, Or.inl ⟨rfl, Or.inl ?_⟩⟩
    · simp only [kalignedAlloc, if_neg hne, assert, Program.run_bind, Program.run_require, if_pos hk, hreal,
        run_onRanges halloc, Program.run_pure]
    · refine ⟨hrange, fun b hb => ?_, ?_, inv.room, hunlocked⟩
      · change LiveBlock ranges.vm b
        rw [hvm]
        exact inv.blocks b hb
      · change FramesApart start finish ranges.vm
        rw [hvm]
        exact inv.frames
  -- the block is a lost one until its header and its zeros are written
  set real := Machine.dataOffset (2 ^ k) + size with hrealSize
  set b : HeapBlock := { alignment := 2 ^ k, size := size, ptr := addr + Machine.dataOffset (2 ^ k) } with hb
  have handed := inv.handedOut halloc hmem hle hrange
  have inv₁ := inv.reserve halloc hmem hle hnil hunlocked hrange
  have hblock : (addr, roundUp real) ∈ (addr, roundUp real) :: lost := List.mem_cons_self
  obtain ⟨hbase, hsegment, hlo, hhi⟩ := inv₁.inside_lost hblock
  have hfinish := inv.range.finish_lt
  have hround := le_roundUp hfits
  simp only at hbase hsegment hlo hhi
  have hptr : (addr + Machine.dataOffset (2 ^ k)) % wordSize = b.ptr := Nat.mod_eq_of_lt (by omega)
  have hsub : ∀ r ∈ [(addr, roundUp real)], r ∈ (addr, roundUp real) :: lost := fun r hr =>
    List.mem_cons.2 (Or.inl (List.mem_singleton.1 hr))
  obtain ⟨r₂, vm₂, hmap, hpages₂, works₂, frames₂, sole⟩ :=
    inv₁.mapLost hblock handed.unmapped (PAGE_WRITE ||| PAGE_GLOBAL)
  have inv₂ := inv₁.workOnLost hsub works₂ hpages₂ frames₂ s.heap.writes
  cases r₂ with
  | error e =>
      refine ⟨none, _, ?_, Or.inl ⟨rfl, Or.inr ⟨addr, free', inv₂⟩⟩⟩
      simp only [kalignedAlloc, if_neg hne, assert, Program.run_bind, Program.run_require, if_pos hk, ← hrealSize, hreal,
        run_onRanges halloc, run_onHeapVm hmap, Program.run_pure]
  | ok _ =>
      have hsole : ∀ page, InBlock (addr, roundUp b.realSize) page → ∃ f, vm₂.frameOf page = some f ∧
          vm₂.pages.Sole f := by
        intro page hpage
        obtain ⟨hlo, hhi⟩ := (inBlock_pages hbase).1 hpage
        obtain ⟨f, hf⟩ := sole.mapped rfl page hlo hhi
        exact ⟨f, hf, (sole.sole page f hlo hhi hf).1⟩
      obtain ⟨vm₃, vm₄, vm₅, hmagic, hsize, hzero, filled⟩ := inv₂.fillLost hb hblock hk hpos hfits hsole
      have hstart : b.segment = (addr, roundUp real) := by
        rw [HeapBlock.segment, HeapBlock.header]
        exact congrArg₂ Prod.mk (Nat.add_sub_cancel addr _) rfl
      have works₅ := filled.works
      rw [hstart] at works₅
      let writes : List Access := { vaddr := b.ptr, len := size, block := (addr, roundUp real) } :: s.heap.writes
      let heap : KernelHeap P := { ranges := { ranges with vm := vm₅ }, writes := writes }
      have hsize' : onHeapVm (store32 (sizeField addr) real)
          ({ ranges := { ranges with vm := vm₃ }, writes := s.heap.writes } : KernelHeap P) =
          .ok ((), { ranges := { ranges with vm := vm₄ }, writes := s.heap.writes }) := run_onHeapVm hsize
      have hzero' : writeBlock (addr, roundUp real) b.ptr (List.replicate size 0)
          ({ ranges := { ranges with vm := vm₄ }, writes := s.heap.writes } : KernelHeap P) = .ok ((), heap) := by
        simp only [writeBlock, Program.run_bind, Program.run_modify, List.length_replicate]
        exact run_onHeapVm hzero
      refine ⟨some b.ptr, heap, ?_, Or.inr ⟨b.ptr, free', rfl, ?_⟩⟩
      · simp only [kalignedAlloc, if_neg hne, assert, Program.run_bind, Program.run_require, if_pos hk, ← hrealSize,
          hreal, run_onRanges halloc, run_onHeapVm hmap, run_onHeapVm hmagic, hsize', hptr, hzero',
          Program.run_pure]
      · have inv₃ := inv₂.workOnLost hsub works₅ filled.pages filled.frames heap.writes
        rw [← hstart] at inv₃
        refine ⟨inv₃.claim filled.live, ?_, fun page hpage => handed.inside page (hstart ▸ hpage), filled.header,
          filled.zero, hstart ▸ rfl⟩
        have hinside : ∀ p, InRanges [(addr, roundUp real)] p → InRanges free p := fun p hp =>
          handed.inside p (inRanges_singleton.1 hp)
        exact (handed.works.trans works₂ hinside).trans works₅ hinside

/-! ### `kfree` -/

namespace HeapInvariant

/-- `range_allocator_free` of a lost block whose pages have been unmapped, while there is a page for a node. -/
theorem takeBack (current : P) {addr size : Nat}
    (inv : HeapInvariant start finish s free ((addr, roundUp size) :: lost)) (hsize : size < wordSize)
    (hunmapped : ∀ page, InBlock (addr, roundUp size) page → s.heap.vm.frameOf page = none)
    (hnode : ¬NoNodePage s.heap.vm addr) :
    ∃ ranges free', rangeAllocatorFree current addr size s.heap.ranges = .ok (.ok (), ranges) ∧
      HeapInvariant start finish { s with heap := { s.heap with ranges := ranges } } free' lost ∧
      WorksOn start finish ((addr, roundUp size) :: free) s.heap.vm ranges.vm ∧
      ∀ x, coverage free' x = coverage free x + coverage [(addr, roundUp size)] x := by
  have hmem : (addr, roundUp size) ∈ (addr, roundUp size) :: lost := List.mem_cons_self
  obtain ⟨hbase, hpos, hlo, hhi⟩ := inv.inside_lost hmem
  have hfinish := inv.range.finish_lt
  simp only at hbase hpos hlo hhi
  -- the block comes first in the list of blocks
  have inv₁ := inv.range.perm (List.perm_middle (a := (addr, roundUp size)))
  have hreturns : RangeHistory.Returns
      { state := s.heap.ranges, blocks := (addr, roundUp size) :: (s.live.map HeapBlock.segment ++ lost) } addr size :=
    ⟨hsize, List.mem_cons_self, fun page hlo hhi => hunmapped page ⟨hlo, hhi⟩⟩
  obtain ⟨block, -, -, hapart⟩ := inv₁.block hreturns
  have hready : LockReady current s.heap.ranges.allocator.lock := inv.lockReady
  obtain ⟨r, state, hfree, hallocator, -⟩ := rangeAllocatorFree_spec inv.range.ok inv.room hready.1
    (inv.range.starts ▸ hlo) (inv.range.finishes ▸ hhi) block hapart
  rw [unlockAndReturn_ready hready (by rw [hallocator]; rfl)] at hfree
  -- what the call touches are the block and the free ranges
  have hin : ∀ page, InRanges ((addr, roundUp size) :: free) page ↔ InBlock (addr, roundUp size) page ∨ InRanges free page := by
    intro page
    simp [InRanges]
  have hheap : ∀ page, InRanges ((addr, roundUp size) :: free) page → HeapPage start finish page := by
    intro page hpage
    rcases (hin page).1 hpage with hblock | hfree
    · exact ⟨hlo.trans hblock.1, Nat.lt_of_lt_of_le hblock.2 hhi⟩
    · exact inv.heapPage_of_free hfree
  have hat : AtPage (fun page => ¬InRanges ((addr, roundUp size) :: free) page) addr := by
    refine ⟨⟨hbase, by omega⟩, not_not.2 ((hin _).2 (Or.inl ?_))⟩
    simp only [InBlock, PAGE_SIZE] at hbase ⊢
    omega
  have hleaves := ensures_iff.1 (rangeAllocatorFree_leaves current inv.range.ok (inv.frames.worksOn hheap)
    (fun r hr => not_not.2 ((hin _).2 (Or.inr ⟨r, hr, (inv.range.ok.nodes r hr).first_page⟩))) hat) _ _ hfree
  obtain ⟨works, herror⟩ := hleaves
  cases r with
  | error e =>
      rcases herror e rfl with hbounds | hnone
      · rw [inv.range.starts, inv.range.finishes, Nat.mod_eq_of_lt (by omega)] at hbounds
        omega
      · exact absurd hnone hnode
  | ok _ =>
      obtain ⟨free', hrange⟩ := inv₁.release hreturns hfree
      simp only [List.erase_cons_head] at hrange
      have hcoverage : ∀ x, coverage free' x = coverage free x + coverage [(addr, roundUp size)] x :=
        hrange.tiles.coverage_taken inv₁.tiles
      have hpages : ∀ page, InRanges ((addr, roundUp size) :: free) page → InRanges free' page := fun page hpage =>
        (inRanges_of_tiles hrange.tiles inv₁.tiles page).2 (((hin page).1 hpage).symm)
      refine ⟨_, free', hfree, ⟨hrange, fun b hb => ?_, inv.frames.after works ?_ ?_, ?_, rfl⟩, works, hcoverage⟩
      · refine (inv.blocks b hb).worksOn works (inv.inside hb).1 fun page hpage => ⟨inv.heapPage hb hpage, fun hout => ?_⟩
        rcases (hin page).1 hout with hblock | hfree
        · exact inv.not_lost hb hpage List.mem_cons_self hblock
        · exact inv.not_free hb hpage hfree
      · intro p f hp hf
        obtain ⟨-, -, -, hheld⟩ := hrange.ok.node_of_mapped (hpages p hp) hf
        exact hheld
      · exact fun p p' f hp hp' hf hf' => hrange.ok.nodes_inj (hpages p hp) (hpages p' hp') hf hf'
      · rintro rfl
        have hfirst := hcoverage addr
        rw [coverage_nil, coverage_singleton, if_pos ⟨Nat.le_refl _, Nat.lt_add_of_pos_right hpos⟩] at hfirst
        omega

end HeapInvariant

/-- What a `kfree` has made of the heap. -/
structure Released (start finish : Nat) (current : P) (s : HeapHistory P) (free lost : List Segment) (b : HeapBlock)
    (heap : KernelHeap P) (free' : List Segment) : Prop where
  inv : HeapInvariant start finish { heap := heap, live := s.live.erase b } free' lost
  works : WorksOn start finish (b.segment :: free) s.heap.vm heap.vm
  addresses : ∀ x, coverage free' x = coverage free x + coverage [b.segment] x
  /-- It has unmapped the pages of the block and handed back its addresses. -/
  parts : ∃ vm, pagingUnmap b.header b.realSize s.heap.vm = .ok ((), vm) ∧
    ReleasedPages s.heap.vm vm (b.header / PAGE_SIZE) (roundUp b.realSize / PAGE_SIZE) ∧
    rangeAllocatorFree current b.header b.realSize { s.heap.ranges with vm := vm } = .ok (.ok (), heap.ranges)
  writes : heap.writes = s.heap.writes

theorem kfree_spec (current : P) (inv : HeapInvariant start finish s free lost) {b : HeapBlock} (hb : b ∈ s.live) :
    ∃ heap free', kfree current b.ptr s.heap = .ok ((), heap) ∧
      Released start finish current s free lost b heap free' := by
  have live := inv.blocks b hb
  obtain ⟨hbase, hlo, hhi⟩ := inv.inside hb
  have hfinish := inv.range.finish_lt
  have hlt : b.header < wordSize := by omega
  have hne := inv.ptr_ne_zero hb
  obtain ⟨n, -, hn, hword, hround⟩ := live.header
  obtain ⟨f, hf, hpair⟩ := Option.map_eq_some_iff.1 hword
  have hheader := headerFromPtr_eq live hbase hlt
  have hsize : onHeapVm (load32 (sizeField b.header)) s.heap = .ok (n, s.heap) := by
    have hnext := load32_next ⟨hbase, hlt⟩ hf
    rw [(Prod.mk.inj hpair).2] at hnext
    exact run_onHeapVm hnext
  -- the caller gives the block up, and its pages go
  have inv₁ := inv.surrender (List.perm_cons_erase hb)
  have hsegment : b.segment = (b.header, roundUp n) := by rw [hround]; rfl
  rw [hsegment] at inv₁
  have hblock : (b.header, roundUp n) ∈ (b.header, roundUp n) :: lost := List.mem_cons_self
  obtain ⟨vm₁, hunmap, works₁, frames₁, released⟩ := inv₁.unmapLost hblock fun page hpage =>
    live.sole page (hsegment ▸ hpage)
  have hsub : ∀ r ∈ [(b.header, roundUp n)], r ∈ (b.header, roundUp n) :: lost := fun r hr =>
    List.mem_cons.2 (Or.inl (List.mem_singleton.1 hr))
  have inv₂ := inv₁.workOnLost hsub works₁ released.pages frames₁ s.heap.writes
  have hfirst : InBlock (b.header, roundUp n) (b.header / PAGE_SIZE) := by
    have hpos := hsegment ▸ live.segment_pos
    simp only [InBlock, PAGE_SIZE] at hbase hpos ⊢
    omega
  have hnode : ¬NoNodePage vm₁ b.header := by
    rintro (hnone | hnone)
    · exact works₁.tables _ (pde_of_mapped hf) hnone
    · obtain ⟨hlo, hhi⟩ := (inBlock_pages hbase).1 hfirst
      have hfree := released.freed _ f hlo hhi hf
      exact not_noFreePage hfree hnone
  have hunmapped : ∀ page, InBlock (b.header, roundUp n) page → vm₁.frameOf page = none := by
    intro page hpage
    obtain ⟨hlo, hhi⟩ := (inBlock_pages hbase).1 hpage
    exact released.unmapped page hlo hhi
  obtain ⟨ranges, free', hfree, inv₃, works₃, haddresses⟩ := inv₂.takeBack current hn hunmapped hnode
  have hunmap' : onHeapVm (pagingUnmap b.header n) s.heap =
      .ok ((), { s.heap with ranges := { s.heap.ranges with vm := vm₁ } }) := run_onHeapVm hunmap
  have hin : ∀ page, InRanges [(b.header, roundUp n)] page → InRanges ((b.header, roundUp n) :: free) page := by
    rintro page ⟨r, hr, hpage⟩
    exact ⟨r, List.mem_cons.2 (Or.inl (List.mem_singleton.1 hr)), hpage⟩
  refine ⟨{ s.heap with ranges := ranges }, free', ?_, inv₃, ?_, ?_, ⟨vm₁, ?_, hround ▸ released, ?_⟩, rfl⟩
  · simp only [kfree, if_neg hne, Program.run_bind, hheader, hsize, hunmap', run_onRanges hfree,
      Program.run_pure]
  · rw [hsegment]
    exact ((hsegment ▸ inv.worksOn_block hb).trans works₁ hin).trans works₃ fun _ hp => hp
  · rw [hsegment]
    exact haddresses
  · rw [pagingUnmap, ← hround]
    exact hunmap
  · rw [rangeAllocatorFree, ← hround]
    exact hfree

end Heap

end Chaotix
