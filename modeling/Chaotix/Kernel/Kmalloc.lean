/-
Module: Chaotix.Kernel.Kmalloc
Layer: Kernel
Purpose: The kernel heap of `kernel/memory/kmalloc.c` over the range allocator and the memory behind it. A block
  begins with its header, which is read back from memory. Every range of bytes that a `memset` or a `memcpy` writes is
  recorded together with the block it was meant for. `heapSystem` runs the heap for any number of processes beside the
  rest of the kernel.
Imports: Chaotix.Lib.Transition, Chaotix.Kernel.RangeAllocator, Chaotix.Kernel.GrowableBuf, Chaotix.Kernel.KernelHeap
Trusted boundary: human-reviewed model of `kernel/memory/kmalloc.c`
Main exports: KernelHeap, kalignedAlloc, kmalloc, headerFromPtr, krealloc, kfree, HeapBlock, HeapStep, heapSystem
-/
import Chaotix.Lib.Transition
import Chaotix.Kernel.RangeAllocator
import Chaotix.Kernel.GrowableBuf
import Chaotix.Kernel.KernelHeap

namespace Chaotix

/-- `MAGIC`. -/
abbrev MAGIC : Nat := 0x1d578e50

/-- The address of `header->size`. -/
def sizeField (header : Nat) : Nat := (header + 4) % wordSize

/-- `kernel_vaddr_allocator` and the address space, with a record: the ranges of bytes that have been written. -/
structure KernelHeap (P : Type) where
  ranges : RangeState P
  writes : List Access := []

variable {P : Type}

/-- The address space. -/
def KernelHeap.vm (s : KernelHeap P) : Vm := s.ranges.vm

/-- Run a function of the range allocator. -/
def onRanges {α : Type} (m : Kernel (RangeState P) α) : Kernel (KernelHeap P) α :=
  Program.focus KernelHeap.ranges (fun ranges s => { s with ranges := ranges }) m

/-- Run a function of the address space. -/
def onHeapVm {α : Type} (m : Kernel Vm α) : Kernel (KernelHeap P) α := onRanges (onVm m)

/-- A `memset` or a `memcpy` into a block. -/
def writeBlock (block : Segment) (vaddr : Nat) (bytes : List UInt8) : Kernel (KernelHeap P) Unit := do
  modify fun s => { s with writes := { vaddr := vaddr, len := bytes.length, block := block } :: s.writes }
  onHeapVm (storeBytes vaddr bytes)

/-! ### The functions -/

/-- `header_from_ptr`. -/
def headerFromPtr (ptr : Nat) : Kernel (KernelHeap P) Nat := do
  let page := ptr / PAGE_SIZE * PAGE_SIZE
  let addr := if ptr - page < Machine.headerSize then wordSub page PAGE_SIZE else page
  let magic ← onHeapVm (load32 addr)
  assert (magic = MAGIC)
  return addr

variable [DecidableEq P]

/-- `kaligned_alloc`. -/
def kalignedAlloc (current : P) (alignment size : Nat) : Kernel (KernelHeap P) (Option Nat) := do
  if size = 0 then
    return none
  else
    assert (alignment ≤ PAGE_SIZE)
    let realSize := (Machine.dataOffset alignment + size) % wordSize
    match ← onRanges (rangeAllocatorAlloc current realSize) with
    | .error _ => return none
    | .ok addr => do
        match ← onHeapVm (pagingMapToFreePages addr realSize (PAGE_WRITE ||| PAGE_GLOBAL)) with
        | .error _ => return none
        | .ok () => do
            onHeapVm (store32 addr MAGIC)
            onHeapVm (store32 (sizeField addr) realSize)
            let ptr := (addr + Machine.dataOffset alignment) % wordSize
            writeBlock (addr, roundUp realSize) ptr (List.replicate size 0)
            return some ptr

/-- `kmalloc`. -/
def kmalloc (current : P) (size : Nat) : Kernel (KernelHeap P) (Option Nat) :=
  kalignedAlloc current HeapState.maxAlign size

/-- `kfree`. -/
def kfree (current : P) (ptr : Nat) : Kernel (KernelHeap P) Unit := do
  if ptr = 0 then
    return ()
  else
    let header ← headerFromPtr ptr
    let size ← onHeapVm (load32 (sizeField header))
    onHeapVm (pagingUnmap header size)
    match ← onRanges (rangeAllocatorFree current header size) with
    | .ok () => return ()
    | .error _ => throw .panic

/-- `krealloc`. The two blocks of the `memcpy` do not overlap where it reads, so it reads all bytes first. -/
def krealloc (current : P) (ptr newSize : Nat) : Kernel (KernelHeap P) (Option Nat) := do
  if ptr = 0 then
    kmalloc current newSize
  else if newSize = 0 then
    kfree current ptr
    return none
  else
    let oldHeader ← headerFromPtr ptr
    match ← kmalloc current newSize with
    | none => return none
    | some newPtr => do
        let newHeader ← headerFromPtr newPtr
        let size ← onHeapVm (load32 (sizeField oldHeader))
        let bytes ← onHeapVm (loadBytes oldHeader size)
        writeBlock (newHeader, roundUp ((Machine.dataOffset HeapState.maxAlign + newSize) % wordSize)) newHeader bytes
        kfree current ptr
        return some newPtr

/-! ### The heap and its callers -/

/-- A block that a caller has: what was asked for, and the pointer that was returned. -/
structure HeapBlock where
  alignment : Nat
  size : Nat
  ptr : Nat
deriving DecidableEq, Repr

namespace HeapBlock

/-- The size of the block with its header. -/
def realSize (b : HeapBlock) : Nat := Machine.dataOffset b.alignment + b.size

/-- Where the header is. -/
def header (b : HeapBlock) : Nat := b.ptr - Machine.dataOffset b.alignment

/-- The addresses of the block. -/
def segment (b : HeapBlock) : Segment := (b.header, roundUp b.realSize)

end HeapBlock

/-- The heap, and the blocks that its callers have. -/
structure HeapHistory (P : Type) where
  heap : KernelHeap P
  live : List HeapBlock

namespace HeapHistory

/-- A page of the addresses that the allocator manages. -/
def HeapPage (s : HeapHistory P) (page : Nat) : Prop :=
  s.heap.ranges.allocator.start ≤ page * PAGE_SIZE ∧ page * PAGE_SIZE < s.heap.ranges.allocator.finish

/-- A page of a block. -/
def LivePage (s : HeapHistory P) (page : Nat) : Prop := ∃ b ∈ s.live, InBlock b.segment page

end HeapHistory

/-- The calls of the functions, and whatever else the kernel does. -/
inductive HeapEvent (P : Type) where
  | alloc (current : P) (alignment size : Nat) (result : Option Nat)
  | free (current : P) (block : HeapBlock)
  | realloc (current : P) (block : HeapBlock) (newSize : Nat) (result : Option Nat)
  | client

/-- The rest of the kernel maps, unmaps and writes what it likes outside the heap, and writes the bytes of the blocks it
    has behind their headers. -/
structure HeapClient (s s' : HeapHistory P) : Prop where
  allocator : s'.heap.ranges.allocator = s.heap.ranges.allocator
  live : s'.live = s.live
  pages : PagesOk s'.heap.vm.pages
  frameOf : ∀ page, s.HeapPage page → s'.heap.vm.frameOf page = s.heap.vm.frameOf page
  held : ∀ page frame, s.HeapPage page → s.heap.vm.frameOf page = some frame → s.heap.vm.pages.Held frame 1 →
    s'.heap.vm.pages.Held frame 1
  counts : ∀ page frame, s.LivePage page → s.heap.vm.frameOf page = some frame →
    s'.heap.vm.pages.refCounts frame = s.heap.vm.pages.refCounts frame
  ram : ∀ page frame, s.HeapPage page → ¬s.LivePage page → s.heap.vm.frameOf page = some frame →
    s'.heap.vm.ram frame = s.heap.vm.ram frame
  headers : ∀ b ∈ s.live, ∀ frame, s.heap.vm.frameOf (b.header / PAGE_SIZE) = some frame →
    ∀ i < Machine.headerSize, s'.heap.vm.ram frame i = s.heap.vm.ram frame i

/-- The calls that return, in any order and by any process, and the rest of the kernel between them. -/
inductive HeapStep : HeapHistory P → HeapEvent P → HeapHistory P → Prop where
  | alloc {s : HeapHistory P} (current : P) (k size ptr : Nat) (heap : KernelHeap P) :
      2 ^ k ≤ PAGE_SIZE → size < wordSize →
      kalignedAlloc current (2 ^ k) size s.heap = .ok (some ptr, heap) →
      HeapStep s (.alloc current (2 ^ k) size (some ptr))
        { heap := heap, live := { alignment := 2 ^ k, size := size, ptr := ptr } :: s.live }
  | allocFails {s : HeapHistory P} (current : P) (k size : Nat) (heap : KernelHeap P) :
      2 ^ k ≤ PAGE_SIZE → size < wordSize →
      kalignedAlloc current (2 ^ k) size s.heap = .ok (none, heap) →
      HeapStep s (.alloc current (2 ^ k) size none) { s with heap := heap }
  | free {s : HeapHistory P} (current : P) (block : HeapBlock) (heap : KernelHeap P) :
      block ∈ s.live → kfree current block.ptr s.heap = .ok ((), heap) →
      HeapStep s (.free current block) { heap := heap, live := s.live.erase block }
  | realloc {s : HeapHistory P} (current : P) (block : HeapBlock) (newSize ptr : Nat) (heap : KernelHeap P) :
      block ∈ s.live → block.alignment = HeapState.maxAlign → 0 < newSize → newSize < wordSize →
      krealloc current block.ptr newSize s.heap = .ok (some ptr, heap) →
      HeapStep s (.realloc current block newSize (some ptr))
        { heap := heap
          live := { alignment := HeapState.maxAlign, size := newSize, ptr := ptr } :: s.live.erase block }
  | reallocFails {s : HeapHistory P} (current : P) (block : HeapBlock) (newSize : Nat) (heap : KernelHeap P) :
      block ∈ s.live → block.alignment = HeapState.maxAlign → 0 < newSize → newSize < wordSize →
      krealloc current block.ptr newSize s.heap = .ok (none, heap) →
      HeapStep s (.realloc current block newSize none) { s with heap := heap }
  | client {s s' : HeapHistory P} : HeapClient s s' → HeapStep s .client s'

/-- The heap from a `range_allocator_init` that succeeds. -/
def heapSystem (P : Type) [DecidableEq P] (start finish : Nat) (vm : Vm) :
    TransitionSystem (HeapHistory P) (HeapEvent P) where
  init s := ∃ allocator, s.live = [] ∧
    rangeAllocatorInit start finish { allocator := allocator, vm := vm } = .ok (.ok (), s.heap.ranges)
  step := HeapStep

end Chaotix
