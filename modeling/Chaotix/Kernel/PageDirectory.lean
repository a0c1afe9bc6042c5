/-
Module: Chaotix.Kernel.PageDirectory
Layer: Kernel
Purpose: All page directories of `kernel/memory/paging.c` at once, over the physical page allocator. A page
  table lives in a frame and may be pointed to by entries of several directories. The kernel heap of
  `kernel/memory/kmalloc.c` is known by the headers of its blocks; what the range allocator answers in one
  call, and the paging functions it calls on the way, is given from outside. The recursive mapping is left
  implicit: a page table is read and written in its frame.
Imports: Chaotix.Lib.Transition, Chaotix.Kernel.Paging
Trusted boundary: human-reviewed model of `kernel/memory/paging.c`, `kernel/memory/kmalloc.c` and the page tables
  that `kernel/boot.S` sets up
Main exports: Machine, Machine.translate, MappingCall, HeapChoice, kalignedAlloc, kfree,
  pagingCreatePageDirectory, pagingCloneCurrentPageDirectory, pagingDestroyCurrentPageDirectory,
  pagingSwitchPageDirectory, pagingInit, directoriesSystem
-/
import Chaotix.Lib.Transition
import Chaotix.Kernel.Paging

namespace Chaotix

/-- The number of bytes that a page table maps. -/
abbrev tableSpan : Nat := 1024 * PAGE_SIZE

/-- `KERNEL_PDE_IDX`. -/
abbrev KERNEL_PDE_IDX : Nat := 768

/-- `KERNEL_HEAP_START`. -/
abbrev KERNEL_HEAP_START : Nat := KERNEL_VADDR + tableSpan

/-- `KERNEL_HEAP_END`. -/
abbrev KERNEL_HEAP_END : Nat := 0xffc00000

/-- The present entries of a page directory: the frame of the page table of each slot. -/
abbrev PageDirectory := Nat → Option Nat

/-- The page directories that are live, by their addresses, and `kernel_pd` and `current_pd` among them;
    `current->pd`, when there is a current process; the page tables and the contents of all frames; the
    page allocator; and the sizes in the headers of the blocks of the kernel heap. -/
structure Machine where
  dirs : Nat → Option PageDirectory
  kernelPd : Nat
  currentPd : Nat
  processPd : Option Nat
  tables : Nat → Nat → Option Pte
  ram : Nat → Nat → UInt8
  pages : PageAllocator
  headers : Nat → Option Nat

/-! ### Calls -/

/-- The calls that map and unmap ranges. -/
inductive MappingCall where
  | mapToFreePages (vaddr size flags : Nat)
  | mapToPhysicalRange (vaddr paddr size flags : Nat)
  | copyMapping (toVaddr fromVaddr size flags : Nat)
  | unmap (vaddr size : Nat)
deriving DecidableEq, Repr

/-- The range of virtual addresses that a call maps or unmaps. -/
def MappingCall.range : MappingCall → Nat × Nat
  | .mapToFreePages vaddr size _ => (vaddr, roundUp size)
  | .mapToPhysicalRange vaddr _ size _ => (vaddr, roundUp size)
  | .copyMapping toVaddr _ size _ => (toVaddr, roundUp size)
  | .unmap vaddr size => (vaddr, roundUp size)

/-- The call is on kernel heap addresses. -/
def MappingCall.OnKernelHeap (call : MappingCall) : Prop :=
  KERNEL_HEAP_START ≤ call.range.1 ∧ call.range.1 + call.range.2 ≤ KERNEL_HEAP_END

instance (call : MappingCall) : Decidable call.OnKernelHeap := inferInstanceAs (Decidable (_ ∧ _))

/-- What the range allocator of the kernel heap does in one call: the paging functions it calls, and what it
    returns. -/
structure HeapChoice (α : Type) where
  calls : List MappingCall
  result : Except Errno α

namespace Machine

/-- `current_pd->entries`. -/
def currentDir (m : Machine) : PageDirectory := (m.dirs m.currentPd).getD fun _ => none

/-- The entry of the page table that maps `vaddr` under a directory. -/
def entryOf (m : Machine) (dir : PageDirectory) (vaddr : Nat) : Option Pte :=
  match dir (vaddr / tableSpan) with
  | none => none
  | some table => m.tables table (vaddr / PAGE_SIZE % 1024)

/-- The physical address of `vaddr` under a directory. -/
def translate (m : Machine) (dir : PageDirectory) (vaddr : Nat) : Option Nat :=
  (m.entryOf dir vaddr).map fun pte => pte.frame * PAGE_SIZE + vaddr % PAGE_SIZE

/-- Write an entry of a page table. -/
def setEntry (m : Machine) (table i : Nat) (entry : Option Pte) : Machine :=
  { m with tables := Function.update m.tables table (Function.update (m.tables table) i entry) }

/-- Write a page directory. -/
def setDir (m : Machine) (pd : Nat) (dir : PageDirectory) : Machine :=
  { m with dirs := Function.update m.dirs pd (some dir) }

/-- Run a function of the page allocator. -/
def onPages {α : Type} (f : Kernel PageAllocator α) : Kernel Machine α :=
  Program.focus Machine.pages (fun pages m => { m with pages := pages }) f

/-! ### Page tables -/

/-- `get_or_create_page_table`, which returns the frame of the table. A new table is zeroed. -/
def getOrCreatePageTable (vaddr : Nat) : Kernel Machine (Except Errno Nat) := do
  let m ← get
  match m.currentDir (vaddr / tableSpan) with
  | some table => return .ok table
  | none => do
      match ← onPages pageAllocatorAlloc with
      | .error e => return .error e
      | .ok paddr => do
          let table := paddr / PAGE_SIZE
          modify fun m =>
            { m.setDir m.currentPd (Function.update m.currentDir (vaddr / tableSpan) (some table)) with
              tables := Function.update m.tables table fun _ => none }
          return .ok table

/-- `paging_virtual_to_physical_addr`. -/
def pagingVirtualToPhysicalAddr (vaddr : Nat) : Kernel Machine Nat := do
  let m ← get
  match m.translate m.currentDir vaddr with
  | some paddr => return paddr
  | none => throw .panic

/-- `map_page_to_free_page`. -/
def mapPageToFreePage (vaddr flags : Nat) : Kernel Machine (Except Errno Unit) := do
  match ← getOrCreatePageTable vaddr with
  | .error e => return .error e
  | .ok table => do
      assert ((← get).tables table (vaddr / PAGE_SIZE % 1024) = none)
      match ← onPages pageAllocatorAlloc with
      | .error e => return .error e
      | .ok paddr => do
          modify fun m =>
            m.setEntry table (vaddr / PAGE_SIZE % 1024) (some { frame := paddr / PAGE_SIZE, flags := flags })
          return .ok ()

/-- The end of `map_page_to_physical_addr` and of `copy_page_mapping`: the page is linked. -/
def linkPage (vaddr paddr flags : Nat) : Kernel Machine (Except Errno Unit) := do
  match ← getOrCreatePageTable vaddr with
  | .error e => return .error e
  | .ok table => do
      assert ((← get).tables table (vaddr / PAGE_SIZE % 1024) = none)
      onPages (pageAllocatorRefPage paddr)
      modify fun m =>
        m.setEntry table (vaddr / PAGE_SIZE % 1024) (some { frame := paddr / PAGE_SIZE, flags := flags })
      return .ok ()

/-- `map_page_to_physical_addr`. -/
def mapPageToPhysicalAddr (vaddr paddr flags : Nat) : Kernel Machine (Except Errno Unit) :=
  linkPage vaddr paddr flags

/-- `copy_page_mapping`. -/
def copyPageMapping (toVaddr fromVaddr flags : Nat) : Kernel Machine (Except Errno Unit) := do
  let m ← get
  match m.entryOf m.currentDir fromVaddr with
  | none => throw .panic
  | some fromPte => linkPage toVaddr (fromPte.frame * PAGE_SIZE) flags

/-- `unmap_page`. -/
def unmapPage (vaddr : Nat) : Kernel Machine Unit := do
  let m ← get
  match m.currentDir (vaddr / tableSpan) with
  | none => throw .panic
  | some table =>
      match m.tables table (vaddr / PAGE_SIZE % 1024) with
      | none => throw .panic
      | some pte => do
          onPages (pageAllocatorUnrefPage (pte.frame * PAGE_SIZE))
          modify fun m => m.setEntry table (vaddr / PAGE_SIZE % 1024) none

/-! ### Ranges of pages -/

/-- `paging_map_to_free_pages`. -/
def pagingMapToFreePages (vaddr size flags : Nat) : Kernel Machine (Except Errno Unit) := do
  assert (vaddr % PAGE_SIZE = 0)
  Program.tryRange 0 (roundUp size / PAGE_SIZE) fun i =>
    mapPageToFreePage ((vaddr + i * PAGE_SIZE) % wordSize) flags

/-- `paging_map_to_physical_range`. -/
def pagingMapToPhysicalRange (vaddr paddr size flags : Nat) : Kernel Machine (Except Errno Unit) := do
  assert (vaddr % PAGE_SIZE = 0)
  assert (paddr % PAGE_SIZE = 0)
  Program.tryRange 0 (roundUp size / PAGE_SIZE) fun i =>
    mapPageToPhysicalAddr ((vaddr + i * PAGE_SIZE) % wordSize) ((paddr + i * PAGE_SIZE) % wordSize) flags

/-- `paging_copy_mapping`. -/
def pagingCopyMapping (toVaddr fromVaddr size flags : Nat) : Kernel Machine (Except Errno Unit) := do
  assert (toVaddr % PAGE_SIZE = 0)
  assert (fromVaddr % PAGE_SIZE = 0)
  Program.tryRange 0 (roundUp size / PAGE_SIZE) fun i =>
    copyPageMapping ((toVaddr + i * PAGE_SIZE) % wordSize) ((fromVaddr + i * PAGE_SIZE) % wordSize) flags

/-- `paging_unmap`. -/
def pagingUnmap (vaddr size : Nat) : Kernel Machine Unit := do
  assert (vaddr % PAGE_SIZE = 0)
  Program.forRange 0 (roundUp size / PAGE_SIZE) fun i => unmapPage ((vaddr + i * PAGE_SIZE) % wordSize)

/-- Make a call. -/
def mapping : MappingCall → Kernel Machine (Except Errno Unit)
  | .mapToFreePages vaddr size flags => pagingMapToFreePages vaddr size flags
  | .mapToPhysicalRange vaddr paddr size flags => pagingMapToPhysicalRange vaddr paddr size flags
  | .copyMapping toVaddr fromVaddr size flags => pagingCopyMapping toVaddr fromVaddr size flags
  | .unmap vaddr size => do
      pagingUnmap vaddr size
      return .ok ()

/-! ### The kernel heap -/

/-- A call of the range allocator. -/
def rangeCall {α : Type} (c : HeapChoice α) : Kernel Machine (Except Errno α) := do
  c.calls.forM fun call => do
    let _ ← mapping call
    return ()
  return c.result

/-- `sizeof(struct header)`. -/
abbrev headerSize : Nat := 8

/-- `round_up(sizeof(struct header), alignment)`. -/
def dataOffset (alignment : Nat) : Nat := (headerSize + (alignment - 1)) / alignment * alignment

/-- `kaligned_alloc`. -/
def kalignedAlloc (c : HeapChoice Nat) (alignment size : Nat) : Kernel Machine (Option Nat) := do
  if size = 0 then
    return none
  else
    assert (alignment ≤ PAGE_SIZE)
    let realSize := (dataOffset alignment + size) % wordSize
    match ← rangeCall c with
    | .error _ => return none
    | .ok addr => do
        match ← pagingMapToFreePages addr realSize (PAGE_WRITE ||| PAGE_GLOBAL) with
        | .error _ => return none
        | .ok () => do
            modify fun m => { m with headers := Function.update m.headers addr (some realSize) }
            return some (addr + dataOffset alignment)

/-- The address in `header_from_ptr`. -/
def headerAddr (ptr : Nat) : Nat :=
  let addr := ptr / PAGE_SIZE * PAGE_SIZE
  if ptr - addr < headerSize then addr - PAGE_SIZE else addr

/-- `kfree`, of a pointer that is not null. -/
def kfree (c : HeapChoice Unit) (ptr : Nat) : Kernel Machine Unit := do
  let header := headerAddr ptr
  match (← get).headers header with
  | none => throw .panic
  | some size => do
      pagingUnmap header size
      modify fun m => { m with headers := Function.update m.headers header none }
      match ← rangeCall c with
      | .ok () => return ()
      | .error _ => throw .panic

/-! ### Page directories -/

/-- The entries that `paging_create_page_directory` copies. -/
def kernelSlots (dir : PageDirectory) : PageDirectory := fun i =>
  if KERNEL_PDE_IDX ≤ i ∧ i < 1023 then dir i else none

/-- `paging_create_page_directory`. -/
def pagingCreatePageDirectory (c : HeapChoice Nat) : Kernel Machine (Except Errno Nat) := do
  match ← kalignedAlloc c PAGE_SIZE PAGE_SIZE with
  | none => return .error .ENOMEM
  | some dst => do
      let m ← get
      let paddr ← pagingVirtualToPhysicalAddr dst
      modify fun m' =>
        m'.setDir dst (Function.update (kernelSlots m.currentDir) 1023 (some (paddr / PAGE_SIZE)))
      return .ok dst

/-- `QUICKMAP_PAGE`. -/
abbrev QUICKMAP_PAGE : Nat := 1022

/-- `QUICKMAP_PAGE_TABLE`. -/
abbrev QUICKMAP_PAGE_TABLE : Nat := 1023

/-- `quickmap`. -/
def quickmap (which paddr flags : Nat) : Kernel Machine Unit := do
  let m ← get
  match m.currentDir KERNEL_PDE_IDX with
  | none => throw .fault
  | some table => do
      assert (m.tables table which = none)
      modify fun m => m.setEntry table which (some { frame := paddr / PAGE_SIZE, flags := flags })

/-- `unquickmap`. -/
def unquickmap (which : Nat) : Kernel Machine Unit := do
  let m ← get
  match m.currentDir KERNEL_PDE_IDX with
  | none => throw .fault
  | some table => do
      assert (m.tables table which ≠ none)
      modify fun m => m.setEntry table which none

/-- The loop body of `clone_page_table`, for one page. -/
def clonePage (src dest srcVaddr i : Nat) : Kernel Machine (Except Errno Unit) := do
  match (← get).tables src i with
  | none => do
      modify fun m => m.setEntry dest i none
      return .ok ()
  | some pte =>
      if HasFlag pte.flags PAGE_SHARED then
        modify fun m => m.setEntry dest i (some pte)
        onPages (pageAllocatorRefPage (pte.frame * PAGE_SIZE))
        return .ok ()
      else
        match ← onPages pageAllocatorAlloc with
        | .error e => do
            unquickmap QUICKMAP_PAGE_TABLE
            return .error e
        | .ok paddr => do
            modify fun m => m.setEntry dest i (some { frame := paddr / PAGE_SIZE, flags := pte.flags })
            quickmap QUICKMAP_PAGE paddr PAGE_WRITE
            let source ← pagingVirtualToPhysicalAddr (srcVaddr + i * PAGE_SIZE)
            modify fun m =>
              { m with ram := Function.update m.ram (paddr / PAGE_SIZE) (m.ram (source / PAGE_SIZE)) }
            unquickmap QUICKMAP_PAGE
            return .ok ()

/-- `clone_page_table`, which returns the frame of the copy. -/
def clonePageTable (src srcVaddr : Nat) : Kernel Machine (Except Errno Nat) := do
  match ← onPages pageAllocatorAlloc with
  | .error e => return .error e
  | .ok paddr => do
      quickmap QUICKMAP_PAGE_TABLE paddr PAGE_WRITE
      match ← Program.tryRange 0 1024 (clonePage src (paddr / PAGE_SIZE) srcVaddr) with
      | .error e => return .error e
      | .ok () => do
          unquickmap QUICKMAP_PAGE_TABLE
          return .ok (paddr / PAGE_SIZE)

/-- The loop body of `paging_clone_current_page_directory`, for one slot. -/
def cloneSlot (dst i : Nat) : Kernel Machine (Except Errno Unit) := do
  let m ← get
  match m.currentDir i with
  | none => return .ok ()
  | some table => do
      match ← clonePageTable table (i * tableSpan) with
      | .error e => return .error e
      | .ok copy => do
          modify fun m => m.setDir dst (Function.update ((m.dirs dst).getD fun _ => none) i (some copy))
          return .ok ()

/-- `paging_clone_current_page_directory`. It runs under `quickmap_lock`. -/
def pagingCloneCurrentPageDirectory (c : HeapChoice Nat) : Kernel Machine (Except Errno Nat) := do
  match ← pagingCreatePageDirectory c with
  | .error e => return .error e
  | .ok dst => do
      match ← Program.tryRange 0 KERNEL_PDE_IDX (cloneSlot dst) with
      | .error e => return .error e
      | .ok () => return .ok dst

end Machine

/-! ### Runs -/

/-- What the kernel heap does: it calls the paging functions on its own addresses. -/
def HeapChoice.OnKernelHeap {α : Type} (c : HeapChoice α) : Prop := ∀ call ∈ c.calls, call.OnKernelHeap

end Chaotix
