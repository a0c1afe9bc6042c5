/-
Module: Chaotix.Kernel.Paging
Layer: Kernel
Purpose: The current page directory of `kernel/memory/paging.c` over the physical page allocator, and
  the memory behind it. A page table is known by the directory entry that points to it: its frame is
  recorded there, and its entries are the part of `pte` that the directory entry covers. An access to
  an address that is not mapped is a fault.
Imports: Mathlib.Logic.Function.Basic, Mathlib.Data.UInt, Chaotix.Kernel.Base,
  Chaotix.Kernel.PageAllocator
Trusted boundary: human-reviewed model of `kernel/memory/paging.c`
Main exports: Vm, Vm.frameOf, load8, store8, load32, store32, pagingMapToFreePages,
  pagingMapToPhysicalRange, pagingCopyMapping, pagingUnmap
-/
import Mathlib.Logic.Function.Basic
import Mathlib.Data.UInt
import Chaotix.Kernel.Base
import Chaotix.Kernel.PageAllocator

namespace Chaotix

/-- A present page table entry: the frame it points to, and its flag bits. -/
structure Pte where
  frame : Nat
  flags : Nat
deriving DecidableEq, Repr

/-- `PAGE_WRITE`. -/
abbrev PAGE_WRITE : Nat := 0x2

/-- `PAGE_GLOBAL`. -/
abbrev PAGE_GLOBAL : Nat := 0x100

/-- `PAGE_SHARED`, of a page that is linked and not copied when a page directory is cloned. -/
abbrev PAGE_SHARED : Nat := 0x200

/-- The current page directory, the contents of every frame, and the physical page allocator. A
    directory entry covers 1024 pages; an entry that is not present is `none`. -/
structure Vm where
  pde : Nat → Option Nat
  pte : Nat → Option Pte
  ram : Nat → Nat → UInt8
  pages : PageAllocator

/-- Run a function of the page allocator. -/
def onPages {α : Type} (m : Kernel PageAllocator α) : Kernel Vm α :=
  Program.focus Vm.pages (fun pages vm => { vm with pages := pages }) m

/-! ### Page tables -/

/-- `get_pte`, applied to the page of `vaddr`: `none` when there is no page table, otherwise the entry,
    which may be not present. -/
def getPte (vm : Vm) (vaddr : Nat) : Option (Option Pte) :=
  match vm.pde (vaddr / (1024 * PAGE_SIZE)) with
  | none => none
  | some _ => some (vm.pte (vaddr / PAGE_SIZE))

/-- `get_or_create_page_table`. A new page table is zeroed. -/
def getOrCreatePageTable (vaddr : Nat) : Kernel Vm (Except Errno Unit) := do
  let pdIdx := vaddr / (1024 * PAGE_SIZE)
  match (← get).pde pdIdx with
  | some _ => return .ok ()
  | none => do
      match ← onPages pageAllocatorAlloc with
      | .error e => return .error e
      | .ok paddr => do
          modify fun vm =>
            { vm with
              pde := Function.update vm.pde pdIdx (some (paddr / PAGE_SIZE))
              pte := fun page => if page / 1024 = pdIdx then none else vm.pte page }
          return .ok ()

/-- Write the page table entry of `vaddr`. -/
def setPte (vaddr : Nat) (entry : Option Pte) : Kernel Vm Unit :=
  modify fun vm => { vm with pte := Function.update vm.pte (vaddr / PAGE_SIZE) entry }

/-- `map_page_to_free_page`. -/
def mapPageToFreePage (vaddr flags : Nat) : Kernel Vm (Except Errno Unit) := do
  match ← getOrCreatePageTable vaddr with
  | .error e => return .error e
  | .ok () => do
      assert ((← get).pte (vaddr / PAGE_SIZE) = none)
      match ← onPages pageAllocatorAlloc with
      | .error e => return .error e
      | .ok paddr => do
          setPte vaddr (some { frame := paddr / PAGE_SIZE, flags := flags })
          return .ok ()

/-- `map_page_to_physical_addr`. -/
def mapPageToPhysicalAddr (vaddr paddr flags : Nat) : Kernel Vm (Except Errno Unit) := do
  match ← getOrCreatePageTable vaddr with
  | .error e => return .error e
  | .ok () => do
      assert ((← get).pte (vaddr / PAGE_SIZE) = none)
      onPages (pageAllocatorRefPage paddr)
      setPte vaddr (some { frame := paddr / PAGE_SIZE, flags := flags })
      return .ok ()

/-- `copy_page_mapping`. -/
def copyPageMapping (toVaddr fromVaddr flags : Nat) : Kernel Vm (Except Errno Unit) := do
  match getPte (← get) fromVaddr with
  | some (some fromPte) => do
      match ← getOrCreatePageTable toVaddr with
      | .error e => return .error e
      | .ok () => do
          assert ((← get).pte (toVaddr / PAGE_SIZE) = none)
          onPages (pageAllocatorRefPage (fromPte.frame * PAGE_SIZE))
          setPte toVaddr (some { frame := fromPte.frame, flags := flags })
          return .ok ()
  | _ => throw .panic

/-- `unmap_page`. -/
def unmapPage (vaddr : Nat) : Kernel Vm Unit := do
  match getPte (← get) vaddr with
  | some (some pte) => do
      onPages (pageAllocatorUnrefPage (pte.frame * PAGE_SIZE))
      setPte vaddr none
  | _ => throw .panic

/-- `for (offset = ...; offset < size; offset += PAGE_SIZE)` with the first error returned, for `n` more
    pages. -/
def forPages (body : Nat → Kernel Vm (Except Errno Unit)) :
    Nat → Nat → Kernel Vm (Except Errno Unit)
  | _, 0 => return .ok ()
  | offset, n + 1 => do
      match ← body offset with
      | .error e => return .error e
      | .ok () => forPages body (offset + PAGE_SIZE) n

/-- `paging_map_to_free_pages`. -/
def pagingMapToFreePages (vaddr size flags : Nat) : Kernel Vm (Except Errno Unit) := do
  assert (vaddr % PAGE_SIZE = 0)
  forPages (fun offset => mapPageToFreePage ((vaddr + offset) % wordSize) flags) 0
    (roundUp size / PAGE_SIZE)

/-- `paging_map_to_physical_range`. -/
def pagingMapToPhysicalRange (vaddr paddr size flags : Nat) : Kernel Vm (Except Errno Unit) := do
  assert (vaddr % PAGE_SIZE = 0)
  assert (paddr % PAGE_SIZE = 0)
  forPages (fun offset =>
      mapPageToPhysicalAddr ((vaddr + offset) % wordSize) ((paddr + offset) % wordSize) flags) 0
    (roundUp size / PAGE_SIZE)

/-- `paging_copy_mapping`. -/
def pagingCopyMapping (toVaddr fromVaddr size flags : Nat) : Kernel Vm (Except Errno Unit) := do
  assert (toVaddr % PAGE_SIZE = 0)
  assert (fromVaddr % PAGE_SIZE = 0)
  forPages (fun offset =>
      copyPageMapping ((toVaddr + offset) % wordSize) ((fromVaddr + offset) % wordSize) flags) 0
    (roundUp size / PAGE_SIZE)

/-- `paging_unmap`. -/
def pagingUnmap (vaddr size : Nat) : Kernel Vm Unit := do
  assert (vaddr % PAGE_SIZE = 0)
  Program.forRange 0 (roundUp size / PAGE_SIZE) fun i =>
    unmapPage ((vaddr + i * PAGE_SIZE) % wordSize)

/-! ### Memory accesses -/

/-- The frame a virtual page is mapped to. -/
def Vm.frameOf (vm : Vm) (page : Nat) : Option Nat :=
  match vm.pde (page / 1024) with
  | none => none
  | some _ => (vm.pte page).map Pte.frame

/-- Read one byte. -/
def load8 (vaddr : Nat) : Kernel Vm UInt8 := do
  let vm ← get
  match vm.frameOf (vaddr / PAGE_SIZE) with
  | some frame => return vm.ram frame (vaddr % PAGE_SIZE)
  | none => throw .fault

/-- Write one byte. -/
def store8 (vaddr : Nat) (value : UInt8) : Kernel Vm Unit := do
  let vm ← get
  match vm.frameOf (vaddr / PAGE_SIZE) with
  | some frame =>
      set { vm with
        ram := Function.update vm.ram frame
          (Function.update (vm.ram frame) (vaddr % PAGE_SIZE) value) }
  | none => throw .fault

/-- Read a little-endian 32-bit word. -/
def load32 (vaddr : Nat) : Kernel Vm Nat := do
  let b0 ← load8 vaddr
  let b1 ← load8 ((vaddr + 1) % wordSize)
  let b2 ← load8 ((vaddr + 2) % wordSize)
  let b3 ← load8 ((vaddr + 3) % wordSize)
  return b0.toNat + 0x100 * b1.toNat + 0x10000 * b2.toNat + 0x1000000 * b3.toNat

/-- Write a little-endian 32-bit word. -/
def store32 (vaddr value : Nat) : Kernel Vm Unit := do
  store8 vaddr (UInt8.ofNat value)
  store8 ((vaddr + 1) % wordSize) (UInt8.ofNat (value / 0x100))
  store8 ((vaddr + 2) % wordSize) (UInt8.ofNat (value / 0x10000))
  store8 ((vaddr + 3) % wordSize) (UInt8.ofNat (value / 0x1000000))

end Chaotix
