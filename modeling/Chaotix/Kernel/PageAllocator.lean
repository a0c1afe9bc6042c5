/-
Module: Chaotix.Kernel.PageAllocator
Layer: Kernel
Purpose: The physical page allocator of `kernel/memory/page_allocator.c`: a bitmap of free pages in
  32-bit words, an 8-bit reference count for each page that stops counting at 255, and the amount of
  free memory in KiB. `bitmapInit` fills them from what the boot loader reports. Every function takes
  the allocator's mutex on entry and releases it on every path to its return, so a call is one step.
  `pageSystem` runs the allocator and remembers, beside its state, what its callers did.
Imports: Mathlib.Data.UInt, Chaotix.Lib.Transition, Chaotix.Lib.BitSet, Chaotix.Kernel.Base
Trusted boundary: human-reviewed model of `kernel/memory/page_allocator.c`
Main exports: PageAllocator, MultibootInfo, bitmapInit, pageAllocatorInit, pageAllocatorAlloc, pageAllocatorRefPage,
  pageAllocatorUnrefPage, PageState, PageStep, pageSystem
-/
import Mathlib.Data.UInt
import Chaotix.Lib.Transition
import Chaotix.Lib.BitSet
import Chaotix.Kernel.Base

namespace Chaotix

/-- `MAX_NUM_PAGES`. -/
abbrev MAX_NUM_PAGES : Nat := 1024 * 1024

/-- `BITMAP_MAX_LEN`. -/
abbrev BITMAP_MAX_LEN : Nat := MAX_NUM_PAGES / 32

/-- `UINT8_MAX`, where a reference count stops. -/
abbrev UINT8_MAX : Nat := 255

/-- The static data of the allocator. `total` and `free` are the fields of `memory_info`, in KiB. -/
structure PageAllocator where
  bitmapLen : Nat := 0
  bitmap : BitSet 32 := fun _ => 0#32
  refCounts : Nat → Nat := fun _ => 0
  total : Nat := 0
  free : Nat := 0

/-! ### The bitmap -/

/-- `bitmap_get`. -/
def bitmapGet (i : Nat) : Kernel PageAllocator Bool := do
  let s ← get
  assert (i / 32 < s.bitmapLen)
  return s.bitmap.mem i

/-- `bitmap_set`. -/
def bitmapSet (i : Nat) : Kernel PageAllocator Unit := do
  let s ← get
  assert (i / 32 < s.bitmapLen)
  set { s with bitmap := s.bitmap.insert i }

/-- `bitmap_clear`. -/
def bitmapClear (i : Nat) : Kernel PageAllocator Unit := do
  let s ← get
  assert (i / 32 < s.bitmapLen)
  set { s with bitmap := s.bitmap.erase i }

/-- `bitmap_find_first_set`. -/
def bitmapFindFirstSet : Kernel PageAllocator (Except Errno Nat) := do
  let s ← get
  match s.bitmap.findFirst 0 s.bitmapLen with
  | some i => return .ok i
  | none => return .error .ENOMEM

/-! ### Initialisation -/

/-- `multiboot_memory_map_t`. -/
structure MultibootMmapEntry where
  addr : UInt64
  len : UInt64
  type : UInt32

/-- `multiboot_module_t`. -/
structure MultibootModule where
  modStart : UInt32
  modEnd : UInt32

/-- The parts of `multiboot_info_t` the allocator reads. A table is there when its flag is set. -/
structure MultibootInfo where
  mmap : Option (List MultibootMmapEntry)
  mods : Option (List MultibootModule)
  memUpper : UInt32 := 0

/-- `MULTIBOOT_MEMORY_AVAILABLE`. -/
def MULTIBOOT_MEMORY_AVAILABLE : UInt32 := 1

/-- `get_available_physical_addr_bounds`: the end of the kernel image, and the highest end of an available region. -/
def getAvailablePhysicalAddrBounds (mbInfo : MultibootInfo) (kernelEnd : UInt32) : Nat × Nat :=
  let lowerBound := wordSub kernelEnd.toNat KERNEL_VADDR
  match mbInfo.mmap with
  | none => (lowerBound, (mbInfo.memUpper.toNat * 0x400 + 0x100000) % wordSize)
  | some entries =>
      (lowerBound, entries.foldl (fun upperBound entry =>
        if entry.type ≠ MULTIBOOT_MEMORY_AVAILABLE then upperBound
        else max upperBound ((entry.addr + entry.len).toNat % wordSize)) lowerBound)

/-- Set the bits of the whole pages of one available region. Addresses above 4 GiB are truncated, as by
    the conversion to `uintptr_t`. -/
def bitmapAddRegion (lowerBound : Nat) (entry : MultibootMmapEntry) : Kernel PageAllocator Unit := do
  if entry.type ≠ MULTIBOOT_MEMORY_AVAILABLE then
    return
  let entryStart := max (entry.addr.toNat % wordSize) lowerBound
  let entryEnd := (entry.addr + entry.len).toNat % wordSize
  if entryStart ≥ entryEnd then
    return
  Program.forRange (divCeil entryStart PAGE_SIZE) (entryEnd / PAGE_SIZE) bitmapSet

/-- The first part of `bitmap_init`: set the bits of the pages that exist. -/
def bitmapAddRegions (mbInfo : MultibootInfo) (lowerBound upperBound : Nat) :
    Kernel PageAllocator Unit :=
  match mbInfo.mmap with
  | some entries => entries.forM (bitmapAddRegion lowerBound)
  | none => Program.forRange (divCeil lowerBound PAGE_SIZE) (upperBound / PAGE_SIZE) bitmapSet

/-- Clear the bits of the pages of one boot module. -/
def bitmapRemoveModule (mod : MultibootModule) : Kernel PageAllocator Unit :=
  Program.forRange (mod.modStart.toNat / PAGE_SIZE) (divCeil mod.modEnd.toNat PAGE_SIZE) bitmapClear

/-- The second part of `bitmap_init`: clear the bits of the boot modules. -/
def bitmapRemoveModules (mbInfo : MultibootInfo) : Kernel PageAllocator Unit :=
  match mbInfo.mods with
  | some modules => modules.forM bitmapRemoveModule
  | none => pure ()

/-- One round of the last loop of `bitmap_init`: count a free page, or give a reserved page the count
    that never reaches zero. -/
def bitmapInitCount (i numPages : Nat) : Kernel PageAllocator Nat := do
  if (← bitmapGet i) then
    return numPages + 1
  else
    modify fun s => { s with refCounts := Function.update s.refCounts i UINT8_MAX }
    return numPages

/-- `bitmap_init`. -/
def bitmapInit (mbInfo : MultibootInfo) (lowerBound upperBound : UInt32) :
    Kernel PageAllocator Unit := do
  let bitmapLen := divCeil upperBound.toNat (PAGE_SIZE * 32)
  assert (bitmapLen ≤ BITMAP_MAX_LEN)
  modify fun s => { s with bitmapLen := bitmapLen }
  bitmapAddRegions mbInfo lowerBound.toNat upperBound.toNat
  bitmapRemoveModules mbInfo
  let numPages ← Program.foldRange 0 (bitmapLen * 32) 0 bitmapInitCount
  let kib := numPages * PAGE_SIZE % wordSize / 1024
  modify fun s => { s with total := kib, free := kib }

/-- `page_allocator_init`. -/
def pageAllocatorInit (mbInfo : MultibootInfo) (kernelEnd : UInt32) : Kernel PageAllocator Unit := do
  assert (kernelEnd.toNat ≤ KERNEL_VADDR + 1022 * PAGE_SIZE)
  let (lowerBound, upperBound) := getAvailablePhysicalAddrBounds mbInfo kernelEnd
  bitmapInit mbInfo (.ofNat lowerBound) (.ofNat upperBound)

/-! ### Allocation -/

/-- `page_allocator_alloc`. The result is the physical address of a page. -/
def pageAllocatorAlloc : Kernel PageAllocator (Except Errno Nat) := do
  match (← bitmapFindFirstSet) with
  | .error e => return .error e
  | .ok firstSet => do
      bitmapClear firstSet
      assert ((← get).refCounts firstSet = 0)
      modify fun s =>
        { s with
          refCounts := Function.update s.refCounts firstSet 1
          free := (s.free + wordSize - PAGE_SIZE / 1024) % wordSize }
      return .ok (firstSet * PAGE_SIZE)

/-- `page_allocator_ref_page`. -/
def pageAllocatorRefPage (physicalAddr : Nat) : Kernel PageAllocator Unit := do
  assert (physicalAddr % PAGE_SIZE = 0)
  let idx := physicalAddr / PAGE_SIZE
  let s ← get
  if s.refCounts idx < UINT8_MAX then
    set { s with refCounts := Function.update s.refCounts idx (s.refCounts idx + 1) }

/-- `page_allocator_unref_page`. -/
def pageAllocatorUnrefPage (physicalAddr : Nat) : Kernel PageAllocator Unit := do
  assert (physicalAddr % PAGE_SIZE = 0)
  let idx := physicalAddr / PAGE_SIZE
  let s ← get
  assert (s.refCounts idx > 0)
  -- a saturated count is never lowered
  if s.refCounts idx < UINT8_MAX then
    set { s with refCounts := Function.update s.refCounts idx (s.refCounts idx - 1) }
    if s.refCounts idx - 1 = 0 then
      bitmapSet idx
      modify fun s => { s with free := (s.free + PAGE_SIZE / 1024) % wordSize }

/-! ### Well-formed allocators -/

/-- Every free page lies inside the bitmap and is counted 0. -/
def PagesOk (a : PageAllocator) : Prop :=
  ∀ i, a.bitmap.mem i = true → i < a.bitmapLen * 32 ∧ a.refCounts i = 0

/-- At least `k` references are held to a frame, as far as the count can tell. -/
structure PageAllocator.Held (a : PageAllocator) (f k : Nat) : Prop where
  inside : f < a.bitmapLen * 32
  clear : a.bitmap.mem f = false
  count : min k UINT8_MAX ≤ a.refCounts f

/-! ### The allocator and its callers -/

/-- The allocator, and what its callers did: the references each page has and has not lost, which
    counts have ever been at 255, and which pages of the bitmap were not free at the start. -/
structure PageState where
  allocator : PageAllocator
  outstanding : Nat → Nat
  saturated : Nat → Bool
  reserved : Nat → Bool

namespace PageState

/-- No references are out yet. -/
def initial (a : PageAllocator) : PageState :=
  { allocator := a
    outstanding := fun _ => 0
    saturated := fun i => a.refCounts i == UINT8_MAX
    reserved := fun i => !a.bitmap.mem i }

/-- The state after a call has left the allocator as `a`. -/
def after (s : PageState) (a : PageAllocator) (outstanding : Nat → Nat) : PageState :=
  { allocator := a
    outstanding := outstanding
    saturated := fun i => s.saturated i || a.refCounts i == UINT8_MAX
    reserved := s.reserved }

/-- The address of a page inside the bitmap. -/
def Inside (s : PageState) (addr : Nat) : Prop :=
  addr % PAGE_SIZE = 0 ∧ addr / PAGE_SIZE < s.allocator.bitmapLen * 32

end PageState

/-- The calls of the three functions. -/
inductive PageEvent where
  | alloc (result : Except Errno Nat)
  | refPage (addr : Nat)
  | unrefPage (addr : Nat)

/-- The calls that return. Each `unref` takes back an earlier `alloc` or `ref` of its page; a call that
    fails an `ASSERT` has no next state. -/
inductive PageStep : PageState → PageEvent → PageState → Prop where
  | alloc {s : PageState} (addr : Nat) (a : PageAllocator) :
      pageAllocatorAlloc s.allocator = .ok (.ok addr, a) →
      PageStep s (.alloc (.ok addr))
        (s.after a (Function.update s.outstanding (addr / PAGE_SIZE)
          (s.outstanding (addr / PAGE_SIZE) + 1)))
  | allocFails {s : PageState} (e : Errno) (a : PageAllocator) :
      pageAllocatorAlloc s.allocator = .ok (.error e, a) →
      PageStep s (.alloc (.error e)) (s.after a s.outstanding)
  | refPage {s : PageState} (addr : Nat) (a : PageAllocator) :
      s.Inside addr → pageAllocatorRefPage addr s.allocator = .ok ((), a) →
      PageStep s (.refPage addr)
        (s.after a (Function.update s.outstanding (addr / PAGE_SIZE)
          (s.outstanding (addr / PAGE_SIZE) + 1)))
  | unrefPage {s : PageState} (addr : Nat) (a : PageAllocator) :
      s.Inside addr → 0 < s.outstanding (addr / PAGE_SIZE) →
      pageAllocatorUnrefPage addr s.allocator = .ok ((), a) →
      PageStep s (.unrefPage addr)
        (s.after a (Function.update s.outstanding (addr / PAGE_SIZE)
          (s.outstanding (addr / PAGE_SIZE) - 1)))

/-- The allocator from any state that `bitmap_init` leaves. -/
def pageSystem : TransitionSystem PageState PageEvent where
  init s := ∃ mbInfo lowerBound upperBound a,
    bitmapInit mbInfo lowerBound upperBound {} = .ok ((), a) ∧ s = PageState.initial a
  step := PageStep

end Chaotix
